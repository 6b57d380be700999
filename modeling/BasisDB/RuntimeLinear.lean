import BasisDB.RuntimeOrigins
import BasisDB.RuntimeReads

/-! Linearizability of the replicated KV store: all commands that were ever committed stand in
one order; every answer that a caller got is what its command answers at its own place in that
order; and a command that was proposed after another one was answered stands behind it. -/
namespace BasisDB.Raft.Cluster
open ReplicatedLog
variable {configs : NodeId → Config} {boot : Configuration} {mode : MembershipMode}
  {reconfig : Prop} {s : Cluster} {acts : List Action} {k : ℕ} {hs : ℕ → History NodeId Entry}

/-- Once some log has an entry of a term, a leader of that term has as many entries. -/
theorem Tracked.leader_reaches (ht : Tracked configs boot mode reconfig s acts k hs) {i j : ℕ}
    (hij : i ≤ j) (hj : j ≤ k) {p n : NodeId} {idx : ℕ}
    (hleads : ((s.moment acts j).nodes n).isLeader = true)
    (hterm : ((s.moment acts i).nodes p).log.termAt idx = ((s.moment acts j).nodes n).term)
    (hpos : ((s.moment acts j).nodes n).term ≠ 0) :
    idx ≤ ((s.moment acts j).nodes n).log.lastIndex := by
  have hplain : ((s.moment acts i).nodes p).log.Plain :=
    ((ht.kept i (hij.trans hj)).formed.views p).plain
  have hplain' : ((s.moment acts j).nodes n).log.Plain := ((ht.kept j hj).formed.views n).plain
  obtain ⟨P, e, hP, hlen, he⟩ := hplain.entry_of_termAt (hterm.symm ▸ hpos)
  -- the entry is in the log of its term, which only grows until it is the leader's
  have hlead : P ++ [e] <+: (hs i).leaderLog e.term :=
    coherent_log (ht.kept i (hij.trans hj)).sim p P e hP
  have hgrown := hlead.trans ((ht.le i j hij hj).leaderLog e.term)
  rw [he, hterm, leaderLog_eq (ht.kept j hj).sim hleads] at hgrown
  have hle := hgrown.length_le
  rw [List.length_append, List.length_singleton, hlen] at hle
  rw [hplain'.lastIndex]
  exact hle

theorem Tracked.leader_term_pos (ht : Tracked configs boot mode reconfig s acts k hs) {j : ℕ}
    (hj : j ≤ k) {n : NodeId} (hleads : ((s.moment acts j).nodes n).isLeader = true) :
    ((s.moment acts j).nodes n).term ≠ 0 := by
  refine (((ht.kept j hj).formed.views n).term_pos ?_).ne'
  intro hfollower
  cases hr : ((s.moment acts j).nodes n).role with
  | leader l =>
    simp [world, RaftNode.view, Core.view, hr, RoleState.view] at hfollower
  | follower f | preCandidate p | candidate c =>
    simp [RaftNode.isLeader, hr, RoleState.isLeader] at hleads

end BasisDB.Raft.Cluster

namespace BasisDB.Raft

/-- A command stands in the log under its index. -/
theorem Log.Plain.commandAt_entry {node : RaftNode} (h : node.core.log.Plain) {i : ℕ}
    {entry : CommittedEntry} (hcommand : node.commandAt i = some entry) :
    ∃ j, i = j + 1 ∧ node.core.log.entries[j]? = some entry.entry := by
  have hget := ((RaftNode.commandAt_iff h.contiguous).mp hcommand).2
  cases i with
  | zero => simp [Log.get] at hget
  | succ j =>
    rw [h.get_succ] at hget
    exact ⟨j, rfl, hget⟩

end BasisDB.Raft

namespace BasisDB.Runtime
open BasisDB.Raft BasisDB.Kv

/-- The KV state after the first `i` places of an order of commands. -/
def sequential (codec : Codec) (order : ℕ → Option CommittedEntry) (i : ℕ) : KvState :=
  replay codec ((List.range' 1 i).filterMap order)

namespace RuntimeCluster
variable {codec : Codec} {configs : NodeId → NodeConfig} {peers : OrdSet NodeId}
  {acts : List RuntimeAction} {k : ℕ} {a : RuntimeAction} {n : NodeId}

/-- A caller has its answer, be it a success or an error of its command. -/
def Answered (codec : Codec) (configs : NodeId → NodeConfig) (acts : List RuntimeAction) (k : ℕ)
    (done : Completion) : Prop :=
  done ∈ ((init configs).moment codec acts k).completions ∧ done.result ≠ superseded

/-- The order explains everything that callers and readers saw during the run. -/
structure Linearizes (codec : Codec) (configs : NodeId → NodeConfig) (acts : List RuntimeAction)
    (order : ℕ → Option CommittedEntry) : Prop where
  /-- every place holds the command of a call of the run, at the call's index and in its term -/
  proposed : ∀ i entry, order i = some entry →
    ∃ call ∈ ((init configs).run codec acts).calls, call.index = i ∧
      entry = ⟨call.index, call.term, ⟨call.command⟩⟩
  /-- a replica's state is a beginning of the order -/
  replicas : ∀ k n, (((init configs).moment codec acts k).runtimes n).state =
    sequential codec order (((init configs).moment codec acts k).runtimes n).node.core.lastApplied
  /-- an answered command has its own place, and the answer is the one of that place -/
  answers : ∀ k done, Answered codec configs acts k done →
    order done.entry.index = some done.entry ∧
    done.result = answerTo codec (sequential codec order (done.entry.index - 1)) done.entry ∧
    ∃ call, ((init configs).moment codec acts k).calls[done.sender]? = some call ∧
      done.node = call.node ∧ done.entry = ⟨call.index, call.term, ⟨call.command⟩⟩
  /-- no two calls share a place -/
  distinct : ∀ j k done done', Answered codec configs acts j done →
    Answered codec configs acts k done' → done.entry.index = done'.entry.index →
      done.sender = done'.sender
  /-- a call made after an answer stands behind the answered command -/
  realTime : ∀ j k done done', Answered codec configs acts j done →
    Answered codec configs acts k done' →
    ((init configs).moment codec acts j).calls.length ≤ done'.sender →
      done.entry.index < done'.entry.index

/-- An answer is about the entry that the call appended. -/
theorem answered_call (hown : TakesOwn codec (init configs) acts) {done : Completion}
    (h : Answered codec configs acts k done) :
    ∃ call, ((init configs).moment codec acts k).calls[done.sender]? = some call ∧
      done.node = call.node ∧ done.entry = ⟨call.index, call.term, ⟨call.command⟩⟩ := by
  have hnone : ∀ done ∈ (init configs).completions, done.Owned (init configs).calls :=
    fun done hdone => absurd hdone List.not_mem_nil
  exact run_owned (acts.take k) (init_sound configs) hnone (hown.take k) done h.1 h.2

/-- The order is what was committed anywhere, at any moment. -/
structure CommittedOrder (codec : Codec) (configs : NodeId → NodeConfig) (peers : OrdSet NodeId)
    (acts : List RuntimeAction) (order : ℕ → Option CommittedEntry) : Prop where
  agrees : ∀ k n i, i ≤ ((lowMoment codec configs peers acts k).nodes n).core.commitIndex →
    ((lowMoment codec configs peers acts k).nodes n).commandAt i = order i
  committed : ∀ i entry, order i = some entry → ∃ k n,
    ((lowMoment codec configs peers acts k).nodes n).commandAt i = some entry

theorem commandsUpTo_order {order : ℕ → Option CommittedEntry}
    (horder : CommittedOrder codec configs peers acts order) {i : ℕ}
    (hi : i ≤ ((lowMoment codec configs peers acts k).nodes n).core.commitIndex) :
    ((lowMoment codec configs peers acts k).nodes n).commandsUpTo i =
      (List.range' 1 i).filterMap order := by
  apply List.filterMap_congr
  intro idx hidx
  have hrange := List.mem_range'_1.mp hidx
  exact horder.agrees k n idx (by omega)

theorem moment_calls_isPrefix (codec : Codec) (s : RuntimeCluster) (acts : List RuntimeAction)
    (k : ℕ) : (s.moment codec acts k).calls <+: (s.run codec acts).calls := by
  have hle := calls_isPrefix codec s acts (le_max_left k acts.length)
  rwa [moment.eq_def codec s acts (max _ _), List.take_of_length_le (le_max_right _ _)] at hle

/-- A call that was not yet made at moment `j` is made at `j` or later. -/
theorem Placed.after {p j i : ℕ} {call : ProposeCall} (h : Placed codec configs peers acts p call i)
    (hj : ((init configs).moment codec acts j).calls.length ≤ p) : j ≤ i := by
  by_contra hlt
  have hmade := (List.getElem?_eq_some_iff.mp h.made).1
  have hle := (calls_isPrefix codec (init configs) acts (show i + 1 ≤ j by omega)).length_le
  omega

theorem Placed.call_eq {p j i : ℕ} {call call' : ProposeCall}
    (h : Placed codec configs peers acts p call i) (hi : i < j)
    (hcall : ((init configs).moment codec acts j).calls[p]? = some call') : call = call' := by
  obtain ⟨rest, hrest⟩ := calls_isPrefix codec (init configs) acts (show i + 1 ≤ j by omega)
  have hmade := h.made
  rw [← hrest, List.getElem?_append_left (List.getElem?_eq_some_iff.mp hmade).1, hmade] at hcall
  exact Option.some.inj hcall

section Run
variable (hpeers : ∀ n, (configs n).peers = peers)
  (horderly : (init configs).OrderlyRun codec acts)
  (htrue : (init configs).Truthful codec acts)
include hpeers horderly htrue

/-- No log has an entry of the call's term at the call's index before the call is made. -/
theorem Placed.fresh {p j i : ℕ} {call : ProposeCall} (h : Placed codec configs peers acts p call i)
    (hji : j ≤ i) (m : NodeId) :
    ((lowMoment codec configs peers acts j).nodes m).log.termAt call.index ≠ call.term := by
  intro hterm
  have hr := lowered_respects hpeers horderly htrue
  obtain ⟨hs, ht⟩ := Cluster.tracked_run _ _ hr (loweredLength codec configs peers acts i)
  have hreaches := ht.leader_reaches (loweredLength_mono hji) le_rfl h.leads
    (hterm.trans h.term.symm) (ht.leader_term_pos le_rfl h.leads)
  have hindex := h.index
  unfold lowMoment start at hindex
  omega

/-- Calls of one term stand in the order in which they were made. -/
theorem Placed.ordered {p q i j : ℕ} {call call' : ProposeCall}
    (h : Placed codec configs peers acts p call i)
    (h' : Placed codec configs peers acts q call' j) (hpq : p < q) :
    ¬(call.index = call'.index ∧ call.term = call'.term) := by
  rintro ⟨hindex, hterm⟩
  have hij : i + 1 ≤ j := by
    by_contra hlt
    have hle := (calls_isPrefix codec (init configs) acts (show j ≤ i by omega)).length_le
    rw [h.number, h'.number] at hle
    omega
  have hstored := h.stored
  rw [hindex, hterm] at hstored
  exact h'.fresh hpeers horderly htrue hij call.node hstored

/-- What was committed anywhere at an index, at any moment. -/
theorem exists_order : ∃ order, CommittedOrder codec configs peers acts order := by
  classical
  have hchoice (i : ℕ) : ∃ entry : Option CommittedEntry,
      (∀ k n, i ≤ ((lowMoment codec configs peers acts k).nodes n).core.commitIndex →
        ((lowMoment codec configs peers acts k).nodes n).commandAt i = entry) ∧
      ∀ e, entry = some e →
        ∃ k n, ((lowMoment codec configs peers acts k).nodes n).commandAt i = some e := by
    by_cases hany : ∃ k n, i ≤ ((lowMoment codec configs peers acts k).nodes n).core.commitIndex
    · obtain ⟨k, n, hi⟩ := hany
      exact ⟨_, fun k' n' hi' => commandAt_shared hpeers horderly htrue hi' hi,
        fun e he => ⟨k, n, he⟩⟩
    · exact ⟨none, fun k n hi => absurd ⟨k, n, hi⟩ hany, fun e he => nomatch he⟩
  choose order horder using hchoice
  exact ⟨order, fun k n i => (horder i).1 k n, fun i => (horder i).2⟩

/-- What stands in a log of the cluster is the command of a call. -/
theorem commandAt_call {m : NodeId} {i : ℕ} {entry : CommittedEntry}
    (h : ((lowMoment codec configs peers acts k).nodes m).commandAt i = some entry) :
    ∃ call ∈ ((init configs).run codec acts).calls, call.index = i ∧
      entry = ⟨call.index, call.term, ⟨call.command⟩⟩ := by
  have hr := lowered_respects hpeers horderly htrue
  obtain ⟨hs, ht⟩ := Cluster.tracked_run _ _ hr (loweredLength codec configs peers acts k)
  have hplain : ((lowMoment codec configs peers acts k).nodes m).core.log.Plain :=
    ((ht.kept _ le_rfl).formed.views m).plain
  obtain ⟨j, rfl, hentry⟩ := hplain.commandAt_entry h
  have hindex := ((RaftNode.commandAt_iff hplain.contiguous).mp h).1
  -- the node's log is the one on its disk, and that is the store of the runtime
  have hstore : (((init configs).moment codec acts k).runtimes m).store.log =
      ((lowMoment codec configs peers acts k).nodes m).core.log := by
    have hdisk := ((moment_refines hpeers horderly k).mirrors m).disk
    rw [show (lowMoment codec configs peers acts k).disk m = _ from
      (ht.sound _ le_rfl).disk m] at hdisk
    rw [← hdisk]
    rfl
  have hmem := List.mem_of_getElem? hentry
  rw [← hstore] at hmem
  obtain ⟨call, hcall, hcallIndex, hterm, hcommand⟩ :=
    ((attributed_run codec configs (acts.take k)).runtimes m).stored _ hmem _ rfl
  refine ⟨call, (moment_calls_isPrefix codec (init configs) acts k).subset hcall,
    hcallIndex.trans hindex, ?_⟩
  rw [hcallIndex, hterm, hcommand]
  rfl

/-- Where an answer comes from: a moment at which its entry was applied on the call's node, with
the state before it. -/
theorem answered_applied {done : Completion} (h : Answered codec configs acts k done) : ∃ j ≤ k,
      done ∈ ((init configs).moment codec acts j).completions ∧
      (lowMoment codec configs peers acts j).nodes done.node =
        (((init configs).moment codec acts j).runtimes done.node).node ∧
      done.entry.index ≤
        (((init configs).moment codec acts j).runtimes done.node).node.core.lastApplied ∧
      (((init configs).moment codec acts j).runtimes done.node).node.core.lastApplied ≤
        ((lowMoment codec configs peers acts j).nodes done.node).core.commitIndex ∧
      ((lowMoment codec configs peers acts j).nodes done.node).commandAt done.entry.index =
        some done.entry ∧
      done.result = answerTo codec (replay codec (((lowMoment codec configs peers acts j).nodes
        done.node).commandsUpTo (done.entry.index - 1))) done.entry := by
  obtain ⟨j, hj, hmem, hans, hcommitted, hnode⟩ :=
    (consistent_moment hpeers horderly htrue k).answered done h.1
  refine ⟨j, hj, hmem, hnode, hans.applied, ?_, ?_, ?_⟩
  · rw [hnode]
    exact hcommitted
  · rw [hnode]
    exact hans.entry
  · rw [hnode]
    exact hans.result.resolve_right h.2

/-- The place of an answered call. -/
theorem answered_placed (hown : TakesOwn codec (init configs) acts) {done : Completion}
    (h : Answered codec configs acts k done) :
    ∃ call, ∃ i < k, Placed codec configs peers acts done.sender call i ∧
      done.entry = ⟨call.index, call.term, ⟨call.command⟩⟩ := by
  obtain ⟨call, hcall, -, hentry⟩ := answered_call hown h
  obtain ⟨call', i, hi, hplaced⟩ :=
    (waiting_moment hpeers horderly htrue k).completions done h.1
  obtain rfl := hplaced.call_eq hi hcall
  exact ⟨call', i, hi, hplaced, hentry⟩

theorem commandAt_term {j : ℕ} {m : NodeId} {entry : CommittedEntry} {i : ℕ}
    (h : ((lowMoment codec configs peers acts j).nodes m).commandAt i = some entry) :
    ((lowMoment codec configs peers acts j).nodes m).log.termAt i = entry.term := by
  have hr := lowered_respects hpeers horderly htrue
  obtain ⟨hs, ht⟩ := Cluster.tracked_run _ _ hr (loweredLength codec configs peers acts j)
  have hplain : ((lowMoment codec configs peers acts j).nodes m).core.log.Plain :=
    ((ht.kept _ le_rfl).formed.views m).plain
  obtain ⟨i, rfl, hentry⟩ := hplain.commandAt_entry h
  show ((lowMoment codec configs peers acts j).nodes m).core.log.termAt (i + 1) = entry.term
  rw [hplain.termAt_succ, hentry]
  rfl

/-- A call stands behind everything that was committed anywhere before it was made. -/
theorem committed_before (hown : TakesOwn codec (init configs) acts) {i j k : ℕ} {m : NodeId}
    {done : Completion}
    (hi : i ≤ ((lowMoment codec configs peers acts j).nodes m).core.commitIndex)
    (h : Answered codec configs acts k done)
    (hafter : ((init configs).moment codec acts j).calls.length ≤ done.sender) :
    i < done.entry.index := by
  obtain ⟨order, horder⟩ := exists_order hpeers horderly htrue
  obtain ⟨j', -, -, -, happlied, hcommit, hentry, -⟩ := answered_applied hpeers horderly htrue h
  obtain ⟨call, p, -, hplaced, hcall⟩ := answered_placed hpeers horderly htrue hown h
  by_contra hge
  -- else the entry was in a log before its call was made
  have hat := horder.agrees j m done.entry.index ((not_lt.mp hge).trans hi)
  rw [← horder.agrees j' done.node _ (happlied.trans hcommit), hentry] at hat
  have hterm := commandAt_term hpeers horderly htrue hat
  have hjp : j ≤ p := hplaced.after hafter
  rw [hcall] at hterm
  exact hplaced.fresh hpeers horderly htrue hjp m hterm

/-- Two calls whose answers are about one place are one call. -/
theorem answered_distinct (hown : TakesOwn codec (init configs) acts) {j k : ℕ}
    {done done' : Completion} (h : Answered codec configs acts j done)
    (h' : Answered codec configs acts k done') (hindex : done.entry.index = done'.entry.index) :
    done.sender = done'.sender := by
  obtain ⟨order, horder⟩ := exists_order hpeers horderly htrue
  obtain ⟨i, -, -, -, happlied, hcommit, hentry, -⟩ := answered_applied hpeers horderly htrue h
  obtain ⟨i', -, -, -, happlied', hcommit', hentry', -⟩ :=
    answered_applied hpeers horderly htrue h'
  -- one place holds one entry, so the calls agree on index and term
  have hsame : done.entry = done'.entry := by
    have hplace := horder.agrees i done.node _ (happlied.trans hcommit)
    have hplace' := horder.agrees i' done'.node _ (happlied'.trans hcommit')
    rw [hentry] at hplace
    rw [hentry', ← hindex, ← hplace] at hplace'
    exact (Option.some.inj hplace').symm
  obtain ⟨call, m, -, hplaced, hcall⟩ := answered_placed hpeers horderly htrue hown h
  obtain ⟨call', m', -, hplaced', hcall'⟩ := answered_placed hpeers horderly htrue hown h'
  rw [hcall, hcall', CommittedEntry.mk.injEq] at hsame
  rcases Nat.lt_trichotomy done.sender done'.sender with hlt | heq | hgt
  · exact absurd ⟨hsame.1, hsame.2.1⟩ (hplaced.ordered hpeers horderly htrue hplaced' hlt)
  · exact heq
  · exact absurd ⟨hsame.1.symm, hsame.2.1.symm⟩
      (hplaced'.ordered hpeers horderly htrue hplaced hgt)

/-- An order that agrees with all that was committed explains all that was seen. -/
theorem linearizes_of_order (hown : TakesOwn codec (init configs) acts)
    {order : ℕ → Option CommittedEntry} (horder : CommittedOrder codec configs peers acts order) :
    Linearizes codec configs acts order := by
  refine ⟨fun i entry hentry => ?_, fun k n => ?_, fun k done h => ?_,
    fun j k done done' h h' hindex => ?_, fun j k done done' h h' hafter => ?_⟩
  · obtain ⟨k, n, hcommand⟩ := horder.committed i entry hentry
    exact commandAt_call hpeers horderly htrue hcommand
  · obtain ⟨hstate, hcommit⟩ := state_replayed hpeers horderly htrue k n
    rw [hstate, sequential, commandsUpTo_order horder hcommit]
  · obtain ⟨j, -, -, -, happlied, hcommit, hentry, hanswer⟩ :=
      answered_applied hpeers horderly htrue h
    have hplace := horder.agrees j done.node done.entry.index (happlied.trans hcommit)
    rw [hentry] at hplace
    rw [commandsUpTo_order horder
      (((Nat.sub_le _ 1).trans happlied).trans hcommit)] at hanswer
    exact ⟨hplace.symm, hanswer, answered_call hown h⟩
  · exact answered_distinct hpeers horderly htrue hown h h' hindex
  · obtain ⟨i, hi, -, -, happlied, hcommit, -, -⟩ := answered_applied hpeers horderly htrue h
    exact committed_before hpeers horderly htrue hown (happlied.trans hcommit) h'
      ((calls_isPrefix codec (init configs) acts hi).length_le.trans hafter)

end Run

/-- The replicated store is linearizable: over any network, with lost and late messages, failing
disks and restarts, there is one order of commands that calls of the run proposed, in which every
answered call has its own place, got the answer of that place, and stands behind everything
answered before it was made; and every replica's state is a beginning of that order. -/
theorem answered_calls_linearize (codec : Codec) (configs : NodeId → NodeConfig)
    (peers : OrdSet NodeId) (acts : List RuntimeAction) (hpeers : ∀ n, (configs n).peers = peers)
    (horderly : (init configs).OrderlyRun codec acts)
    (htrue : (init configs).Truthful codec acts) (hown : TakesOwn codec (init configs) acts) :
    ∃ order, Linearizes codec configs acts order := by
  obtain ⟨order, horder⟩ := exists_order hpeers horderly htrue
  exact ⟨order, linearizes_of_order hpeers horderly htrue hown horder⟩

/-- After the registration of `quickPair`, a read barrier is committed. -/
def quickRead : List RuntimeAction :=
  quickPair ++ [.propose 0 .readBarrier {}] ++ deliveries [7, 8]

/-- The answers to the registration and to the barrier. -/
def quickAnswers : List Completion :=
  [⟨0, 0, ⟨1, 1, ⟨"\"RegisterSession\"".toUTF8.toList⟩⟩, .ok (.registerSession 1)⟩,
    ⟨1, 0, ⟨2, 1, ⟨"\"ReadBarrier\"".toUTF8.toList⟩⟩, .ok .readBarrier⟩]

theorem answered_calls_linearize_quickRead :
    ∃ order : ℕ → Option CommittedEntry,
      order 1 = some ⟨1, 1, ⟨"\"RegisterSession\"".toUTF8.toList⟩⟩ ∧
      order 2 = some ⟨2, 1, ⟨"\"ReadBarrier\"".toUTF8.toList⟩⟩ := by
  obtain ⟨order, horder⟩ := answered_calls_linearize unitCodec quickNodes
    (OrdSet.ofList [0, 1]) quickRead (fun _ => rfl) (by decide +kernel) (by decide +kernel)
    (by decide +kernel)
  have hanswers : ((init quickNodes).moment unitCodec quickRead 11).completions = quickAnswers := by
    decide +kernel
  have hplace (done : Completion) (hmem : done ∈ quickAnswers)
      (hresult : done.result ≠ superseded) : order done.entry.index = some done.entry :=
    (horder.answers 11 done ⟨hanswers ▸ hmem, hresult⟩).1
  exact ⟨order, hplace _ List.mem_cons_self (by simp [superseded]),
    hplace _ (List.mem_cons_of_mem _ List.mem_cons_self) (by simp [superseded])⟩

end RuntimeCluster
end BasisDB.Runtime
