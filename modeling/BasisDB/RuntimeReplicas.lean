import BasisDB.RaftApplied
import BasisDB.RaftDrain
import BasisDB.RaftStable
import BasisDB.RuntimeTruthful

/-! Replicas: the KV state of a runtime is the commands of its own log up to `last_applied`,
applied in order from the empty state, through every step, failed write and restart. What two
runtimes have applied therefore never differs, whatever the moments at which they are looked at. -/
namespace BasisDB.Raft.RaftNode
variable {n : RaftNode} {e : CommittedEntry} {es : List CommittedEntry}

/-- The commands of the log up to an index. -/
def commandsUpTo (n : RaftNode) (i : ℕ) : List CommittedEntry :=
  (List.range' 1 i).filterMap n.commandAt

theorem commandsUpTo_append (n : RaftNode) (i j : ℕ) :
    n.commandsUpTo (i + j) = n.commandsUpTo i ++ (List.range' (i + 1) j).filterMap n.commandAt := by
  rw [commandsUpTo, commandsUpTo, ← List.filterMap_append, Nat.add_comm i 1,
    List.range'_append_1]

theorem commandsUpTo_committed (h : n.core.lastApplied ≤ n.core.commitIndex) :
    n.commandsUpTo n.core.commitIndex = n.commandsUpTo n.core.lastApplied ++ n.committed := by
  rw [committed_eq, ← commandsUpTo_append, Nat.add_sub_cancel' h]

/-- Up to the first committed entry there is one more command. -/
theorem commandsUpTo_first (hlog : n.core.log.Contiguous)
    (h : n.core.lastApplied ≤ n.core.commitIndex) (hes : n.committed = e :: es) :
    n.commandsUpTo e.index = n.commandsUpTo n.core.lastApplied ++ [e] := by
  have hmem := (mem_committed hlog).mp (hes ▸ List.mem_cons_self (a := e))
  have hbefore := commandsUpTo_committed h
  have hafter := commandsUpTo_committed (n := n.advance e.index) hmem.2.1
  rw [committed_advance hlog hes] at hafter
  rw [hes] at hbefore
  have hsame : n.commandsUpTo e.index ++ es = (n.commandsUpTo n.core.lastApplied ++ [e]) ++ es := by
    rw [List.append_assoc]
    exact hafter.symm.trans hbefore
  exact List.append_cancel_right hsame

/-- Logs that agree up to an index have the same commands up to there. -/
theorem commandAt_congr {n' : RaftNode} (hplain : n.core.log.Plain)
    (hplain' : n'.core.log.Plain) {i idx : ℕ} (hidx : idx ≤ i)
    (htake : n'.core.log.entries.take i = n.core.log.entries.take i) :
    n'.commandAt idx = n.commandAt idx := by
  cases idx with
  | zero => simp [commandAt, Log.get]
  | succ j =>
    have hget := congrArg (fun entries => entries[j]?) htake
    simp only [List.getElem?_take_of_lt (show j < i from hidx)] at hget
    rw [commandAt, commandAt, hplain.get_succ, hplain'.get_succ, hget]

theorem commandsUpTo_congr {n' : RaftNode} (hplain : n.core.log.Plain)
    (hplain' : n'.core.log.Plain) {i j : ℕ} (hji : j ≤ i)
    (htake : n'.core.log.entries.take i = n.core.log.entries.take i) :
    n'.commandsUpTo j = n.commandsUpTo j := by
  apply List.filterMap_congr
  intro idx hidx
  have hrange := List.mem_range'_1.mp hidx
  exact commandAt_congr hplain hplain' (by omega) htake

end BasisDB.Raft.RaftNode

theorem BasisDB.Raft.Message.Formed.not_installSnapshot {m : BasisDB.Raft.Message} (h : m.Formed) :
    m.payload.isInstallSnapshot = false := by
  unfold Formed at h
  cases hp : m.payload with
  | installSnapshotRequest req =>
    rw [hp] at h
    exact h.elim
  | _ => rfl

namespace BasisDB.Runtime
open BasisDB.Raft BasisDB.Kv

/-- The KV state after these commands. -/
def replay (codec : Codec) (es : List CommittedEntry) : KvState :=
  es.foldl (RaftRuntime.applyTo codec) KvState.new

/-- The answer that a committed command gets in a KV state. -/
def answerTo (codec : Codec) (state : KvState) (entry : CommittedEntry) :
    Except ConnectError KvApplyResult :=
  match codec.decode entry.command.bytes with
  | none => .error ⟨.internal, "invalid Raft command payload"⟩
  | some command => (state.apply command).2

/-- An answer that went into a channel of `node`: it is about an applied entry of the log, and
it is what the entry's command answers after the commands before it, or an error that says the
proposal was superseded. -/
structure Completion.Answers (codec : Codec) (node : RaftNode) (done : Completion) : Prop where
  applied : done.entry.index ≤ node.core.lastApplied
  entry : node.commandAt done.entry.index = some done.entry
  result : done.result =
      answerTo codec (replay codec (node.commandsUpTo (done.entry.index - 1))) done.entry ∨
    done.result = .error ⟨.aborted, "Raft proposal was superseded"⟩

theorem Completion.Answers.advance {codec : Codec} {node : RaftNode} {done : Completion}
    (h : done.Answers codec node) {i : ℕ} (hi : node.core.lastApplied ≤ i) :
    done.Answers codec (node.advance i) :=
  ⟨h.applied.trans hi, h.entry, h.result⟩

/-- The KV state is the log's commands up to `last_applied`, which are committed. -/
structure RaftRuntime.Replayed (codec : Codec) (r : RaftRuntime) : Prop where
  committed : r.node.core.lastApplied ≤ r.node.core.commitIndex
  state : r.state = replay codec (r.node.commandsUpTo r.node.core.lastApplied)

/-- What a task leaves behind is replayed, and its answers are about what it applied. -/
structure Outcome.Replays (codec : Codec) (r : RaftRuntime) (out : Outcome) : Prop where
  runtime : out.runtime.Replayed codec
  applied : r.node.core.lastApplied ≤ out.runtime.node.core.lastApplied
  answers : ∀ done ∈ out.completions, done.node = r.config.nodeId ∧
    done.Answers codec out.runtime.node

namespace RaftRuntime
variable {codec : Codec} {r : RaftRuntime} {entry : CommittedEntry} {es : List CommittedEntry}
  {out : Outcome} {task : Task} {next : RaftNode × Effects}

theorem applyEntry_answers (codec : Codec) (r : RaftRuntime) (entry : CommittedEntry) :
    r.applyEntry codec entry =
      { r with state := applyTo codec r.state entry, node := r.node.advance entry.index
        }.completeWaiter entry (answerTo codec r.state entry) := by
  unfold applyEntry applyCommand applyTo answerTo
  cases codec.decode entry.command.bytes <;> rfl

/-- One turn of the loop. -/
theorem Replayed.applyEntry (hr : r.Replayed codec) (hlog : r.node.core.log.Contiguous)
    (hes : r.node.committed = entry :: es) :
    (r.applyEntry codec entry).1.Replayed codec ∧
      ∀ done ∈ (r.applyEntry codec entry).2, done.node = r.config.nodeId ∧
        done.Answers codec (r.node.advance entry.index) := by
  have hmem : entry ∈ r.node.committed := hes ▸ List.mem_cons_self
  obtain ⟨hlow, hhigh, hget⟩ := (RaftNode.mem_committed hlog).mp hmem
  have hfirst := RaftNode.commandsUpTo_first hlog hr.committed hes
  have hcommand : r.node.commandAt entry.index = some entry :=
    (RaftNode.commandAt_iff hlog).mpr ⟨rfl, hget⟩
  -- no command stands between `last_applied` and the entry
  have hbetween : r.node.commandsUpTo (entry.index - 1) =
      r.node.commandsUpTo r.node.core.lastApplied := by
    have hlast := r.node.commandsUpTo_append (entry.index - 1) 1
    rw [Nat.sub_add_cancel (by omega), List.range'_one, List.filterMap_cons_some hcommand,
      List.filterMap_nil, hfirst] at hlast
    exact (List.append_cancel_right hlast).symm
  obtain ⟨hnode, hstate⟩ := applyEntry_frame codec r entry
  refine ⟨⟨by rw [hnode]; exact hhigh, ?_⟩, ?_⟩
  · rw [hnode, hstate]
    show applyTo codec r.state entry = replay codec (r.node.commandsUpTo entry.index)
    rw [hfirst, replay, List.foldl_append, hr.state]
    rfl
  · intro done hdone
    rw [applyEntry_answers, completeWaiter] at hdone
    cases hpending : r.waiters.get entry.index with
    | none => simp [hpending] at hdone
    | some pending =>
      simp only [hpending, List.mem_singleton] at hdone
      subst hdone
      refine ⟨rfl, le_rfl, hcommand, ?_⟩
      show PendingProposal.complete _ _ _ = answerTo codec
        (replay codec (r.node.commandsUpTo (entry.index - 1))) entry ∨ _
      rw [hbetween, ← hr.state, PendingProposal.complete]
      split_ifs
      · exact Or.inl rfl
      · exact Or.inr rfl

/-- The loop, for any number of turns. -/
theorem Replayed.applyCommitted (hr : r.Replayed codec) (hlog : r.node.core.log.Contiguous)
    (turns : ℕ) :
    (applyCommitted codec turns r).1.Replayed codec ∧
      r.node.core.lastApplied ≤ (applyCommitted codec turns r).1.node.core.lastApplied ∧
      ∀ done ∈ (applyCommitted codec turns r).2, done.node = r.config.nodeId ∧
        done.Answers codec (applyCommitted codec turns r).1.node := by
  induction turns generalizing r with
  | zero => exact ⟨hr, le_rfl, fun done hdone => absurd hdone List.not_mem_nil⟩
  | succ turns ih =>
    unfold RaftRuntime.applyCommitted
    cases hes : r.node.committed with
    | nil => exact ⟨hr, le_rfl, fun done hdone => absurd hdone List.not_mem_nil⟩
    | cons entry es =>
      obtain ⟨hstep, hanswers⟩ := hr.applyEntry hlog hes
      have hnode := (applyEntry_frame codec r entry).1
      have hlow := ((RaftNode.mem_committed hlog).mp (hes ▸ List.mem_cons_self)).1
      obtain ⟨hrest, hle, hdone⟩ := ih hstep (by rw [hnode]; exact hlog)
      have hkeeps := applyCommitted_keeps codec turns (r.applyEntry codec entry).1
      have hconfig : (r.applyEntry codec entry).1.config = r.config :=
        (narrows_applyEntry codec r entry).config
      rw [hnode] at hle hkeeps
      refine ⟨hrest, hlow.le.trans hle, fun done hmem => ?_⟩
      rcases List.mem_append.mp hmem with hmem | hmem
      · obtain ⟨hid, hans⟩ := hanswers done hmem
        refine ⟨hid, ?_⟩
        rw [hkeeps.2.2.2]
        exact hans.advance hle
      · obtain ⟨hid, hans⟩ := hdone done hmem
        exact ⟨hid.trans (congrArg NodeConfig.nodeId hconfig), hans⟩

theorem Replayed.handleEffects (hr : r.Replayed codec) (hlog : r.node.core.log.Contiguous)
    (effects : Effects) (task : Task) :
    Outcome.Replays codec r (r.handleEffects codec effects task) := by
  obtain ⟨store, error, hsaved⟩ : ∃ store error,
      (if effects.persist then r.save task.write else (r, none)) =
        ({ r with store := store }, error) := ⟨_, _, saveIf_eq r effects.persist task.write⟩
  have hstill : Replayed codec { r with store := store } := ⟨hr.committed, hr.state⟩
  have hsilent {out : Outcome} (hruntime : out.runtime = { r with store := store })
      (hnone : out.completions = []) : Outcome.Replays codec r out := by
    refine ⟨hruntime ▸ hstill, by rw [hruntime], fun done hdone => ?_⟩
    rw [hnone] at hdone
    cases hdone
  unfold RaftRuntime.handleEffects
  rw [hsaved]
  cases error with
  | some error => exact hsilent rfl rfl
  | none =>
    dsimp only
    split_ifs
    · exact hsilent rfl rfl
    · generalize sendMessages { r with store := store } effects.messages = sending
      obtain ⟨sent, sendError⟩ := sending
      cases sendError with
      | some error => exact hsilent rfl rfl
      | none =>
        obtain ⟨hdone, hle, hanswers⟩ := hstill.applyCommitted hlog
          (task.dropped.getD (turns { r with store := store }))
        exact ⟨hdone, hle, hanswers⟩

/-- The node moves on under the runtime: what was applied is still there. -/
theorem Replayed.carry (hr : r.Replayed codec) {node : RaftNode}
    (hplain : r.node.core.log.Plain) (hplain' : node.core.log.Plain)
    (happlied : node.core.lastApplied = r.node.core.lastApplied)
    (hcommit : r.node.core.commitIndex ≤ node.core.commitIndex)
    (htake : node.core.log.entries.take r.node.core.commitIndex =
      r.node.core.log.entries.take r.node.core.commitIndex) :
    Replayed codec { r with node := node } := by
  refine ⟨?_, ?_⟩
  · rw [happlied]
    exact hr.committed.trans hcommit
  · show r.state = replay codec (node.commandsUpTo node.core.lastApplied)
    rw [happlied, RaftNode.commandsUpTo_congr hplain hplain' hr.committed htake]
    exact hr.state

theorem drive_replays (hhealthy : r.ensureHealthy task = true)
    (hr : Replayed codec { r with node := next.1 }) (hlog : next.1.core.log.Contiguous) :
    Outcome.Replays codec { r with node := next.1 } (r.drive codec task next) := by
  have hout := hr.handleEffects hlog next.2 task
  rw [drive, if_pos hhealthy, fail]
  split_ifs
  · exact ⟨⟨hout.runtime.committed, hout.runtime.state⟩, hout.applied, hout.answers⟩
  · exact hout

theorem awaitProposal_replays (r : RaftRuntime) (id : ℕ) (bytes : List UInt8) (sender : ℕ)
    (task : Task) (index : ℕ) (effects : Effects) {node : RaftNode}
    (hr : Replayed codec { r with node := node }) (hlog : node.core.log.Contiguous) :
    Outcome.Replays codec { r with node := node }
      (r.awaitProposal codec id bytes sender task (index, effects, node)).1 := by
  have hwaiting : Replayed codec
      { r with node := node, waiters := r.waiters.insert index ⟨id, bytes, sender⟩ } :=
    ⟨hr.committed, hr.state⟩
  have hout := hwaiting.handleEffects hlog effects task
  unfold awaitProposal
  dsimp only
  generalize RaftRuntime.handleEffects codec
    { r with node := node, waiters := r.waiters.insert index ⟨id, bytes, sender⟩ } effects task =
    out at hout
  obtain ⟨waiters, hremove⟩ := removePending_keeps out.runtime index id
  rw [hremove]
  have hkept : Replayed codec { out.runtime with waiters := waiters } :=
    ⟨hout.runtime.committed, hout.runtime.state⟩
  cases out.error with
  | some error =>
    dsimp only [fail]
    split_ifs
    · exact ⟨⟨hkept.committed, hkept.state⟩, hout.applied, hout.answers⟩
    · exact ⟨hkept, hout.applied, hout.answers⟩
  | none =>
    dsimp only
    split_ifs
    · exact ⟨hkept, hout.applied, hout.answers⟩
    · exact ⟨hout.runtime, hout.applied, hout.answers⟩

end RaftRuntime

namespace RuntimeCluster
variable {codec : Codec} {configs : NodeId → NodeConfig} {peers : OrdSet NodeId}
  {acts : List RuntimeAction} {k : ℕ} {a : RuntimeAction} {n : NodeId}

/-- What holds of all runtimes after `k` actions: the settled ones have replayed their logs,
nothing but a restart takes an applied command back, and every answer so far was right at the
moment it was given. -/
structure Consistent (codec : Codec) (configs : NodeId → NodeConfig) (peers : OrdSet NodeId)
    (acts : List RuntimeAction) (k : ℕ) : Prop where
  replayed : ∀ n, (((init configs).moment codec acts k).runtimes n).Settled →
    (((init configs).moment codec acts k).runtimes n).Replayed codec
  applied : ∀ n j, j ≤ k → (∀ i, j ≤ i → i < k → acts[i]? ≠ some (.restart n)) →
    (((init configs).moment codec acts j).runtimes n).node.core.lastApplied ≤
      (((init configs).moment codec acts k).runtimes n).node.core.lastApplied
  answered : ∀ done ∈ ((init configs).moment codec acts k).completions, ∃ j ≤ k,
    done ∈ ((init configs).moment codec acts j).completions ∧
    done.Answers codec (((init configs).moment codec acts j).runtimes done.node).node ∧
    (((init configs).moment codec acts j).runtimes done.node).node.core.lastApplied ≤
      (((init configs).moment codec acts j).runtimes done.node).node.core.commitIndex ∧
    (lowMoment codec configs peers acts j).nodes done.node =
      (((init configs).moment codec acts j).runtimes done.node).node

theorem lowMoment_succ (ha : acts[k]? = some a) :
    lowMoment codec configs peers acts (k + 1) =
      (lower codec ((init configs).moment codec acts k) (lowMoment codec configs peers acts k)
        a).foldl Cluster.step (lowMoment codec configs peers acts k) := by
  rw [lowMoment_eq, lowered_succ ha, Cluster.run_append, ← lowMoment_eq]
  rfl

/-- The next moment, when its runtimes have replayed their logs, have applied no less, and gave
no answers but right ones. -/
theorem Consistent.next (h : Consistent codec configs peers acts k)
    (hreplayed : ∀ n, (((init configs).moment codec acts (k + 1)).runtimes n).Settled →
      (((init configs).moment codec acts (k + 1)).runtimes n).Replayed codec)
    (happlied : ∀ n, acts[k]? ≠ some (.restart n) →
      (((init configs).moment codec acts k).runtimes n).node.core.lastApplied ≤
        (((init configs).moment codec acts (k + 1)).runtimes n).node.core.lastApplied)
    (hanswered : ∀ done ∈ ((init configs).moment codec acts (k + 1)).completions,
      done ∈ ((init configs).moment codec acts k).completions ∨
      done.Answers codec (((init configs).moment codec acts (k + 1)).runtimes done.node).node ∧
      (((init configs).moment codec acts (k + 1)).runtimes done.node).node.core.lastApplied ≤
        (((init configs).moment codec acts (k + 1)).runtimes done.node).node.core.commitIndex ∧
      (lowMoment codec configs peers acts (k + 1)).nodes done.node =
        (((init configs).moment codec acts (k + 1)).runtimes done.node).node) :
    Consistent codec configs peers acts (k + 1) := by
  refine ⟨hreplayed, fun n j hj hstay => ?_, fun done hdone => ?_⟩
  · rcases Nat.le_succ_iff.mp hj with hj | rfl
    · exact (h.applied n j hj (fun i hi hik => hstay i hi (by omega))).trans
        (happlied n (hstay k hj (Nat.lt_succ_self k)))
    · exact le_rfl
  · rcases hanswered done hdone with hold | hnew
    · obtain ⟨j, hj, hrest⟩ := h.answered done hold
      exact ⟨j, hj.trans (Nat.le_succ k), hrest⟩
    · exact ⟨k + 1, le_rfl, hdone, hnew⟩

/-- An action that touches one runtime, and answers as that runtime's node then stands. -/
theorem Consistent.record (h : Consistent codec configs peers acts k) {out : Outcome}
    (hstep : (init configs).moment codec acts (k + 1) =
      ((init configs).moment codec acts k).record n out)
    (hruntime : out.runtime.Settled → out.runtime.Replayed codec)
    (happlied : (((init configs).moment codec acts k).runtimes n).node.core.lastApplied ≤
      out.runtime.node.core.lastApplied)
    (hanswers : ∀ done ∈ out.completions, done.node = n ∧ done.Answers codec out.runtime.node ∧
      out.runtime.node.core.lastApplied ≤ out.runtime.node.core.commitIndex ∧
      (lowMoment codec configs peers acts (k + 1)).nodes n = out.runtime.node) :
    Consistent codec configs peers acts (k + 1) := by
  have hself : ((init configs).moment codec acts (k + 1)).runtimes n = out.runtime := by
    rw [hstep]
    exact Function.update_self _ _ _
  have hother {m : NodeId} (hm : m ≠ n) : ((init configs).moment codec acts (k + 1)).runtimes m =
      ((init configs).moment codec acts k).runtimes m := by
    rw [hstep]
    exact Function.update_of_ne hm _ _
  refine h.next (fun m => ?_) (fun m _ => ?_) (fun done hdone => ?_)
  · rcases eq_or_ne m n with rfl | hm
    · rw [hself]
      exact hruntime
    · rw [hother hm]
      exact h.replayed m
  · rcases eq_or_ne m n with rfl | hm
    · rw [hself]
      exact happlied
    · rw [hother hm]
  · rw [hstep] at hdone
    rcases List.mem_append.mp hdone with hdone | hdone
    · exact Or.inl hdone
    · obtain ⟨rfl, hans⟩ := hanswers done hdone
      rw [hself]
      exact Or.inr hans

/-- An action that changes no node and answers nothing, but may open one runtime again. -/
theorem Consistent.quiet (h : Consistent codec configs peers acts k) {r : RaftRuntime}
    (hstep : (init configs).moment codec acts (k + 1) =
      ((init configs).moment codec acts k).setRuntime n r)
    (hruntime : r.Settled → r.Replayed codec)
    (happlied : acts[k]? ≠ some (.restart n) →
      (((init configs).moment codec acts k).runtimes n).node.core.lastApplied ≤
        r.node.core.lastApplied) :
    Consistent codec configs peers acts (k + 1) := by
  have hself : ((init configs).moment codec acts (k + 1)).runtimes n = r := by
    rw [hstep]
    exact Function.update_self _ _ _
  have hother {m : NodeId} (hm : m ≠ n) : ((init configs).moment codec acts (k + 1)).runtimes m =
      ((init configs).moment codec acts k).runtimes m := by
    rw [hstep]
    exact Function.update_of_ne hm _ _
  refine h.next (fun m => ?_) (fun m hm => ?_) (fun done hdone => ?_)
  · rcases eq_or_ne m n with rfl | hm
    · rw [hself]
      exact hruntime
    · rw [hother hm]
      exact h.replayed m
  · rcases eq_or_ne m n with rfl | hmn
    · rw [hself]
      exact happlied hm
    · rw [hother hmn]
  · rw [hstep] at hdone
    exact Or.inl hdone

theorem Consistent.same (h : Consistent codec configs peers acts k)
    (hstep : (init configs).moment codec acts (k + 1) = (init configs).moment codec acts k) :
    Consistent codec configs peers acts (k + 1) := by
  refine h.next ?_ ?_ ?_
  · rw [hstep]
    exact h.replayed
  · rw [hstep]
    exact fun _ _ => le_rfl
  · rw [hstep]
    exact fun _ hdone => Or.inl hdone

section Run
variable (hpeers : ∀ n, (configs n).peers = peers)
  (horderly : (init configs).OrderlyRun codec acts)
  (htrue : (init configs).Truthful codec acts)
include hpeers horderly htrue

/-- What a settled runtime's node has committed survives the step of a task that landed. -/
theorem landed_keeps (ha : acts[k]? = some a) {act : Action} {next : RaftNode × Effects}
    (hsettled : (((init configs).moment codec acts k).runtimes n).Settled)
    (hlower : (lower codec ((init configs).moment codec acts k)
      (lowMoment codec configs peers acts k) a)[0]? = some act) (hact : act ≠ .restart n)
    (hstep : (lowMoment codec configs peers acts k).step act =
      (lowMoment codec configs peers acts k).handleEffects n next) :
    let node := (((init configs).moment codec acts k).runtimes n).node
    node.core.log.Plain ∧ next.1.core.log.Plain ∧
      node.core.commitIndex ≤ next.1.core.commitIndex ∧
      next.1.core.log.entries.take node.core.commitIndex =
        node.core.log.entries.take node.core.commitIndex := by
  intro node
  have hr := lowered_respects hpeers horderly htrue
  have hat := lowered_at ha hlower
  rw [Nat.add_zero] at hat
  have hbefore : ((start configs peers).moment (lowered codec configs peers acts)
      (loweredLength codec configs peers acts k)).nodes n = node :=
    ((moment_refines hpeers horderly k).mirrors n).node hsettled
  have hafter : ((start configs peers).moment (lowered codec configs peers acts)
      (loweredLength codec configs peers acts k + 1)).nodes n = next.1 := by
    rw [Cluster.moment_succ _ _ hat]
    show ((lowMoment codec configs peers acts k).step act).nodes n = next.1
    rw [hstep, Cluster.handleEffects]
    exact Function.update_self _ _ _
  have hkept := Cluster.committed_kept _ _ hr n
    (Nat.le_succ (loweredLength codec configs peers acts k))
  have hcommit := Cluster.commit_monotone _ _ hr n
    (Nat.le_succ (loweredLength codec configs peers acts k)) (by
      intro i hi hi'
      obtain rfl : i = loweredLength codec configs peers acts k := by omega
      rw [hat]
      exact fun heq => hact (Option.some.inj heq))
  obtain ⟨hs, ht⟩ := Cluster.tracked_run _ _ hr (loweredLength codec configs peers acts k + 1)
  have hplain (i : ℕ) (hi : i ≤ loweredLength codec configs peers acts k + 1) :
      (((start configs peers).moment (lowered codec configs peers acts) i).nodes n).core.log.Plain :=
    ((ht.kept i hi).formed.views n).plain
  have hplainBefore := hplain _ (Nat.le_succ _)
  have hplainAfter := hplain _ le_rfl
  unfold start at hbefore hafter hplainBefore hplainAfter
  rw [Nat.succ_eq_add_one, hbefore, hafter] at hkept hcommit
  rw [hbefore] at hplainBefore
  rw [hafter] at hplainAfter
  exact ⟨hplainBefore, hplainAfter, hcommit, hkept.take⟩

/-- A task, whether its record reached the disk or not. -/
theorem Consistent.task (h : Consistent codec configs peers acts k) (ha : acts[k]? = some a)
    (n : NodeId) (task : Task) (next : RaftNode × Effects) {out : Outcome} (act : Action)
    (hstep : (init configs).moment codec acts (k + 1) =
      ((init configs).moment codec acts k).record n out)
    (hlow : lower codec ((init configs).moment codec acts k)
        (lowMoment codec configs peers acts k) a =
      lowerTask n (((init configs).moment codec acts k).runtimes n) task next out act)
    (hhealthy : (((init configs).moment codec acts k).runtimes n).ensureHealthy task = true)
    (hsettled : (((init configs).moment codec acts k).runtimes n).Settled)
    (hof : out.Of (((init configs).moment codec acts k).runtimes n) task next)
    (happlied : next.1.core.lastApplied =
      (((init configs).moment codec acts k).runtimes n).node.core.lastApplied)
    (hact : act ≠ .restart n)
    (hcstep : (lowMoment codec configs peers acts k).step act =
      (lowMoment codec configs peers acts k).handleEffects n next)
    (hreplays : RaftRuntime.Replayed codec
        { ((init configs).moment codec acts k).runtimes n with node := next.1 } →
      next.1.core.log.Contiguous → out.Replays codec
        { ((init configs).moment codec acts k).runtimes n with node := next.1 }) :
    Consistent codec configs peers acts (k + 1) := by
  cases hlands : (((init configs).moment codec acts k).runtimes n).lands task next with
  | false =>
    obtain ⟨hunsettled, -, -, hnone, hsame⟩ := hof.of_not_lands hhealthy hlands
    refine h.record hstep (fun hset => absurd hset hunsettled) ?_ (fun done hdone => ?_)
    · rw [hsame, happlied]
    rw [hnone] at hdone
    cases hdone
  | true =>
    have hfirst : (lower codec ((init configs).moment codec acts k)
        (lowMoment codec configs peers acts k) a)[0]? = some act := by
      rw [hlow, lowerTask, if_pos hlands]
      rfl
    obtain ⟨hplain, hplain', hcommit, htake⟩ :=
      landed_keeps hpeers horderly htrue ha hsettled hfirst hact hcstep
    have hout := hreplays
      ((h.replayed n hsettled).carry hplain hplain' happlied hcommit htake) hplain'.contiguous
    have hnode : (lowMoment codec configs peers acts (k + 1)).nodes n = out.runtime.node := by
      rw [lowMoment_succ ha, hlow]
      exact lowerTask_node hlands hof hcstep
    refine h.record hstep (fun _ => hout.runtime) (happlied.ge.trans hout.applied)
      (fun done hdone => ?_)
    obtain ⟨hid, hans⟩ := hout.answers done hdone
    have hid' : done.node = n :=
      hid.trans (congrArg NodeConfig.nodeId (moment_config codec configs acts k n))
    exact ⟨hid', hans, hout.runtime.committed, hnode⟩

/-- No snapshot is ever in flight. -/
theorem net_formed (k : ℕ) : ∀ message ∈ ((init configs).moment codec acts k).net,
    message.Formed := by
  intro message hmem
  have hr := lowered_respects hpeers horderly htrue
  obtain ⟨hs, ht⟩ := Cluster.tracked_run _ _ hr (loweredLength codec configs peers acts k)
  exact (ht.kept _ le_rfl).formed.net message ((moment_refines hpeers horderly k).net hmem)

/-- One action of the runtimes. -/
theorem Consistent.step (h : Consistent codec configs peers acts k) (ha : acts[k]? = some a) :
    Consistent codec configs peers acts (k + 1) := by
  have hcases := @moment_step codec configs acts k a ha
  have horderlyAt := horderly.at ha
  have href := moment_refines hpeers horderly k
  generalize hs' : (init configs).moment codec acts (k + 1) = s',
    hlows : (fun c => lower codec ((init configs).moment codec acts k) c a) = low at hcases
  have hlow := congrFun hlows (lowMoment codec configs peers acts k)
  cases hcases with
  | nothing => exact h.same hs'
  | refused n id error =>
    refine h.record hs' (fun hset => ?_) le_rfl (fun done hdone => absurd hdone List.not_mem_nil)
    have hr := h.replayed n hset
    exact ⟨hr.committed, hr.state⟩
  | event n task event act hhealthy hsettled hevent hact hstep =>
    refine h.task hpeers horderly htrue ha n task _ (act _) hs' hlow hhealthy (hsettled horderlyAt)
      (RaftRuntime.drive_of codec hhealthy _) ?_ (hact _) (hstep _ href (hsettled horderlyAt))
      (fun hr hlog => RaftRuntime.drive_replays hhealthy hr hlog)
    apply RaftNode.stepEvent_lastApplied
    rintro message rfl
    rcases hevent.valid with hevent | ⟨message', hmem, hevent, -⟩
    · cases hevent
    · cases hevent
      exact (net_formed hpeers horderly htrue k message hmem).not_installSnapshot
  | proposal n command task id bytes index effects node hhealthy hsettled hencode haccepted hstep =>
    refine h.task hpeers horderly htrue ha n task (node, effects) (.propose n ⟨bytes⟩) hs' hlow
      hhealthy (hsettled horderlyAt) (awaiting_of codec _ n task id bytes index effects node)
      (RaftNode.propose_lastApplied haccepted) (by simp) (hstep _ href (hsettled horderlyAt))
      (fun hr hlog => ?_)
    have hout := RaftRuntime.awaitProposal_replays
      { ((init configs).moment codec acts k).runtimes n with nextProposalId := id }
      (((init configs).moment codec acts k).runtimes n).nextProposalId bytes
      ((init configs).moment codec acts k).calls.length task index effects
      ⟨hr.committed, hr.state⟩ hlog
    exact ⟨hout.runtime, hout.applied, hout.answers⟩
  | cleanup n waiters hsub =>
    refine h.quiet hs' (fun hset => ?_) (fun _ => le_rfl)
    have hr := h.replayed n hset
    exact ⟨hr.committed, hr.state⟩
  | restart n => exact h.quiet hs' (fun _ => ⟨le_rfl, rfl⟩) (fun hstay => absurd ha hstay)

theorem consistent_moment (k : ℕ) : Consistent codec configs peers acts k := by
  induction k with
  | zero =>
    refine ⟨fun _ _ => ⟨le_rfl, rfl⟩, fun n j hj _ => ?_,
      fun done hdone => absurd hdone List.not_mem_nil⟩
    obtain rfl : j = 0 := by omega
    exact le_rfl
  | succ k ih =>
    cases ha : acts[k]? with
    | none => exact ih.same (moment_beyond _ ha)
    | some a => exact ih.step hpeers horderly htrue ha

/-- What two nodes have committed at an index is the same, also at different moments. -/
theorem commandAt_shared {j : ℕ} {m n : NodeId} {i : ℕ}
    (hm : i ≤ ((lowMoment codec configs peers acts j).nodes m).core.commitIndex)
    (hn : i ≤ ((lowMoment codec configs peers acts k).nodes n).core.commitIndex) :
    ((lowMoment codec configs peers acts j).nodes m).commandAt i =
      ((lowMoment codec configs peers acts k).nodes n).commandAt i := by
  have hr := lowered_respects hpeers horderly htrue
  -- an earlier and a later moment
  have hordered {j k : ℕ} (hjk : loweredLength codec configs peers acts j ≤
      loweredLength codec configs peers acts k) {m n : NodeId}
      (hm : i ≤ ((lowMoment codec configs peers acts j).nodes m).core.commitIndex)
      (hn : i ≤ ((lowMoment codec configs peers acts k).nodes n).core.commitIndex) :
      ((lowMoment codec configs peers acts j).nodes m).commandAt i =
        ((lowMoment codec configs peers acts k).nodes n).commandAt i := by
    obtain ⟨hs, ht⟩ := Cluster.tracked_run _ _ hr (loweredLength codec configs peers acts k)
    have hkept := ht.kept _ hjk
    have hkept' := ht.kept _ le_rfl
    exact RaftNode.commandAt_congr (hkept'.formed.views n).plain (hkept.formed.views m).plain
      le_rfl (hkept.committed_take hkept' (ht.le _ _ hjk le_rfl) hm hn)
  rcases le_total (loweredLength codec configs peers acts j)
    (loweredLength codec configs peers acts k) with hjk | hkj
  · exact hordered hjk hm hn
  · exact (hordered hkj hn hm).symm

/-- The settled runtime's node is the node of the cluster, and has applied committed entries. -/
theorem settled_committed (hsettled : (((init configs).moment codec acts k).runtimes n).Settled) :
    (lowMoment codec configs peers acts k).nodes n =
        (((init configs).moment codec acts k).runtimes n).node ∧
      (((init configs).moment codec acts k).runtimes n).node.core.lastApplied ≤
        ((lowMoment codec configs peers acts k).nodes n).core.commitIndex := by
  have hnode := ((moment_refines hpeers horderly k).mirrors n).node hsettled
  refine ⟨hnode, ?_⟩
  rw [hnode]
  exact ((consistent_moment hpeers horderly htrue k).replayed n hsettled).committed

end Run

/-- At every moment of a truthful run, with failed writes, dropped tasks and restarts, the KV
state of a settled runtime is the commands of its own log up to `last_applied`, each applied
once and in order; and everything applied is committed. -/
theorem kv_state_is_log_replay (codec : Codec) (configs : NodeId → NodeConfig)
    (peers : OrdSet NodeId) (acts : List RuntimeAction) (hpeers : ∀ n, (configs n).peers = peers)
    (horderly : (init configs).OrderlyRun codec acts)
    (htrue : (init configs).Truthful codec acts) (k : ℕ) (n : NodeId)
    (hsettled : (((init configs).moment codec acts k).runtimes n).Settled) :
    let r := ((init configs).moment codec acts k).runtimes n
    r.node.core.lastApplied ≤ r.node.core.commitIndex ∧
      r.state = replay codec (r.node.commandsUpTo r.node.core.lastApplied) := by
  have hr := (consistent_moment hpeers horderly htrue k).replayed n hsettled
  exact ⟨hr.committed, hr.state⟩

theorem kv_state_is_log_replay_quickPair :
    (((init quickNodes).moment unitCodec quickPair 8).runtimes 1).node.core.lastApplied = 1 ∧
      (((init quickNodes).moment unitCodec quickPair 8).runtimes 1).state =
        replay unitCodec [⟨1, 1, ⟨"\"RegisterSession\"".toUTF8.toList⟩⟩] := by
  have hreplay := (kv_state_is_log_replay unitCodec quickNodes (OrdSet.ofList [0, 1]) quickPair
    (fun _ => rfl) (by decide +kernel) (by decide +kernel) 8 1 (by decide +kernel)).2
  have hcommands : (((init quickNodes).moment unitCodec quickPair 8).runtimes 1).node.commandsUpTo
      (((init quickNodes).moment unitCodec quickPair 8).runtimes 1).node.core.lastApplied =
      [⟨1, 1, ⟨"\"RegisterSession\"".toUTF8.toList⟩⟩] := by decide +kernel
  rw [hcommands] at hreplay
  exact ⟨by decide +kernel, hreplay⟩

/-- Replicas never diverge: of two settled runtimes, looked at at any moments, the one that has
applied further has applied everything the other has, and its state is the other's state after
the remaining commands. -/
theorem replicas_never_diverge (codec : Codec) (configs : NodeId → NodeConfig)
    (peers : OrdSet NodeId) (acts : List RuntimeAction) (hpeers : ∀ n, (configs n).peers = peers)
    (horderly : (init configs).OrderlyRun codec acts)
    (htrue : (init configs).Truthful codec acts) (j k : ℕ) (m n : NodeId)
    (hm : (((init configs).moment codec acts j).runtimes m).Settled)
    (hn : (((init configs).moment codec acts k).runtimes n).Settled)
    (hle : (((init configs).moment codec acts j).runtimes m).node.core.lastApplied ≤
      (((init configs).moment codec acts k).runtimes n).node.core.lastApplied) :
    let a := ((init configs).moment codec acts j).runtimes m
    let b := ((init configs).moment codec acts k).runtimes n
    ∃ rest, b.node.commandsUpTo b.node.core.lastApplied =
        a.node.commandsUpTo a.node.core.lastApplied ++ rest ∧
      b.state = rest.foldl (RaftRuntime.applyTo codec) a.state := by
  intro a b
  have ha := (consistent_moment hpeers horderly htrue j).replayed m hm
  have hb := (consistent_moment hpeers horderly htrue k).replayed n hn
  obtain ⟨hnode, hcommit⟩ := settled_committed hpeers horderly htrue hm
  obtain ⟨hnode', hcommit'⟩ := settled_committed hpeers horderly htrue hn
  have hshared : a.node.commandsUpTo a.node.core.lastApplied =
      b.node.commandsUpTo a.node.core.lastApplied := by
    apply List.filterMap_congr
    intro idx hidx
    have hrange := List.mem_range'_1.mp hidx
    have hidx : idx ≤ a.node.core.lastApplied := by omega
    have hat := commandAt_shared hpeers horderly htrue (hidx.trans hcommit)
      ((hidx.trans hle).trans hcommit')
    rw [hnode, hnode'] at hat
    exact hat
  have hsplit := b.node.commandsUpTo_append a.node.core.lastApplied
    (b.node.core.lastApplied - a.node.core.lastApplied)
  rw [Nat.add_sub_cancel' hle, ← hshared] at hsplit
  refine ⟨_, hsplit, ?_⟩
  calc b.state = replay codec (b.node.commandsUpTo b.node.core.lastApplied) := hb.state
    _ = _ := by rw [hsplit, replay, List.foldl_append, ← replay, ← ha.state]

theorem replicas_never_diverge_quickPair :
    (((init quickNodes).moment unitCodec quickPair 8).runtimes 1).state =
      (((init quickNodes).moment unitCodec quickPair 7).runtimes 0).state := by
  obtain ⟨rest, hcommands, hstate⟩ := replicas_never_diverge unitCodec quickNodes
    (OrdSet.ofList [0, 1]) quickPair (fun _ => rfl) (by decide +kernel) (by decide +kernel) 7 8 0 1
    (by decide +kernel) (by decide +kernel) (by decide +kernel)
  have hsame : (((init quickNodes).moment unitCodec quickPair 8).runtimes 1).node.commandsUpTo
      (((init quickNodes).moment unitCodec quickPair 8).runtimes 1).node.core.lastApplied =
      (((init quickNodes).moment unitCodec quickPair 7).runtimes 0).node.commandsUpTo
        (((init quickNodes).moment unitCodec quickPair 7).runtimes 0).node.core.lastApplied ++
        [] := by decide +kernel
  rw [hsame] at hcommands
  rw [hstate, ← List.append_cancel_left hcommands]
  rfl

end RuntimeCluster
end BasisDB.Runtime
