import BasisDB.CommandRuns
import BasisDB.RaftLeading

/-! A node whose saves take time: what is on disk lags behind the node, and the notice that a
save is finished may arrive much later, with nothing but a log index in it. -/
namespace BasisDB.Raft
open Leader

/-- The node, the last finished save, the saves under way with the oldest first, and the
highest log index that a finished save has reached. -/
structure DiskRun where
  node : RaftNode
  disk : Persistent
  pending : List Persistent
  reached : ℕ

/-- What can happen to it: an input of the node, which includes the notice, or the end of the
oldest save under way. -/
inductive DiskInput where
  | input (input : Input)
  | written

namespace DiskRun

def start (config : Config) (saved : Persistent) : DiskRun :=
  { node := RaftNode.restore config saved
    disk := saved
    pending := []
    reached := saved.log.lastIndex }

def solo (s : DiskRun) : Solo := { node := s.node, disk := s.disk }

/-- The saves that survive an input: a restart loses those under way. -/
def underWay (s : DiskRun) : Input → List Persistent
  | .restart => []
  | _ => s.pending

/-- A step that asks for it starts a save of the state it leaves. -/
def step (s : DiskRun) : DiskInput → DiskRun × Effects
  | .input input =>
    ({ s with
       node := (s.solo.handle input).1
       pending := s.underWay input ++
         if (s.solo.handle input).2.persist then [(s.solo.handle input).1.persistent] else [] },
      (s.solo.handle input).2)
  | .written =>
    match s.pending with
    | [] => (s, Effects.none)
    | saved :: rest =>
      ({ s with
         disk := saved
         pending := rest
         reached := max s.reached saved.log.lastIndex }, Effects.none)

/-- A log holds what another one has at the indices up to `k`. -/
def HoldsUpTo (k : ℕ) (log saved : Log) : Prop :=
  ∀ idx, idx ≤ k → ∀ e, log.get idx = some e → saved.get idx = some e

/-- The own progress that a leader counts. -/
def counted (s : DiskRun) : Option ℕ :=
  match s.node.role with
  | .leader l => some (l.matchOf s.node.id)
  | _ => none

/-- What a leader counts as replicated by itself is on disk. -/
def Durable (s : DiskRun) : Prop :=
  ∀ l, s.node.role = .leader l → HoldsUpTo (l.matchOf s.node.id) s.node.log s.disk.log

/-- A notice that a leader counts is about entries that it has, and that are in every save,
finished or under way. -/
def Covers (s : DiskRun) : DiskInput → Prop
  | .input (.event (.diskWriteComplete index)) => ∀ l, s.node.role = .leader l →
    l.matchOf s.node.id < index →
      index ≤ s.node.log.snapshotIndex + s.node.log.entries.length ∧
      ∀ saved ∈ s.disk :: s.pending, HoldsUpTo index s.node.log saved.log
  | _ => True

/-- Messages come from other nodes. -/
def FromPeer (s : DiskRun) : DiskInput → Prop
  | .input (.event (.message msg)) => msg.sender ≠ s.node.id
  | _ => True

/-- The invariant: what is counted is in the log, on disk and in every save under way. -/
structure Counted (s : DiskRun) : Prop where
  parallel : s.node.core.config.parallelDiskWrite = true
  within : ∀ l, s.node.role = .leader l →
    l.matchOf s.node.id ≤ s.node.log.snapshotIndex + s.node.log.entries.length
  held : ∀ l, s.node.role = .leader l → ∀ saved ∈ s.disk :: s.pending,
    HoldsUpTo (l.matchOf s.node.id) s.node.log saved.log

theorem Counted.durable {s : DiskRun} (h : s.Counted) : s.Durable :=
  fun l hl => h.held l hl s.disk List.mem_cons_self

end DiskRun

section Growth
variable {log log' : Log} {k : ℕ} {saved : Log}
  (h : ∃ es, log' = { log with entries := log.entries ++ es })
include h

theorem Log.get_of_extends {idx : ℕ} (hidx : idx ≤ log.snapshotIndex + log.entries.length) :
    log'.get idx = log.get idx := by
  obtain ⟨es, hes⟩ := h
  have hsnap : log'.snapshotIndex = log.snapshotIndex := by rw [hes]
  have hentries : log'.entries = log.entries ++ es := by rw [hes]
  by_cases hle : idx ≤ log.snapshotIndex
  · have hlow : idx = 0 ∨ idx ≤ log.snapshotIndex := Or.inr hle
    rw [Log.get, Log.get, hsnap, if_pos hlow, if_pos hlow]
  · have habove : log.snapshotIndex < idx := by omega
    rw [Log.get_above habove, Log.get_above (hsnap ▸ habove), hsnap, hentries]
    exact List.getElem?_append_left (by omega)

/-- What a save holds of the log, it holds of the grown log. -/
theorem holdsUpTo_of_extends (hk : k ≤ log.snapshotIndex + log.entries.length)
    (hheld : DiskRun.HoldsUpTo k log saved) : DiskRun.HoldsUpTo k log' saved := by
  intro idx hidx e he
  rw [Log.get_of_extends h (by omega)] at he
  exact hheld idx hidx e he

theorem reach_of_extends : log.snapshotIndex + log.entries.length ≤
    log'.snapshotIndex + log'.entries.length := by
  obtain ⟨es, hes⟩ := h
  rw [hes]
  simp

end Growth

namespace DiskRun
variable {s : DiskRun}

theorem holdsUpTo_zero (log saved : Log) : HoldsUpTo 0 log saved := by
  intro idx hidx e he
  have hlow : idx = 0 ∨ idx ≤ log.snapshotIndex := Or.inl (Nat.le_zero.mp hidx)
  simp [Log.get, hlow] at he

/-- What the leader has counted, after an input: in the log, and in the saves there were. -/
def StillCounted (s : DiskRun) (l' : Leader) (core' : Core) : Prop :=
  l'.matchOf s.node.id ≤ core'.log.snapshotIndex + core'.log.entries.length ∧
    ∀ saved ∈ s.disk :: s.pending, HoldsUpTo (l'.matchOf s.node.id) core'.log saved.log

/-- A leader whose own progress is unchanged. -/
theorem Counted.still (h : s.Counted) {l l' : Leader} {core' : Core} (hl : s.node.role = .leader l)
    (hgrows : Grows s.node.id l s.node.core l' core') : s.StillCounted l' core' := by
  have hwithin := h.within l hl
  unfold StillCounted
  rw [hgrows.matched]
  refine ⟨hwithin.trans (reach_of_extends hgrows.log), ?_⟩
  intro saved hsaved
  exact holdsUpTo_of_extends hgrows.log hwithin (h.held l hl saved hsaved)

/-- A notice: counted entries are covered, and nothing else has changed. -/
theorem Counted.notice (h : s.Counted) {l : Leader} (hl : s.node.role = .leader l) {index : ℕ}
    (hcovers : s.Covers (.input (.event (.diskWriteComplete index)))) :
    s.StillCounted (l.handleDiskWriteComplete s.node.core index).role
      (l.handleDiskWriteComplete s.node.core index).core := by
  have hr : Reported s.node.id s.node.core := Or.inl h.parallel
  unfold handleDiskWriteComplete
  by_cases hlt : l.matchOf s.node.core.id < index
  · rw [if_pos hlt]
    obtain ⟨hwithin, hheld⟩ := hcovers l hl hlt
    have hgrows := commitStep_grows hr { l with matchIndex := l.matchIndex.insert s.node.id index }
    have hmatch := hgrows.matched.trans (matchOf_insert_self l s.node.id index)
    unfold StillCounted
    refine ⟨?_, ?_⟩
    · exact (le_of_eq hmatch).trans (hwithin.trans (reach_of_extends hgrows.log))
    · intro saved hsaved idx hidx
      exact holdsUpTo_of_extends hgrows.log hwithin (hheld saved hsaved) idx
        (hidx.trans (le_of_eq hmatch))
  · rw [if_neg hlt]
    exact h.still hl (Grows.refl _ l _)

theorem Counted.handle (h : s.Counted) {input : Input} (hpeer : s.FromPeer (.input input))
    (hcovers : s.Covers (.input input)) {l' : Leader}
    (hl' : (s.solo.handle input).1.role = .leader l') :
    s.StillCounted l' (s.solo.handle input).1.core := by
  have hr : Reported s.node.id s.node.core := Or.inl h.parallel
  by_cases hlead : ∃ l, s.node.role = .leader l
  · obtain ⟨l, hl⟩ := hlead
    by_cases hnotice : ∃ index, input = .event (.diskWriteComplete index)
    · obtain ⟨index, rfl⟩ := hnotice
      obtain ⟨hrole, hcore⟩ := Solo.stepEvent_leads hl hl'
      change s.StillCounted l' (s.node.stepEvent (.diskWriteComplete index)).1.core
      rw [hrole, hcore]
      exact h.notice hl hcovers
    · refine h.still hl (Solo.handle_grows (s := s.solo) hl hl' hr ?_ ?_)
      · rintro msg rfl
        exact Or.inl hpeer
      · exact fun index he => absurd ⟨index, he⟩ hnotice
  · -- a new leader has counted nothing yet
    have hn : ∀ l, s.node.role ≠ .leader l := fun l hl => hlead ⟨l, hl⟩
    obtain ⟨event, rfl⟩ := Solo.handle_elects (s := s.solo) hn hl'
    have hnew := RaftNode.stepEvent_elects hn hl'
    have hparallel : (s.node.stepEvent event).1.core.config.parallelDiskWrite = true := by
      have hconfig : (s.node.stepEvent event).1.core.config = s.node.core.config :=
        s.solo.handle_config (.event event)
      rw [hconfig]
      exact h.parallel
    have hzero : l'.matchOf s.node.id = 0 := by
      rw [hnew]
      exact Leader.new_matchOf (Or.inl hparallel)
    unfold StillCounted
    rw [hzero]
    exact ⟨Nat.zero_le _, fun saved _ => holdsUpTo_zero _ saved.log⟩

theorem Counted.step (h : s.Counted) {input : DiskInput} (hpeer : s.FromPeer input)
    (hcovers : s.Covers input) : (s.step input).1.Counted := by
  cases input with
  | written =>
    unfold DiskRun.step
    cases hpending : s.pending with
    | nil => exact h
    | cons saved rest =>
      refine ⟨h.parallel, h.within, ?_⟩
      intro l hl x hx
      have hmem : x ∈ s.disk :: s.pending := by
        rw [hpending]
        exact List.mem_cons_of_mem _ hx
      exact h.held l hl x hmem
  | input input =>
    have hconfig := s.solo.handle_config input
    have hid : (s.solo.handle input).1.id = s.node.id := congrArg Config.id hconfig
    refine ⟨?_, ?_, ?_⟩
    · show (s.solo.handle input).1.core.config.parallelDiskWrite = true
      rw [hconfig]
      exact h.parallel
    · intro l' hl'
      show l'.matchOf (s.solo.handle input).1.id ≤ _
      rw [hid]
      exact (h.handle hpeer hcovers hl').1
    · intro l' hl' saved hsaved
      show HoldsUpTo (l'.matchOf (s.solo.handle input).1.id) (s.solo.handle input).1.core.log _
      rw [hid]
      have hheld := (h.handle hpeer hcovers hl').2
      have hcases : saved ∈ s.disk :: s.pending ∨
          saved = (s.solo.handle input).1.persistent := by
        rcases List.mem_cons.mp hsaved with hdisk | hlater
        · exact Or.inl (hdisk ▸ List.mem_cons_self)
        rcases List.mem_append.mp hlater with hold | hnew
        · left
          cases input with
          | restart => cases hold
          | _ => exact List.mem_cons_of_mem _ hold
        · right
          split_ifs at hnew
          · exact List.mem_singleton.mp hnew
          · cases hnew
      rcases hcases with hold | hnew
      · exact hheld saved hold
      · -- the save that this input starts is of the log itself
        rw [hnew]
        exact fun idx _ e he => he

theorem start_counted {config : Config} (hparallel : config.parallelDiskWrite = true)
    (saved : Persistent) : (start config saved).Counted where
  parallel := hparallel
  within := fun l hl => by cases hl
  held := fun l hl => by cases hl

/-- The state after the first `k` inputs. -/
def moment (s : DiskRun) (inputs : List DiskInput) (k : ℕ) : DiskRun :=
  CommandRuns.exec step s (inputs.take k)

/-- How many saves the inputs from position `i` up to position `k` have begun. -/
def begun (s : DiskRun) (inputs : List DiskInput) (i k : ℕ) : ℕ :=
  ((CommandRuns.results step s (inputs.take k)).drop i).countP Effects.persist

/-- The node has led since the input at some position `i`, which began a save of a log that
reaches `index`, and that save is finished: no more are under way than were begun after it. -/
def SavedSince (s : DiskRun) (inputs : List DiskInput) (k index : ℕ) : Prop :=
  ∃ i < k, (∀ m, i < m → m ≤ k → ∃ l, (s.moment inputs m).node.role = .leader l) ∧
    (∃ input ∈ inputs[i]?, ((s.moment inputs i).step input).2.persist = true) ∧
    index ≤ (s.moment inputs (i + 1)).node.log.snapshotIndex +
      (s.moment inputs (i + 1)).node.log.entries.length ∧
    (s.moment inputs k).pending.length ≤ s.begun inputs (i + 1) k

section Saves
variable {inputs : List DiskInput} {i k index : ℕ}

theorem moment_succ {input : DiskInput} (h : inputs[k]? = some input) :
    s.moment inputs (k + 1) = ((s.moment inputs k).step input).1 :=
  CommandRuns.exec_take_succ step h

theorem begun_self : s.begun inputs i i = 0 := by
  have hnone : (CommandRuns.results step s (inputs.take i)).drop i = [] :=
    List.drop_eq_nil_of_le (by rw [CommandRuns.length_results]; exact List.length_take_le _ _)
  rw [begun, hnone]
  rfl

theorem begun_succ {input : DiskInput} (hik : i ≤ k) (h : inputs[k]? = some input) :
    s.begun inputs i (k + 1) = s.begun inputs i k +
      if ((s.moment inputs k).step input).2.persist then 1 else 0 := by
  have hk := (List.getElem?_eq_some_iff.mp h).1
  have hlen : i ≤ (CommandRuns.results step s (inputs.take k)).length := by
    rw [CommandRuns.length_results, List.length_take_of_le hk.le]
    exact hik
  rw [begun, List.take_add_one, h, CommandRuns.results_append, List.drop_append_of_le_length hlen,
    List.countP_append]
  congr 1
  exact List.countP_singleton

/-- The saves that were begun since the input at `i`, and those that were there before it: the
last finished one and those under way are the latest of them, and the later ones have all of the
log up to `index`. -/
structure Queue (s : DiskRun) (older newer : List Persistent) (index : ℕ) : Prop where
  latest : s.disk :: s.pending <:+ older ++ newer
  held : ∀ saved ∈ newer, HoldsUpTo index s.node.log saved.log
  within : index ≤ s.node.log.snapshotIndex + s.node.log.entries.length

theorem Queue.step {older newer : List Persistent} (h : s.Queue older newer index)
    (input : DiskInput) {l l' : Leader} (hl : s.node.role = .leader l)
    (hl' : (s.step input).1.node.role = .leader l') :
    ∃ newer', (s.step input).1.Queue older newer' index ∧
      newer'.length = newer.length + if (s.step input).2.persist then 1 else 0 := by
  cases input with
  | written =>
    unfold DiskRun.step
    cases hpending : s.pending with
    | nil => exact ⟨newer, h, rfl⟩
    | cons saved rest =>
      have hlatest := h.latest
      rw [hpending] at hlatest
      exact ⟨newer, ⟨(List.suffix_cons _ _).trans hlatest, h.held, h.within⟩, rfl⟩
  | input input =>
    obtain ⟨-, hlog⟩ := Solo.handle_extends (s := s.solo) hl hl'
    have hpending : s.underWay input = s.pending := by
      cases input with
      | restart => cases hl'
      | _ => rfl
    refine ⟨newer ++ if (s.solo.handle input).2.persist then
      [(s.solo.handle input).1.persistent] else [], ⟨?_, ?_, ?_⟩, ?_⟩
    · obtain ⟨earlier, hearlier⟩ := h.latest
      refine ⟨earlier, ?_⟩
      change earlier ++ s.disk :: (s.underWay input ++ _) = _
      rw [hpending, ← List.cons_append, ← List.append_assoc, hearlier, List.append_assoc]
    · intro saved hsaved
      rcases List.mem_append.mp hsaved with hold | hnew
      · exact holdsUpTo_of_extends hlog h.within (h.held saved hold)
      · -- a save that begins now is of the log itself
        split_ifs at hnew
        · rw [List.mem_singleton.mp hnew]
          exact fun idx _ e he => he
        · cases hnew
    · exact h.within.trans (reach_of_extends hlog)
    · rw [List.length_append]
      congr 1
      change _ = if (s.solo.handle input).2.persist then 1 else 0
      split_ifs <;> rfl

/-- The save that an input begins comes last. -/
theorem exists_queue {input : DiskInput} (hpersist : (s.step input).2.persist = true)
    (hwithin : index ≤ (s.step input).1.node.log.snapshotIndex +
      (s.step input).1.node.log.entries.length) :
    ∃ older saved, (s.step input).1.Queue older [saved] index := by
  cases input with
  | written =>
    unfold DiskRun.step at hpersist
    cases hpending : s.pending with
    | nil =>
      rw [hpending] at hpersist
      cases hpersist
    | cons saved rest =>
      rw [hpending] at hpersist
      cases hpersist
  | input input =>
    have hbegins : (s.solo.handle input).2.persist = true := hpersist
    refine ⟨s.disk :: s.underWay input, (s.solo.handle input).1.persistent, ⟨?_, ?_, hwithin⟩⟩
    · simp only [DiskRun.step, hbegins, if_true]
      exact List.suffix_rfl
    · intro saved hsaved
      rw [List.mem_singleton.mp hsaved]
      exact fun idx _ e he => he

end Saves

/-- A notice about a save that was begun since the election, and is finished, is covered. -/
theorem SavedSince.covers {inputs : List DiskInput} {k index : ℕ}
    (h : s.SavedSince inputs k index) (hk : k ≤ inputs.length) :
    index ≤ (s.moment inputs k).node.log.snapshotIndex +
        (s.moment inputs k).node.log.entries.length ∧
      ∀ saved ∈ (s.moment inputs k).disk :: (s.moment inputs k).pending,
        HoldsUpTo index (s.moment inputs k).node.log saved.log := by
  obtain ⟨i, hik, hleads, ⟨input, hinput, hpersist⟩, hwithin, hfew⟩ := h
  rw [moment_succ hinput] at hwithin
  obtain ⟨older, first, hfirst⟩ := exists_queue hpersist hwithin
  -- the queue from there on, as long as the node leads
  have hqueue (m : ℕ) (him : i + 1 ≤ m) (hmk : m ≤ k) : ∃ newer,
      (s.moment inputs m).Queue older newer index ∧
        newer.length = s.begun inputs (i + 1) m + 1 := by
    induction m, him using Nat.le_induction with
    | base =>
      rw [moment_succ hinput, begun_self]
      exact ⟨[first], hfirst, rfl⟩
    | succ m him ih =>
      obtain ⟨newer, hnewer, hlen⟩ := ih (by omega)
      have hm : inputs[m]? = some inputs[m] := List.getElem?_eq_getElem (by omega)
      obtain ⟨l, hl⟩ := hleads m him (by omega)
      obtain ⟨l', hl'⟩ := hleads (m + 1) (by omega) hmk
      rw [moment_succ hm] at hl' ⊢
      obtain ⟨newer', hnewer', hlen'⟩ := hnewer.step inputs[m] hl hl'
      refine ⟨newer', hnewer', ?_⟩
      rw [begun_succ him hm]
      omega
  obtain ⟨newer, hnewer, hlen⟩ := hqueue k hik le_rfl
  -- so few saves are under way that none of the older ones is left
  have hlatest : (s.moment inputs k).disk :: (s.moment inputs k).pending <:+ newer := by
    refine List.suffix_of_suffix_length_le hnewer.latest (List.suffix_append older newer) ?_
    rw [List.length_cons, hlen]
    omega
  exact ⟨hnewer.within, fun saved hsaved => hnewer.held saved (hlatest.subset hsaved)⟩

/-- The invariant along a run. -/
theorem counted_moment {config : Config} (hparallel : config.parallelDiskWrite = true)
    (saved : Persistent) {inputs : List DiskInput}
    (hpeer : ∀ (k : ℕ) (input : DiskInput), inputs[k]? = some input →
      ((start config saved).moment inputs k).FromPeer input)
    (hcovers : ∀ (k : ℕ) (input : DiskInput), inputs[k]? = some input →
      ((start config saved).moment inputs k).Covers input) (k : ℕ) :
    ((start config saved).moment inputs k).Counted := by
  refine CommandRuns.exec_between step (P := Counted) (Nat.zero_le k) ?_
    (start_counted hparallel saved)
  intro j input _ _ hinput hcounted
  exact hcounted.step (hpeer j input hinput) (hcovers j input hinput)

/-- What the I/O layer has to do: tell a leader only of saves that it began as leader. -/
theorem durable_of_savedSince {config : Config} (hparallel : config.parallelDiskWrite = true)
    (saved : Persistent) {inputs : List DiskInput}
    (hpeer : ∀ (k : ℕ) (input : DiskInput), inputs[k]? = some input →
      ((start config saved).moment inputs k).FromPeer input)
    (hnotices : ∀ k index l, inputs[k]? = some (.input (.event (.diskWriteComplete index))) →
      ((start config saved).moment inputs k).node.role = .leader l →
      (start config saved).SavedSince inputs k index) (k : ℕ) :
    ((start config saved).moment inputs k).Durable := by
  refine (counted_moment hparallel saved hpeer (fun k input hinput => ?_) k).durable
  have hk := (List.getElem?_eq_some_iff.mp hinput).1
  unfold Covers
  split
  · rename_i index
    intro l hl _
    exact (hnotices k index l hinput hl).covers hk.le
  · trivial

end DiskRun

/-- In every run in which the notices that a leader counts are about entries that are in its
log and in every save, what the leader counts as replicated by itself is on disk. -/
theorem parallel_disk_write_durable (config : Config) (hparallel : config.parallelDiskWrite = true)
    (saved : Persistent) (inputs : List DiskInput)
    (hpeer : ∀ (k : ℕ) (input : DiskInput), inputs[k]? = some input →
      (CommandRuns.exec DiskRun.step (.start config saved) (inputs.take k)).FromPeer input)
    (hcovers : ∀ (k : ℕ) (input : DiskInput), inputs[k]? = some input →
      (CommandRuns.exec DiskRun.step (.start config saved) (inputs.take k)).Covers input) (k : ℕ) :
    (CommandRuns.exec DiskRun.step (.start config saved) (inputs.take k)).Durable :=
  (DiskRun.counted_moment hparallel saved hpeer hcovers k).durable

/-- A message of another node to node 0. -/
def fromNode (sender term : ℕ) (payload : Payload) : DiskInput :=
  .input (.event (.message { sender := sender, receiver := 0, term := term, payload := payload }))

/-- The entry that another leader puts in place of the first one. -/
def replacing : Payload :=
  .appendRequest
    { prevLogIndex := 0
      prevLogTerm := 0
      entries := [{ term := 2, index := 1, payload := .command ⟨[9]⟩ }]
      leaderCommit := 0 }

/-- Node 0 leads term 1 and saves two entries, follows the leader of term 2, who replaces
them by one, and leads term 3 with a second entry of its own that is not saved yet. Only then
the notice of the first save arrives. -/
def delayedNotice : List DiskInput :=
  [fromNode 1 0 .timeoutNow, fromNode 1 1 (.voteResponse { granted := true }),
    .input (.propose ⟨[1]⟩), .input (.propose ⟨[2]⟩), .written, .written, .written,
    fromNode 1 2 replacing, fromNode 1 2 replacing, .written, .written,
    fromNode 1 2 .timeoutNow, fromNode 2 3 (.voteResponse { granted := true }), .written,
    .input (.propose ⟨[3]⟩), .input (.event (.diskWriteComplete 2))]

/-- The first node of three, with nothing saved. -/
def firstOfThree : DiskRun :=
  .start (Config.new 0)
    { term := 0, votedFor := none, log := Log.empty, bootstrapConfig := .ofVoters [0, 1, 2] }

/-- A notice of a save that reached index 2 makes the leader count an entry of term 3 at index
2 that no save has. -/
theorem delayed_notice_counts_unsaved :
    (CommandRuns.exec DiskRun.step firstOfThree (delayedNotice.take 15)).reached = 2 ∧
    (CommandRuns.exec DiskRun.step firstOfThree delayedNotice).counted = some 2 ∧
    ((CommandRuns.exec DiskRun.step firstOfThree delayedNotice).node.log.get 2).map Entry.term =
      some 3 ∧
    (CommandRuns.exec DiskRun.step firstOfThree delayedNotice).disk.log.get 2 = none := by
  refine ⟨?_, ?_, ?_, ?_⟩
  all_goals decide +kernel

/-- The same node leads, saves one entry and is told so. -/
def promptNotice : List DiskInput :=
  [fromNode 1 0 .timeoutNow, fromNode 1 1 (.voteResponse { granted := true }),
    .input (.propose ⟨[1]⟩), .written, .written, .input (.event (.diskWriteComplete 1))]

theorem parallel_disk_write_durable_promptNotice :
    (CommandRuns.exec DiskRun.step firstOfThree (promptNotice.take 6)).counted = some 1 ∧
    (CommandRuns.exec DiskRun.step firstOfThree (promptNotice.take 6)).Durable := by
  refine ⟨by decide +kernel, parallel_disk_write_durable (Config.new 0) rfl
    { term := 0, votedFor := none, log := Log.empty, bootstrapConfig := .ofVoters [0, 1, 2] }
    promptNotice ?_ ?_ 6⟩
  · intro k input hinput
    rcases k with _ | _ | _ | _ | _ | _ | k
    all_goals cases hinput
    · exact (by decide +kernel : (1 : ℕ) ≠ 0)
    · exact (by decide +kernel : (1 : ℕ) ≠ 0)
    all_goals trivial
  · intro k input hinput
    rcases k with _ | _ | _ | _ | _ | _ | k
    -- the first five inputs are no notices
    iterate 5
      · cases hinput
        trivial
    all_goals cases hinput
    · intro l _ _
      refine ⟨by decide +kernel, ?_⟩
      intro saved hsaved
      -- nothing is under way, and the disk has the log
      have hdisk : (CommandRuns.exec DiskRun.step firstOfThree (promptNotice.take 5)).pending = [] ∧
          (CommandRuns.exec DiskRun.step firstOfThree (promptNotice.take 5)).disk.log =
            (CommandRuns.exec DiskRun.step firstOfThree (promptNotice.take 5)).node.log :=
        ⟨by decide +kernel, by decide +kernel⟩
      change saved ∈ (CommandRuns.exec DiskRun.step firstOfThree (promptNotice.take 5)).disk ::
        (CommandRuns.exec DiskRun.step firstOfThree (promptNotice.take 5)).pending at hsaved
      rw [hdisk.1] at hsaved
      rw [List.mem_singleton.mp hsaved]
      intro idx _ e he
      rw [hdisk.2]
      exact he

end BasisDB.Raft
