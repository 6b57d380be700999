import BasisDB.RaftMembership
import BasisDB.OrdMap
import BasisDB.CommandRuns

/-! The read index coordinator: reads wait until a quorum has acknowledged a heartbeat round. -/
namespace BasisDB.ReadIndex
open Raft (NodeId)

abbrev ReadId := ℕ

/-- The commit index a read was requested with, and the round it waits for. -/
structure PendingRead where
  readIndex : ℕ
  round : ℕ
  deriving DecidableEq

structure ReadIndexResult where
  id : ReadId
  readIndex : ℕ
  deriving DecidableEq

structure ReadIndexCoordinator where
  voters : List NodeId
  me : NodeId
  nextReadId : ReadId
  currentRound : ℕ
  roundAcks : List NodeId
  pending : OrdMap ReadId PendingRead
  completed : List ReadIndexResult

/-- The calls a coordinator takes. `poll_completed` returns a lazy iterator, of which the
caller takes up to `n` results. -/
inductive Call where
  | requestRead (readIndex : ℕ)
  | beginHeartbeatRound
  | recordAck (sender : NodeId)
  | pollCompleted (n : ℕ)
  | clear
  deriving DecidableEq

/-- What a call returns. -/
inductive Reply where
  | id (id : ReadId)
  | results (results : List ReadIndexResult)
  | dropped (count : ℕ)
  | unit
  deriving DecidableEq

namespace ReadIndexCoordinator

def new (me : NodeId) (voters : List NodeId) : ReadIndexCoordinator where
  voters := voters
  me := me
  nextReadId := 0
  currentRound := 0
  roundAcks := []
  pending := OrdMap.empty
  completed := []

def requestRead (c : ReadIndexCoordinator) (readIndex : ℕ) : ReadIndexCoordinator × ReadId :=
  ({ c with
      nextReadId := c.nextReadId + 1
      pending := c.pending.insert c.nextReadId { readIndex, round := c.currentRound } },
    c.nextReadId)

def quorum (c : ReadIndexCoordinator) : ℕ := c.voters.length / 2 + 1

def toComplete (c : ReadIndexCoordinator) : List ReadIndexResult :=
  (c.pending.toList.filter (fun b => decide (b.2.round ≤ c.currentRound))).map
    (fun b => { id := b.1, readIndex := b.2.readIndex })

/-- The body of the loop in `check_quorum`. -/
def complete (c : ReadIndexCoordinator) (result : ReadIndexResult) : ReadIndexCoordinator :=
  { c with pending := c.pending.remove result.id, completed := c.completed ++ [result] }

def checkQuorum (c : ReadIndexCoordinator) : ReadIndexCoordinator :=
  if c.quorum ≤ c.roundAcks.length then c.toComplete.foldl complete c else c

/-- A round of its own, before `check_quorum`. -/
def openRound (c : ReadIndexCoordinator) : ReadIndexCoordinator :=
  { c with
    currentRound := c.currentRound + 1
    -- the leader counts as an implicit acknowledgment
    roundAcks := [c.me]
    pending := c.pending.mapValues (fun p => { p with round := c.currentRound + 1 }) }

def beginHeartbeatRound (c : ReadIndexCoordinator) : ReadIndexCoordinator :=
  c.openRound.checkQuorum

def recordAck (c : ReadIndexCoordinator) (sender : NodeId) : ReadIndexCoordinator :=
  if !c.roundAcks.contains sender && c.voters.contains sender then
    { c with roundAcks := c.roundAcks ++ [sender] }.checkQuorum
  else c

def pollCompleted (c : ReadIndexCoordinator) (n : ℕ) :
    ReadIndexCoordinator × List ReadIndexResult :=
  ({ c with completed := c.completed.drop n }, c.completed.take n)

def clear (c : ReadIndexCoordinator) : ReadIndexCoordinator × ℕ :=
  ({ c with pending := OrdMap.empty, roundAcks := [] }, c.pending.toList.length)

def apply (c : ReadIndexCoordinator) : Call → ReadIndexCoordinator × Reply
  | .requestRead readIndex => ((c.requestRead readIndex).1, .id (c.requestRead readIndex).2)
  | .beginHeartbeatRound => (c.beginHeartbeatRound, .unit)
  | .recordAck sender => (c.recordAck sender, .unit)
  | .pollCompleted n => ((c.pollCompleted n).1, .results (c.pollCompleted n).2)
  | .clear => (c.clear.1, .dropped c.clear.2)

/-- The coordinator after a call. -/
def after (c : ReadIndexCoordinator) (call : Call) : ReadIndexCoordinator := (c.apply call).1

/-- The results a call adds to the queue of completed reads. -/
def produced (c : ReadIndexCoordinator) (call : Call) : List ReadIndexResult :=
  (c.after call).completed.drop c.completed.length

/-- The acknowledgments with which a call tests for a quorum, if it does. -/
def acksWith (c : ReadIndexCoordinator) : Call → Option (List NodeId)
  | .beginHeartbeatRound => some [c.me]
  | .recordAck sender =>
    if !c.roundAcks.contains sender && c.voters.contains sender then
      some (c.roundAcks ++ [sender])
    else none
  | _ => none

/-- A call that finds a quorum. -/
def Completes (c : ReadIndexCoordinator) (call : Call) : Prop :=
  ∃ acks, c.acksWith call = some acks ∧ c.quorum ≤ acks.length

/-- A read that waits, with the commit index it was requested with. -/
def Waits (c : ReadIndexCoordinator) (id : ReadId) (readIndex : ℕ) : Prop :=
  ∃ round, c.pending.get id = some { readIndex, round }

/-- What holds of every coordinator, whatever the calls: waiting reads have been given out,
and wait for no round to come. -/
structure Formed (c : ReadIndexCoordinator) : Prop where
  below : ∀ id p, c.pending.get id = some p → id < c.nextReadId
  round : ∀ id p, c.pending.get id = some p → p.round ≤ c.currentRound

variable {c : ReadIndexCoordinator} {call : Call} {id : ReadId} {i : ℕ}

theorem new_formed (me : NodeId) (voters : List NodeId) : (new me voters).Formed where
  below := fun _ _ h => by cases h
  round := fun _ _ h => by cases h

/-- What the loop of `check_quorum` leaves: its results are queued and no longer pending. -/
structure Completed (c c' : ReadIndexCoordinator) (results : List ReadIndexResult) : Prop where
  voters : c'.voters = c.voters
  me : c'.me = c.me
  nextReadId : c'.nextReadId = c.nextReadId
  currentRound : c'.currentRound = c.currentRound
  roundAcks : c'.roundAcks = c.roundAcks
  completed : c'.completed = c.completed ++ results
  pending : ∀ id, c'.pending.get id =
    if id ∈ results.map ReadIndexResult.id then none else c.pending.get id

theorem foldl_complete (c : ReadIndexCoordinator) (results : List ReadIndexResult) :
    Completed c (results.foldl complete c) results := by
  induction results generalizing c with
  | nil => exact ⟨rfl, rfl, rfl, rfl, rfl, (List.append_nil _).symm, fun id => rfl⟩
  | cons r rs ih =>
    obtain ⟨hv, hm, hn, hr, ha, hc, hp⟩ := ih (c.complete r)
    refine ⟨hv, hm, hn, hr, ha, ?_, ?_⟩
    · rw [List.foldl_cons, hc, complete, List.append_assoc, List.singleton_append]
    · intro id
      rw [List.foldl_cons, hp, complete, OrdMap.get_remove, List.map_cons]
      by_cases hid : r.id = id
      · simp [hid]
      · simp [hid, Ne.symm hid]

theorem mem_toComplete (h : c.Formed) (r : ReadIndexResult) :
    r ∈ c.toComplete ↔ c.Waits r.id r.readIndex := by
  constructor
  · intro hr
    obtain ⟨b, hb, rfl⟩ := List.mem_map.mp hr
    exact ⟨b.2.round, (OrdMap.get_eq_some_iff _ _ _).mpr (List.mem_filter.mp hb).1⟩
  · rintro ⟨round, hget⟩
    refine List.mem_map.mpr ⟨(r.id, { readIndex := r.readIndex, round }), ?_, rfl⟩
    refine List.mem_filter.mpr ⟨(OrdMap.get_eq_some_iff _ _ _).mp hget, ?_⟩
    exact decide_eq_true (h.round r.id _ hget)

/-- The reads that complete together have different identifiers. -/
theorem toComplete_nodup (c : ReadIndexCoordinator) :
    (c.toComplete.map ReadIndexResult.id).Nodup := by
  have hkeys : (c.toComplete.map ReadIndexResult.id).Pairwise (· < ·) := by
    rw [toComplete, List.map_map, List.pairwise_map]
    exact c.pending.sorted.filter _
  exact hkeys.imp (fun h => ne_of_lt h)

/-- What `check_quorum` does with the reads that wait. -/
theorem checkQuorum_spec (h : c.Formed) :
    if c.quorum ≤ c.roundAcks.length then
      Completed c c.checkQuorum c.toComplete ∧ ∀ id, c.checkQuorum.pending.get id = none
    else c.checkQuorum = c := by
  split_ifs with hq
  · have hdone : Completed c c.checkQuorum c.toComplete := by
      rw [checkQuorum, if_pos hq]
      exact foldl_complete c _
    refine ⟨hdone, ?_⟩
    intro id
    rw [hdone.pending]
    split_ifs with hid
    · rfl
    · cases hget : c.pending.get id with
      | none => rfl
      | some p =>
        have hmem := (mem_toComplete h ⟨id, p.readIndex⟩).mpr ⟨p.round, hget⟩
        exact absurd (List.mem_map_of_mem hmem) hid
  · rw [checkQuorum, if_neg hq]

theorem openRound_get (c : ReadIndexCoordinator) (id : ReadId) :
    c.openRound.pending.get id =
      (c.pending.get id).map (fun p => { p with round := c.currentRound + 1 }) :=
  OrdMap.get_mapValues _ _ _

theorem openRound_waits : c.openRound.Waits id i ↔ c.Waits id i := by
  unfold Waits
  rw [openRound_get]
  cases hget : c.pending.get id with
  | none => simp
  | some p =>
    cases p
    simp

theorem openRound_formed (h : c.Formed) : c.openRound.Formed := by
  refine ⟨?_, ?_⟩
  · intro id p hp
    rw [openRound_get] at hp
    obtain ⟨p₀, hp₀, -⟩ := Option.map_eq_some_iff.mp hp
    exact h.below id p₀ hp₀
  · intro id p hp
    rw [openRound_get] at hp
    obtain ⟨p₀, -, rfl⟩ := Option.map_eq_some_iff.mp hp
    exact le_rfl

theorem acksWith_recordAck {sender : NodeId} {acks : List NodeId} :
    c.acksWith (.recordAck sender) = some acks ↔
      sender ∉ c.roundAcks ∧ sender ∈ c.voters ∧ acks = c.roundAcks ++ [sender] := by
  simp only [acksWith]
  split_ifs with hnew
  · have hmem : sender ∉ c.roundAcks ∧ sender ∈ c.voters := by simpa using hnew
    rw [Option.some.injEq]
    exact ⟨fun h => ⟨hmem.1, hmem.2, h.symm⟩, fun h => h.2.2.symm⟩
  · refine ⟨fun h => absurd h (by simp), ?_⟩
    rintro ⟨hnot, hvoter, -⟩
    exact absurd (by simp [hnot, hvoter]) hnew

/-- The two calls that test for a quorum do so on a coordinator with the same waiting reads. -/
theorem after_checks {acks : List NodeId} (h : c.Formed) (hacks : c.acksWith call = some acks) :
    ∃ c₁ : ReadIndexCoordinator, c.after call = c₁.checkQuorum ∧ c₁.Formed ∧
      c₁.roundAcks = acks ∧ c₁.voters = c.voters ∧ c₁.me = c.me ∧ c₁.nextReadId = c.nextReadId ∧
      c₁.completed = c.completed ∧ ∀ id i, c₁.Waits id i ↔ c.Waits id i := by
  cases call with
  | beginHeartbeatRound =>
    cases hacks
    exact ⟨c.openRound, rfl, openRound_formed h, rfl, rfl, rfl, rfl, rfl,
      fun _ _ => openRound_waits⟩
  | recordAck sender =>
    obtain ⟨hnot, hvoter, rfl⟩ := acksWith_recordAck.mp hacks
    refine ⟨{ c with roundAcks := c.roundAcks ++ [sender] }, ?_, ⟨h.below, h.round⟩, rfl, rfl, rfl,
      rfl, rfl, fun _ _ => Iff.rfl⟩
    simp only [after, apply, recordAck]
    rw [if_pos (by simp [hnot, hvoter])]
  | requestRead _ | pollCompleted _ | clear => cases hacks

/-- An acknowledgment that is not counted changes nothing. -/
theorem after_ignored {sender : NodeId} (hacks : c.acksWith (.recordAck sender) = none) :
    c.after (.recordAck sender) = c := by
  simp only [acksWith] at hacks
  split_ifs at hacks with hnew
  simp only [after, apply, recordAck]
  rw [if_neg hnew]

/-- A call that tests for no quorum completes nothing. -/
theorem after_quiet (hacks : c.acksWith call = none) :
    c.produced call = [] ∧ (call ≠ .clear → (c.after call).roundAcks = c.roundAcks) ∧
    ∀ id i, (c.after call).Waits id i →
      c.Waits id i ∧ call ≠ .clear ∨ call = .requestRead i ∧ id = c.nextReadId := by
  cases call with
  | beginHeartbeatRound => cases hacks
  | recordAck sender =>
    rw [produced, after_ignored hacks, List.drop_length]
    exact ⟨rfl, fun _ => rfl, fun id i hw => Or.inl ⟨hw, by simp⟩⟩
  | requestRead j =>
    refine ⟨List.drop_length, fun _ => rfl, ?_⟩
    rintro id i ⟨round, hget⟩
    simp only [after, apply, requestRead, OrdMap.get_insert] at hget
    split_ifs at hget with hid
    · cases hget
      exact Or.inr ⟨rfl, hid.symm⟩
    · exact Or.inl ⟨⟨round, hget⟩, by simp⟩
  | pollCompleted n =>
    refine ⟨?_, fun _ => rfl, fun id i hw => Or.inl ⟨hw, by simp⟩⟩
    exact List.drop_eq_nil_of_le (by simp [after, apply, pollCompleted])
  | clear =>
    refine ⟨List.drop_length, fun hc => absurd rfl hc, ?_⟩
    rintro id i ⟨round, hget⟩
    cases hget

/-- A call that finds a quorum completes every read that waits, and leaves none waiting. -/
theorem after_completes (h : c.Formed) (hc : c.Completes call) :
    (∀ r, r ∈ c.produced call ↔ c.Waits r.id r.readIndex) ∧
    ((c.produced call).map ReadIndexResult.id).Nodup ∧
    ∀ id i, ¬(c.after call).Waits id i := by
  obtain ⟨acks, hacks, hq⟩ := hc
  obtain ⟨c₁, hafter, hf, ha, hv, -, -, hcomp, hwaits⟩ := after_checks h hacks
  have hspec := checkQuorum_spec hf
  rw [if_pos (by rw [quorum, hv, ha]; exact hq)] at hspec
  obtain ⟨hdone, hnone⟩ := hspec
  have hprod : c.produced call = c₁.toComplete := by
    rw [produced, hafter, hdone.completed, hcomp, List.drop_left]
  rw [hprod]
  refine ⟨?_, toComplete_nodup c₁, ?_⟩
  · intro r
    rw [mem_toComplete hf, hwaits]
  · rintro id i ⟨round, hget⟩
    rw [hafter, hnone] at hget
    cases hget

/-- A call that tests for a quorum in vain completes nothing. -/
theorem after_incomplete {acks : List NodeId} (h : c.Formed) (hacks : c.acksWith call = some acks)
    (hq : ¬c.quorum ≤ acks.length) :
    c.produced call = [] ∧ ∀ id i, (c.after call).Waits id i ↔ c.Waits id i := by
  obtain ⟨c₁, hafter, hf, ha, hv, -, -, hcomp, hwaits⟩ := after_checks h hacks
  have hspec := checkQuorum_spec hf
  rw [if_neg (by rw [quorum, hv, ha]; exact hq)] at hspec
  rw [produced, hafter, hspec, hcomp, List.drop_length]
  exact ⟨rfl, hwaits⟩

theorem after_roundAcks {acks : List NodeId} (h : c.Formed) (hacks : c.acksWith call = some acks) :
    (c.after call).roundAcks = acks := by
  obtain ⟨c₁, hafter, hf, ha, -⟩ := after_checks h hacks
  have hspec := checkQuorum_spec hf
  rw [hafter]
  split_ifs at hspec with hq
  · rw [hspec.1.roundAcks, ha]
  · rw [hspec, ha]

/-- Within a round a call adds at most its sender, if that is a voter. -/
theorem mem_roundAcks_after (h : c.Formed) (hbegin : call ≠ .beginHeartbeatRound)
    (hclear : call ≠ .clear) (v : NodeId) :
    v ∈ (c.after call).roundAcks ↔ v ∈ c.roundAcks ∨ v ∈ c.voters ∧ call = .recordAck v := by
  cases hacks : c.acksWith call with
  | some acks =>
    rw [after_roundAcks h hacks]
    cases call with
    | recordAck sender =>
      obtain ⟨-, hvoter, rfl⟩ := acksWith_recordAck.mp hacks
      rw [List.mem_append, List.mem_singleton, Call.recordAck.injEq]
      refine or_congr_right ⟨?_, fun hv => hv.2.symm⟩
      rintro rfl
      exact ⟨hvoter, rfl⟩
    | beginHeartbeatRound => exact absurd rfl hbegin
    | requestRead _ | pollCompleted _ | clear => cases hacks
  | none =>
    rw [(after_quiet hacks).2.1 hclear, or_iff_left_of_imp]
    rintro ⟨hvoter, rfl⟩
    -- an acknowledgment of a voter that is not counted was counted before
    by_contra hnot
    have hsome := acksWith_recordAck.mpr ⟨hnot, hvoter, rfl⟩
    rw [hacks] at hsome
    cases hsome

/-- Which results a call produces. -/
theorem mem_produced (h : c.Formed) (r : ReadIndexResult) :
    r ∈ c.produced call ↔ c.Completes call ∧ c.Waits r.id r.readIndex := by
  by_cases hc : c.Completes call
  · rw [(after_completes h hc).1 r]
    exact (and_iff_right hc).symm
  · have hnil : c.produced call = [] := by
      cases hacks : c.acksWith call with
      | none => exact (after_quiet hacks).1
      | some acks => exact (after_incomplete h hacks (fun hq => hc ⟨acks, hacks, hq⟩)).1
    rw [hnil]
    exact ⟨fun hr => absurd hr List.not_mem_nil, fun hr => absurd hr.1 hc⟩

/-- A read that waits after a call waited before it, or was requested by it; and the call
neither dropped the reads nor completed them. -/
theorem waits_after (h : c.Formed) (hw : (c.after call).Waits id i) :
    ¬c.Completes call ∧ call ≠ .clear ∧
      (c.Waits id i ∨ call = .requestRead i ∧ id = c.nextReadId) := by
  have hnot : ¬c.Completes call := fun hc => (after_completes h hc).2.2 id i hw
  refine ⟨hnot, ?_⟩
  cases hacks : c.acksWith call with
  | none =>
    rcases (after_quiet hacks).2.2 id i hw with ⟨hw', hne⟩ | hreq
    · exact ⟨hne, Or.inl hw'⟩
    · exact ⟨by rw [hreq.1]; simp, Or.inr hreq⟩
  | some acks =>
    have hkept := (after_incomplete h hacks (fun hq => hnot ⟨acks, hacks, hq⟩)).2 id i
    refine ⟨?_, Or.inl (hkept.mp hw)⟩
    rintro rfl
    cases hacks

/-- What no call changes, and the counter that only requests move. -/
theorem after_fixed (h : c.Formed) (call : Call) :
    (c.after call).voters = c.voters ∧ (c.after call).me = c.me ∧
    c.nextReadId ≤ (c.after call).nextReadId := by
  cases hacks : c.acksWith call with
  | some acks =>
    obtain ⟨c₁, hafter, hf, -, hv, hm, hn, -⟩ := after_checks h hacks
    have hspec := checkQuorum_spec hf
    rw [hafter]
    split_ifs at hspec with hq
    · exact ⟨hspec.1.voters.trans hv, hspec.1.me.trans hm, (hspec.1.nextReadId.trans hn).ge⟩
    · rw [hspec]
      exact ⟨hv, hm, hn.ge⟩
  | none =>
    cases call with
    | beginHeartbeatRound => cases hacks
    | recordAck sender =>
      rw [after_ignored hacks]
      exact ⟨rfl, rfl, le_rfl⟩
    | requestRead j => exact ⟨rfl, rfl, Nat.le_succ _⟩
    | pollCompleted n => exact ⟨rfl, rfl, le_rfl⟩
    | clear => exact ⟨rfl, rfl, le_rfl⟩

theorem checkQuorum_formed (h : c.Formed) : c.checkQuorum.Formed := by
  have hspec := checkQuorum_spec h
  split_ifs at hspec with hq
  · -- nothing is pending any more
    have hnone (id : ReadId) (p : PendingRead) : ¬c.checkQuorum.pending.get id = some p := by
      rw [hspec.2 id]
      simp
    exact ⟨fun id p hp => absurd hp (hnone id p), fun id p hp => absurd hp (hnone id p)⟩
  · rw [hspec]
    exact h

theorem requestRead_formed (h : c.Formed) (j : ℕ) : (c.requestRead j).1.Formed := by
  refine ⟨?_, ?_⟩
  · intro id p hp
    show id < c.nextReadId + 1
    rw [requestRead, OrdMap.get_insert] at hp
    split_ifs at hp with hid
    · exact hid ▸ Nat.lt_succ_self _
    · exact Nat.lt_succ_of_lt (h.below id p hp)
  · intro id p hp
    rw [requestRead, OrdMap.get_insert] at hp
    split_ifs at hp with hid
    · cases hp
      exact le_rfl
    · exact h.round id p hp

theorem after_formed (h : c.Formed) (call : Call) : (c.after call).Formed := by
  cases hacks : c.acksWith call with
  | some acks =>
    obtain ⟨c₁, hafter, hf, -⟩ := after_checks h hacks
    rw [hafter]
    exact checkQuorum_formed hf
  | none =>
    cases call with
    | beginHeartbeatRound => cases hacks
    | recordAck sender =>
      rw [after_ignored hacks]
      exact h
    | requestRead j => exact requestRead_formed h j
    | pollCompleted n => exact ⟨h.below, h.round⟩
    | clear =>
      refine ⟨?_, ?_⟩ <;> intro id p hp <;> cases hp

end ReadIndexCoordinator
end BasisDB.ReadIndex
