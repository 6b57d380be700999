import BasisDB.RaftCompactedLog

/-! Append requests cut from one leader's log, in any order and with repetition: what they do
to the part of the log that agrees with the leader, and which commits they verify. -/
namespace BasisDB.Raft
open ReplicatedLog

/-- The length of the longest common beginning of two lists. -/
def commonPrefix {α : Type} [DecidableEq α] : List α → List α → ℕ
  | a :: as, b :: bs => if a = b then commonPrefix as bs + 1 else 0
  | _, _ => 0

theorem le_commonPrefix_iff {α : Type} [DecidableEq α] (n : ℕ) (as bs : List α) :
    n ≤ commonPrefix as bs ↔ n ≤ bs.length ∧ bs.take n <+: as := by
  induction n generalizing as bs with
  | zero => simp
  | succ n ih =>
    cases as with
    | nil => cases bs <;> simp [commonPrefix]
    | cons a as =>
      cases bs with
      | nil => simp [commonPrefix]
      | cons b bs =>
        by_cases hab : a = b
        · simp [commonPrefix, hab, ih]
        · simp [commonPrefix, hab, Ne.symm hab]

theorem Log.eq_of_fields {log log' : Log} (h1 : log.entries = log'.entries)
    (h2 : log.snapshotIndex = log'.snapshotIndex) (h3 : log.snapshotTerm = log'.snapshotTerm)
    (h4 : log.snapshotConfig = log'.snapshotConfig) : log = log' := by
  cases log
  cases log'
  cases h1
  cases h2
  cases h3
  cases h4
  rfl

/-- Log matching between a log and the leader's entries, over a compacted part that agrees. -/
structure Log.Matches (log : Log) (L : List Entry) : Prop where
  numbered : Numbered 0 L
  compacted : log.CompactedFrom L
  matching : Follower.Matching L (log.whole L)

/-- A request whose entries, and the term before them, are those of `L`. -/
structure AppendRequest.CutFrom (req : AppendRequest) (L : List Entry) : Prop where
  prevLogTerm : req.prevLogTerm = termOf L req.prevLogIndex
  entries : req.entries <+: L.drop req.prevLogIndex

namespace Follower
variable {log : Log} {L : List Entry} {req : AppendRequest}

theorem take_append_entries (hreq : req.CutFrom L) :
    L.take req.prevLogIndex ++ req.entries = L.take (req.prevLogIndex + req.entries.length) := by
  rw [List.take_add, ← List.prefix_iff_eq_take.mp hreq.entries]

theorem reach_le (hreq : req.CutFrom L) (hprev : req.prevLogIndex ≤ L.length) :
    req.prevLogIndex + req.entries.length ≤ L.length := by
  have := hreq.entries.length_le
  rw [List.length_drop] at this
  omega

/-- What the consistency check has verified. -/
theorem agrees_of_accepts (h : log.Matches L) (hreq : req.CutFrom L)
    (hprev : req.prevLogIndex ≤ L.length) (hacc : accepts log req = true) :
    L.take req.prevLogIndex <+: log.whole L := by
  rcases Nat.eq_zero_or_pos req.prevLogIndex with hzero | hpos
  · simp [hzero]
  have hterm : log.termAt req.prevLogIndex = termOf L req.prevLogIndex := by
    rw [← hreq.prevLogTerm]
    simpa [accepts, hpos] using hacc
  by_cases hle : log.snapshotIndex ≤ req.prevLogIndex
  · rw [h.compacted.termAt_of_le hle] at hterm
    exact h.matching.take_isPrefix h.numbered hprev hterm
  · -- below the snapshot the check cannot succeed, but the entries there agree anyway
    have hsplit : L.take req.prevLogIndex <+: L.take log.snapshotIndex :=
      List.take_prefix_take_left (by omega)
    exact hsplit.trans (Log.CompactedFrom.take_isPrefix log L)

/-- An accepted request: a log that holds its entries stays, and any other one ends with them. -/
theorem logAfter_accepted (h : log.Matches L) (hreq : req.CutFrom L)
    (hprev : req.prevLogIndex ≤ L.length) (hacc : accepts log req = true) :
    (logAfter log req = log ∧
      L.take (req.prevLogIndex + req.entries.length) <+: log.whole L) ∨
    ((logAfter log req).CompactedFrom L ∧
      (logAfter log req).whole L = L.take (req.prevLogIndex + req.entries.length) ∧
      ¬L.take (req.prevLogIndex + req.entries.length) <+: log.whole L) := by
  have hagree := agrees_of_accepts h hreq hprev hacc
  have hlen : (L.take req.prevLogIndex).length = req.prevLogIndex := by
    rw [List.length_take]
    omega
  have hreach : req.prevLogIndex ≤ log.lastIndex := by
    rw [h.compacted.lastIndex_eq, ← hlen]
    exact hagree.length_le
  have hafter : logAfter log req = (req.entries.foldl appendEntry (log, false)).1 := by
    rw [logAfter, if_pos hacc]
    rfl
  obtain ⟨hcompacted, hunc⟩ := appendEntries_uncompacted h.numbered hreq.entries h.compacted hreach
    false false
  have hnum : Numbered (L.take req.prevLogIndex).length req.entries := by
    rw [hlen]
    exact (numbered_drop h.numbered hprev).of_isPrefix hreq.entries
  have hmatch : Matching (L.take req.prevLogIndex ++ req.entries) (log.uncompacted L).entries := by
    rw [take_append_entries hreq]
    exact h.matching.of_isPrefix (List.take_prefix _ _) List.prefix_rfl
  have hloop := appendEntries_eq (h.compacted.plain h.numbered) hagree hnum hmatch false
  rw [take_append_entries hreq, ← hunc, ← hafter] at hloop
  rw [← hafter] at hcompacted
  rcases hloop with ⟨hsame, hholds⟩ | ⟨hnew, hlacks⟩
  · left
    refine ⟨?_, hholds⟩
    -- equal whole logs over one snapshot
    obtain ⟨hindex, hterm, hconfig⟩ := appendEntries_snapshot (log, false) req.entries
    rw [← hafter] at hindex hterm hconfig
    have hentries : (logAfter log req).entries = log.entries := by
      have : (logAfter log req).whole L = log.whole L := hsame
      rw [Log.whole, Log.whole, hindex] at this
      exact List.append_cancel_left this
    exact Log.eq_of_fields hentries hindex hterm hconfig
  · exact Or.inr ⟨hcompacted, hnew, hlacks⟩

theorem logAfter_rejected (hacc : accepts log req = false) : logAfter log req = log := by
  rw [logAfter, hacc]
  rfl

theorem logAfter_matches (h : log.Matches L) (hreq : req.CutFrom L)
    (hprev : req.prevLogIndex ≤ L.length) : (logAfter log req).Matches L := by
  cases hacc : accepts log req with
  | false =>
    rw [logAfter_rejected hacc]
    exact h
  | true =>
    rcases logAfter_accepted h hreq hprev hacc with ⟨hsame, _⟩ | ⟨hcompacted, hnew, _⟩
    · rw [hsame]
      exact h
    · refine ⟨h.numbered, hcompacted, ?_⟩
      rw [hnew]
      exact matching_take _

/-- What agrees with the leader stays. -/
theorem logAfter_keeps_agreement (h : log.Matches L) (hreq : req.CutFrom L)
    (hprev : req.prevLogIndex ≤ L.length) {n : ℕ} (hn : L.take n <+: log.whole L) :
    L.take n <+: (logAfter log req).whole L := by
  cases hacc : accepts log req with
  | false =>
    rw [logAfter_rejected hacc]
    exact hn
  | true =>
    rcases logAfter_accepted h hreq hprev hacc with ⟨hsame, _⟩ | ⟨_, hnew, hlacks⟩
    · rw [hsame]
      exact hn
    · rw [hnew]
      apply List.take_prefix_take_left
      by_contra hlt
      have hshort : L.take (req.prevLogIndex + req.entries.length) <+: L.take n :=
        List.take_prefix_take_left (by omega)
      exact hlacks (hshort.trans hn)

theorem logAfter_reaches (h : log.Matches L) (hreq : req.CutFrom L)
    (hprev : req.prevLogIndex ≤ L.length) (hacc : accepts log req = true) :
    L.take (req.prevLogIndex + req.entries.length) <+: (logAfter log req).whole L := by
  rcases logAfter_accepted h hreq hprev hacc with ⟨hsame, hholds⟩ | ⟨_, hnew, _⟩
  · rw [hsame]
    exact hholds
  · rw [hnew]

theorem logAfter_again (h : log.Matches L) (hreq : req.CutFrom L)
    (hprev : req.prevLogIndex ≤ L.length) (hacc : accepts log req = true) :
    logAfter (logAfter log req) req = logAfter log req := by
  have hreached := logAfter_reaches h hreq hprev hacc
  cases hagain : accepts (logAfter log req) req with
  | false => exact logAfter_rejected hagain
  | true =>
    rcases logAfter_accepted (logAfter_matches h hreq hprev) hreq hprev hagain with
      ⟨hsame, _⟩ | ⟨_, _, hlacks⟩
    · exact hsame
    · exact absurd hreached hlacks

/-- A follower that handles one request after the other. -/
def hears (sender : NodeId) (reqs : ℕ → AppendRequest) (f : Follower) (core : Core) :
    ℕ → Follower × Core
  | 0 => (f, core)
  | k + 1 =>
    let (f', core') := hears sender reqs f core k
    let s := f'.handleAppendRequest core' sender (reqs k)
    (s.role, s.core)

theorem hears_succ_log (sender : NodeId) (reqs : ℕ → AppendRequest) (f : Follower) (core : Core)
    (k : ℕ) : (hears sender reqs f core (k + 1)).2.log =
      logAfter (hears sender reqs f core k).2.log (reqs k) :=
  (handleAppendRequest_spec _ _ sender (reqs k)).2.1

section Growing
variable {L' : List Entry}

theorem cutFrom_of_isPrefix (hreq : req.CutFrom L) (hprev : req.prevLogIndex ≤ L.length)
    (hgrow : L <+: L') : req.CutFrom L' := by
  obtain ⟨ext, rfl⟩ := hgrow
  refine ⟨?_, ?_⟩
  · rw [termOf_of_le hprev]
    exact hreq.prevLogTerm
  · rw [List.drop_append_of_le_length hprev]
    exact hreq.entries.trans (List.prefix_append _ _)

/-- The compacted part does not depend on how far the leader's log has grown. -/
theorem whole_of_isPrefix (h : log.CompactedFrom L) (hgrow : L <+: L') :
    log.whole L' = log.whole L := by
  obtain ⟨ext, rfl⟩ := hgrow
  rw [Log.whole, Log.whole, List.take_append_of_le_length h.within]

end Growing

section Runs
variable {logs : ℕ → List Entry} {reqs : ℕ → AppendRequest}

theorem logs_isPrefix (hgrows : ∀ k, logs k <+: logs (k + 1)) {j k : ℕ} (hjk : j ≤ k) :
    logs j <+: logs k := by
  induction k, hjk using Nat.le_induction with
  | base => exact List.prefix_rfl
  | succ k hjk ih => exact ih.trans (hgrows k)

/-- Every request of the run is cut from the log as it is when the request is handled. -/
theorem cutFrom_logs (hgrows : ∀ k, logs k <+: logs (k + 1))
    (hcut : ∀ k, ∃ j ≤ k, (reqs k).CutFrom (logs j) ∧ (reqs k).prevLogIndex ≤ (logs j).length)
    {k m : ℕ} (hkm : k ≤ m) :
    (reqs k).CutFrom (logs m) ∧ (reqs k).prevLogIndex ≤ (logs m).length := by
  obtain ⟨j, hj, hreq, hprev⟩ := hcut k
  have hgrow := logs_isPrefix hgrows (hj.trans hkm)
  exact ⟨cutFrom_of_isPrefix hreq hprev hgrow, hprev.trans hgrow.length_le⟩

/-- The log matches the leader's, now and as it will have grown. -/
theorem hears_matches (hgrows : ∀ k, logs k <+: logs (k + 1))
    (hcut : ∀ k, ∃ j ≤ k, (reqs k).CutFrom (logs j) ∧ (reqs k).prevLogIndex ≤ (logs j).length)
    (sender : NodeId) (f : Follower) (core : Core) (hmatches : ∀ k, core.log.Matches (logs k))
    (k : ℕ) : ∀ m, k ≤ m → (hears sender reqs f core k).2.log.Matches (logs m) := by
  induction k with
  | zero => exact fun m _ => hmatches m
  | succ k ih =>
    intro m hm
    obtain ⟨hreq, hprev⟩ := cutFrom_logs hgrows hcut (Nat.le_of_succ_le hm)
    rw [hears_succ_log]
    exact logAfter_matches (ih m (by omega)) hreq hprev

end Runs
end Follower
open Follower

/-- Requests of one leader, each cut from its log as it was at some earlier time, handled in
any order: the part of the follower's log that agrees with the leader's never shrinks, an
accepted request extends it over its own entries, and repeating it changes nothing. -/
theorem append_requests_idempotent (logs : ℕ → List Entry) (reqs : ℕ → AppendRequest)
    (sender : NodeId) (f : Follower) (core : Core)
    (hgrows : ∀ k, logs k <+: logs (k + 1)) (hmatches : ∀ k, core.log.Matches (logs k))
    (hcut : ∀ k, ∃ j ≤ k, (reqs k).CutFrom (logs j) ∧ (reqs k).prevLogIndex ≤ (logs j).length)
    (k : ℕ) :
    let before := hears sender reqs f core k
    let after := hears sender reqs f core (k + 1)
    commonPrefix (before.2.log.whole (logs k)) (logs k) ≤
      commonPrefix (after.2.log.whole (logs (k + 1))) (logs (k + 1)) ∧
    (accepts before.2.log (reqs k) = true →
      (reqs k).prevLogIndex + (reqs k).entries.length ≤
        commonPrefix (after.2.log.whole (logs k)) (logs k) ∧
      (after.1.handleAppendRequest after.2 sender (reqs k)).core.log = after.2.log) := by
  intro before after
  have hmatch := hears_matches hgrows hcut sender f core hmatches k
  obtain ⟨hreq, hprev⟩ := cutFrom_logs hgrows hcut (le_refl k)
  have hlog : after.2.log = logAfter before.2.log (reqs k) := hears_succ_log sender reqs f core k
  refine ⟨?_, ?_⟩
  · -- compare both sides with the longer log of the leader
    obtain ⟨hreq', hprev'⟩ := cutFrom_logs hgrows hcut (Nat.le_succ k)
    obtain ⟨hle, hagree⟩ := (le_commonPrefix_iff _ _ _).mp
      (le_refl (commonPrefix (before.2.log.whole (logs k)) (logs k)))
    generalize commonPrefix (before.2.log.whole (logs k)) (logs k) = n at hle hagree ⊢
    have htake : (logs (k + 1)).take n = (logs k).take n := by
      obtain ⟨ext, hext⟩ := hgrows k
      rw [← hext, List.take_append_of_le_length hle]
    rw [← whole_of_isPrefix (hmatch k le_rfl).compacted (hgrows k), ← htake] at hagree
    rw [le_commonPrefix_iff, hlog]
    exact ⟨hle.trans (hgrows k).length_le,
      logAfter_keeps_agreement (hmatch (k + 1) (Nat.le_succ k)) hreq' hprev' hagree⟩
  · intro hacc
    refine ⟨?_, ?_⟩
    · rw [le_commonPrefix_iff, hlog]
      exact ⟨reach_le hreq hprev, logAfter_reaches (hmatch k le_rfl) hreq hprev hacc⟩
    · rw [(handleAppendRequest_spec after.1 after.2 sender (reqs k)).2.1, hlog]
      exact logAfter_again (hmatch k le_rfl) hreq hprev hacc

/-- Three entries of a leader. -/
def threeEntries : List Entry :=
  [{ term := 1, index := 1, payload := .command ⟨[1]⟩ },
    { term := 2, index := 2, payload := .command ⟨[2]⟩ },
    { term := 2, index := 3, payload := .command ⟨[3]⟩ }]

/-- A follower that has compacted the first of them. -/
def compactedCore : Core :=
  (Core.new (Config.new 1) [0, 1]).setLog
    { entries := [], snapshotIndex := 1, snapshotTerm := 1, snapshotConfig := none }

theorem compactedCore_matches : compactedCore.log.Matches threeEntries where
  numbered := by simp [threeEntries, Numbered]
  compacted := ⟨by decide, by decide, trivial⟩
  matching := matching_take 1

/-- All of them in one request. -/
def fromStart : AppendRequest :=
  { prevLogIndex := 0, prevLogTerm := 0, entries := threeEntries, leaderCommit := 0 }

theorem append_requests_idempotent_compacted :
    3 ≤ commonPrefix ((hears 0 (fun _ => fromStart) (Follower.new compactedCore none).1
      compactedCore 1).2.log.whole threeEntries) threeEntries :=
  ((append_requests_idempotent (fun _ => threeEntries) (fun _ => fromStart) 0 _ compactedCore
    (fun _ => List.prefix_rfl) (fun _ => compactedCore_matches)
    (fun k => ⟨k, le_rfl, ⟨rfl, List.prefix_rfl⟩, by decide⟩) 0).2 (by decide)).1

end BasisDB.Raft
