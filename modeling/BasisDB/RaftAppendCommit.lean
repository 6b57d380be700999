import BasisDB.RaftAppendRuns

/-! The commit index of a follower: it is clamped by the end of the follower's own log, so it
stays within what an append request has verified only if that end is the leader's too. -/
namespace BasisDB.Raft

namespace Follower
variable {L : List Entry} {req : AppendRequest}

/-- The commit index after a request. -/
theorem handleAppendRequest_commitIndex (f : Follower) (core : Core) (sender : NodeId)
    (req : AppendRequest) :
    (f.handleAppendRequest core sender req).core.commitIndex =
      if accepts core.log req = true ∧ core.commitIndex < req.leaderCommit then
        min req.leaderCommit (logAfter core.log req).lastIndex
      else core.commitIndex := by
  have hlog : (f.contact core sender).2.log = core.log := rfl
  have hcommit : (f.contact core sender).2.commitIndex = core.commitIndex := rfl
  unfold handleAppendRequest logAfter
  dsimp only
  rw [hlog]
  cases accepts core.log req with
  | false => exact hcommit
  | true =>
    by_cases hlt : core.commitIndex < req.leaderCommit
    · simp [Core.setLog, hcommit, hlt, Core.setCommitIndex, Core.log]
    · simp [Core.setLog, hcommit, hlt]

/-- A request past the end of the leader's log carries nothing. -/
theorem logAfter_past_end {log : Log} (hreq : req.CutFrom L) (hprev : L.length < req.prevLogIndex) :
    logAfter log req = log := by
  have hnil : req.entries = [] := by
    have := hreq.entries
    rw [List.drop_eq_nil_of_le hprev.le] at this
    exact List.prefix_nil.mp this
  rw [logAfter, hnil, appendEntries, List.foldl_nil]
  exact ite_self _

/-- A request that adds nothing leaves the log alone. -/
theorem logAfter_of_holds {log : Log} (h : log.Matches L) (hreq : req.CutFrom L)
    (hacc : accepts log req = true)
    (hholds : req.entries <+: (log.whole L).drop req.prevLogIndex) : logAfter log req = log := by
  by_cases hprev : req.prevLogIndex ≤ L.length
  · rcases logAfter_accepted h hreq hprev hacc with ⟨hsame, _⟩ | ⟨_, _, hlacks⟩
    · exact hsame
    · refine absurd ?_ hlacks
      obtain ⟨rest, hrest⟩ := agrees_of_accepts h hreq hprev hacc
      have hlen : (L.take req.prevLogIndex).length = req.prevLogIndex := by
        rw [List.length_take]
        omega
      rw [← hrest, List.drop_append_of_le_length hlen.ge, List.drop_eq_nil_of_le hlen.le,
        List.nil_append] at hholds
      rw [← take_append_entries hreq, ← hrest]
      exact (List.prefix_append_right_inj _).mpr hholds
  · exact logAfter_past_end hreq (by omega)

/-- The other case: after a request that adds something the log is a part of the leader's. -/
theorem whole_logAfter_of_lacks {log : Log} (h : log.Matches L) (hreq : req.CutFrom L)
    (hacc : accepts log req = true)
    (hlacks : ¬req.entries <+: (log.whole L).drop req.prevLogIndex) :
    (logAfter log req).CompactedFrom L ∧ (logAfter log req).whole L <+: L := by
  by_cases hprev : req.prevLogIndex ≤ L.length
  · rcases logAfter_accepted h hreq hprev hacc with ⟨_, hholds⟩ | ⟨hcompacted, hnew, _⟩
    · refine absurd ?_ hlacks
      have hdrop := hholds.drop req.prevLogIndex
      rw [← take_append_entries hreq, List.drop_append] at hdrop
      have hlen : (L.take req.prevLogIndex).length = req.prevLogIndex := by
        rw [List.length_take]
        omega
      rw [List.drop_eq_nil_of_le hlen.le, hlen, Nat.sub_self, List.nil_append] at hdrop
      exact hdrop
    · refine ⟨hcompacted, ?_⟩
      rw [hnew]
      exact List.take_prefix _ _
  · refine absurd ?_ hlacks
    have := hreq.entries
    rw [List.drop_eq_nil_of_le (by omega)] at this
    rw [List.prefix_nil.mp this]
    exact List.nil_prefix

/-- The leader's entry stands at the index that the follower would commit to. -/
def CommitsVerified (core : Core) (L : List Entry) (req : AppendRequest) : Prop :=
  accepts core.log req = true → req.entries <+: (core.log.whole L).drop req.prevLogIndex →
    core.commitIndex < min req.leaderCommit core.log.lastIndex →
    termOf (core.log.whole L) (min req.leaderCommit core.log.lastIndex) =
      termOf L (min req.leaderCommit core.log.lastIndex)

end Follower
open Follower

/-- Every newly committed index holds the leader's entry exactly when the request adds entries
to the log, or leaves the commit index, or finds the leader's term at the index that it
commits to. -/
theorem follower_commits_verified_iff (f : Follower) (core : Core) (sender : NodeId)
    (req : AppendRequest) (L : List Entry) (hmatch : core.log.Matches L) (hreq : req.CutFrom L)
    (hcommit : req.leaderCommit ≤ L.length) :
    let after := (f.handleAppendRequest core sender req).core
    (∀ i, core.commitIndex < i → i ≤ after.commitIndex → (after.log.whole L)[i - 1]? = L[i - 1]?) ↔
      CommitsVerified core L req := by
  intro after
  have hlog : after.log = logAfter core.log req := (handleAppendRequest_spec f core sender req).2.1
  have hindex := handleAppendRequest_commitIndex f core sender req
  change after.commitIndex = _ at hindex
  rw [hlog]
  constructor
  · intro hall hacc hholds hlt
    have hsame := logAfter_of_holds hmatch hreq hacc hholds
    have hbelow : core.commitIndex < req.leaderCommit := lt_of_lt_of_le hlt (min_le_left _ _)
    rw [if_pos ⟨hacc, hbelow⟩, hsame] at hindex
    have hentry := hall _ hlt hindex.ge
    rw [hsame] at hentry
    rw [termOf, termOf, hentry]
  · intro hverified i hi hle
    by_cases hmoves : accepts core.log req = true ∧ core.commitIndex < req.leaderCommit
    · rw [if_pos hmoves] at hindex
      by_cases hholds : req.entries <+: (core.log.whole L).drop req.prevLogIndex
      · -- the log is as it was: the index committed to decides
        have hsame := logAfter_of_holds hmatch hreq hmoves.1 hholds
        rw [hsame] at hindex ⊢
        have hterm := hverified hmoves.1 hholds (by omega)
        have hagree := hmatch.matching.take_isPrefix hmatch.numbered
          ((min_le_left _ _).trans hcommit) hterm
        have hlt : i - 1 < min req.leaderCommit core.log.lastIndex := by omega
        have hlen : i - 1 < (L.take (min req.leaderCommit core.log.lastIndex)).length := by
          rw [List.length_take]
          omega
        obtain ⟨rest, hrest⟩ := hagree
        rw [← hrest, List.getElem?_append_left hlen, List.getElem?_take_of_lt hlt]
      · obtain ⟨hcompacted, rest, hrest⟩ := whole_logAfter_of_lacks hmatch hreq hmoves.1 hholds
        have hlt : i - 1 < ((logAfter core.log req).whole L).length := by
          rw [← hcompacted.lastIndex_eq]
          omega
        conv_rhs => rw [← hrest, List.getElem?_append_left hlt]
    · rw [if_neg hmoves] at hindex
      omega

/-- Log matching, position by position. -/
theorem matching_of_terms {L M : List Entry}
    (h : ∀ i < L.length, (L[i]?).map Entry.term = (M[i]?).map Entry.term →
      L.take (i + 1) = M.take (i + 1)) : Matching L M := by
  intro P x Q y hP hQ hlen hterm
  have hx := getElem?_of_isPrefix hP
  have hy := getElem?_of_isPrefix hQ
  have htake := h P.length (List.getElem?_eq_some_iff.mp hx).1 (by rw [hx, hlen, hy]; simp [hterm])
  have hPx : P ++ [x] = L.take (P.length + 1) := by
    rw [List.prefix_iff_eq_take.mp hP]
    simp
  have hQy : Q ++ [y] = M.take (P.length + 1) := by
    rw [List.prefix_iff_eq_take.mp hQ, hlen]
    simp
  rw [hPx, hQy, htake]

/-- Entries that share their first two positions with the log of a deposed leader. -/
def rewritten : List Entry :=
  [{ term := 1, index := 1, payload := .command ⟨[1]⟩ },
    { term := 1, index := 2, payload := .command ⟨[2]⟩ },
    { term := 2, index := 3, payload := .command ⟨[3]⟩ },
    { term := 2, index := 4, payload := .command ⟨[4]⟩ }]

/-- A follower of term 2 that still has a third entry of term 1. -/
def staleTail : Core :=
  { Core.new (Config.new 1) [0, 1, 2] with
    persistent :=
      { term := 2
        votedFor := none
        log := { Log.empty with
          entries := rewritten.take 2 ++ [{ term := 1, index := 3, payload := .command ⟨[9]⟩ }] }
        bootstrapConfig := .ofVoters [0, 1, 2] } }

theorem staleTail_matches : staleTail.log.Matches rewritten where
  numbered := by simp [rewritten, Numbered]
  compacted := ⟨by decide, by decide, by simp [staleTail, Core.log, Log.empty, rewritten, Numbered]⟩
  matching := matching_of_terms (by decide)

/-- A batch of the first two entries of a leader that has committed all four. -/
def shortBatch (entries : List Entry) : AppendRequest :=
  { prevLogIndex := 0, prevLogTerm := 0, entries := entries, leaderCommit := 4 }

theorem shortBatch_cutFrom (n : ℕ) : (shortBatch (rewritten.take n)).CutFrom rewritten :=
  ⟨rfl, List.take_prefix n _⟩

/-- The follower verifies the first two entries and commits its own third one. -/
theorem follower_commits_stale_tail :
    staleTail.log.Matches rewritten ∧ (shortBatch (rewritten.take 2)).CutFrom rewritten ∧
    ((Follower.new staleTail none).1.handleAppendRequest staleTail 0
      (shortBatch (rewritten.take 2))).core.commitIndex = 3 ∧
    (((Follower.new staleTail none).1.handleAppendRequest staleTail 0
      (shortBatch (rewritten.take 2))).core.log.whole rewritten)[2]? ≠ rewritten[2]? :=
  ⟨staleTail_matches, shortBatch_cutFrom 2, by decide +kernel, by decide +kernel⟩

/-- With all entries in one batch the conflict is found and the leader's entries committed. -/
theorem follower_commits_verified_fullBatch :
    (((Follower.new staleTail none).1.handleAppendRequest staleTail 0
      (shortBatch (rewritten.take 4))).core.log.whole rewritten)[3]? = rewritten[3]? :=
  (follower_commits_verified_iff _ staleTail 0 _ rewritten staleTail_matches
    (shortBatch_cutFrom 4) (by decide)).mpr
    (fun _ hholds => absurd hholds (by decide +kernel)) 4 (by decide) (by decide +kernel)

end BasisDB.Raft
