import BasisDB.RaftCompaction
import BasisDB.RaftFollower

/-! Snapshot installation at a follower: a snapshot that the log agrees with compacts it, any
other one replaces it, and the second never happens below the commit index. -/
namespace BasisDB.Raft

namespace Log
variable {log : Log} {i t : ℕ} {c : Configuration}

/-- Terms never decrease from the snapshot on. -/
def TermsOrdered (log : Log) : Prop :=
  (log.snapshotTerm :: log.entries.map Entry.term).Pairwise (· ≤ ·)

theorem TermsOrdered.compact (h : log.TermsOrdered) {s : ℕ} (hs : log.snapshotIndex < s) :
    (log.compact s).TermsOrdered := by
  have hterms : (log.entries.map Entry.term).Pairwise (· ≤ ·) := (List.pairwise_cons.mp h).2
  have hback : s - log.snapshotIndex = s - log.snapshotIndex - 1 + 1 := by omega
  rw [TermsOrdered, compact_eq hs]
  by_cases hlt : s - log.snapshotIndex - 1 < log.entries.length
  · -- the snapshot takes over the term of the last compacted entry
    have hterm : log.termAt s = (log.entries.get ⟨_, hlt⟩).term := by
      rw [termAt_above hs, get_above hs, List.getElem?_eq_getElem hlt]
      rfl
    have hdrop : (log.entries.drop (s - log.snapshotIndex - 1)).map Entry.term =
        log.termAt s :: (log.entries.drop (s - log.snapshotIndex)).map Entry.term := by
      rw [List.drop_eq_getElem_cons hlt, List.map_cons, hterm, ← hback]
      rfl
    rw [← hdrop, List.map_drop]
    exact hterms.sublist (List.drop_sublist _ _)
  · have hnil : log.entries.drop (s - log.snapshotIndex) = [] := by
      apply List.drop_eq_nil_of_le
      omega
    rw [hnil]
    exact List.pairwise_singleton _ _

theorem snapshotMatchesPrefix_iff :
    log.snapshotMatchesPrefix i t = true ↔ log.snapshotIndex < i ∧ log.termAt i = t := by
  simp [snapshotMatchesPrefix]

theorem installSnapshot_matching (hlow : log.snapshotIndex < i) (hterm : log.termAt i = t) :
    log.installSnapshot i t c = { log.compact i with snapshotConfig := some c } := by
  rw [installSnapshot, if_pos ⟨hlow, hterm⟩, compact, hterm]

theorem installSnapshot_other (h : ¬ (log.snapshotIndex < i ∧ log.termAt i = t)) :
    log.installSnapshot i t c =
      { entries := [], snapshotIndex := i, snapshotTerm := t, snapshotConfig := some c } := by
  rw [installSnapshot, if_neg h]

theorem installSnapshot_snapshotIndex (log : Log) (i t : ℕ) (c : Configuration) :
    (log.installSnapshot i t c).snapshotIndex = i := by
  by_cases h : log.snapshotIndex < i ∧ log.termAt i = t
  · rw [installSnapshot_matching h.1 h.2]
    exact compact_snapshotIndex h.1.le
  · rw [installSnapshot_other h]

/-- Terms are positive, so an index with a term is an index of the log. -/
theorem le_lastIndex_of_termAt (h : log.Contiguous) (hlow : log.snapshotIndex < i)
    (hpos : 0 < log.termAt i) : i ≤ log.lastIndex := by
  cases he : log.get i with
  | none => simp [termAt_above hlow, he] at hpos
  | some e => exact (get_index h he).2.1

end Log

namespace Follower
variable {f : Follower} {core : Core} {msg : Message} {req : InstallSnapshotRequest}

/-- The follower installs the snapshot: it is ahead of its own, and it does not contradict
what is committed. -/
def Accepts (core : Core) (req : InstallSnapshotRequest) : Prop :=
  core.log.snapshotIndex < req.lastIncludedIndex ∧
    (core.commitIndex ≤ req.lastIncludedIndex ∨
      core.log.snapshotMatchesPrefix req.lastIncludedIndex req.lastIncludedTerm = true)

/-- The answer to a snapshot request. -/
def snapshotReply (core : Core) (receiver : NodeId) (req : InstallSnapshotRequest)
    (success : Bool) : Message :=
  core.message receiver
    (.installSnapshotResponse { success := success, lastIncludedIndex := req.lastIncludedIndex })

theorem handleMessage_installSnapshot (hreq : msg.payload = .installSnapshotRequest req)
    (hterm : msg.term = core.term) :
    f.handleMessage core msg = f.handleInstallSnapshot core msg.sender req := by
  have hvote : ¬ (msg.payload.isVoteSolicitation && f.recentlyHeardFromLeader core) = true := by
    simp [hreq, Payload.isVoteSolicitation]
  have hnewer : ¬ core.term < msg.term := by omega
  have holder : ¬ msg.term < core.term := by omega
  rw [handleMessage, if_neg hvote, hreq]
  simp only [if_neg hnewer, if_neg holder, handleCurrent, hreq]

/-- A refused snapshot changes nothing but the election deadline. -/
theorem handleInstallSnapshot_refused (sender : NodeId) (h : ¬ Accepts core req) :
    let out := f.handleInstallSnapshot core sender req
    out.core.log = core.log ∧ out.core.commitIndex = core.commitIndex ∧
      out.core.lastApplied = core.lastApplied ∧
      out.result.effects.messages = [snapshotReply core sender req false] := by
  have hlog : (f.contact core sender).2.log = core.log := rfl
  have hcommit : (f.contact core sender).2.commitIndex = core.commitIndex := rfl
  unfold handleInstallSnapshot
  dsimp only
  rw [hlog, hcommit]
  by_cases hold : req.lastIncludedIndex ≤ core.log.snapshotIndex
  · rw [if_pos hold]
    exact ⟨rfl, rfl, rfl, rfl⟩
  · have hbelow : req.lastIncludedIndex < core.commitIndex ∧
        core.log.snapshotMatchesPrefix req.lastIncludedIndex req.lastIncludedTerm = false := by
      unfold Accepts at h
      push Not at h
      obtain ⟨hlt, hmatch⟩ := h (by omega)
      exact ⟨hlt, Bool.eq_false_iff.mpr hmatch⟩
    rw [if_neg hold, if_pos hbelow]
    exact ⟨rfl, rfl, rfl, rfl⟩

/-- An accepted one is installed, and counts as committed and applied. -/
theorem handleInstallSnapshot_accepted (sender : NodeId) (h : Accepts core req) :
    let out := f.handleInstallSnapshot core sender req
    out.core.log = core.log.installSnapshot req.lastIncludedIndex req.lastIncludedTerm
        req.configuration ∧
      out.core.commitIndex = max core.commitIndex req.lastIncludedIndex ∧
      out.core.lastApplied = max core.lastApplied req.lastIncludedIndex ∧
      out.result.effects.messages = [snapshotReply core sender req true] := by
  have hlog : (f.contact core sender).2.log = core.log := rfl
  have hcommit : (f.contact core sender).2.commitIndex = core.commitIndex := rfl
  have hnew : ¬ req.lastIncludedIndex ≤ core.log.snapshotIndex := by
    have := h.1
    omega
  have hagrees : ¬ (req.lastIncludedIndex < core.commitIndex ∧
      core.log.snapshotMatchesPrefix req.lastIncludedIndex req.lastIncludedTerm = false) := by
    intro hbelow
    rcases h.2 with hle | hmatch
    · omega
    · rw [hmatch] at hbelow
      exact absurd hbelow.2 (by decide)
  unfold handleInstallSnapshot
  dsimp only
  rw [hlog, hcommit, if_neg hnew, if_neg hagrees]
  exact ⟨rfl, rfl, rfl, rfl⟩

theorem handleInstallSnapshot_frame (f : Follower) (core : Core) (sender : NodeId)
    (req : InstallSnapshotRequest) :
    (f.handleInstallSnapshot core sender req).core.config = core.config ∧
      (f.handleInstallSnapshot core sender req).core.term = core.term := by
  unfold handleInstallSnapshot
  dsimp only
  split_ifs <;> exact ⟨rfl, rfl⟩

/-- What installing a snapshot does to a log whose commit index it does not undercut. -/
theorem installSnapshot_keeps (hlog : core.log.Contiguous)
    (hcommit : core.commitIndex ≤ core.log.lastIndex) (hterm : 1 ≤ req.lastIncludedTerm)
    (h : Accepts core req) :
    let log := core.log.installSnapshot req.lastIncludedIndex req.lastIncludedTerm
      req.configuration
    log.Contiguous ∧ (core.log.TermsOrdered → log.TermsOrdered) ∧
      max core.commitIndex req.lastIncludedIndex ≤ log.lastIndex ∧
      ∀ j, req.lastIncludedIndex < j → j ≤ core.commitIndex → log.get j = core.log.get j := by
  by_cases hmatch : core.log.snapshotIndex < req.lastIncludedIndex ∧
      core.log.termAt req.lastIncludedIndex = req.lastIncludedTerm
  · -- the log has the snapshot's last entry: it is compacted up to there
    have hlow := hmatch.1
    have hwithin : req.lastIncludedIndex ≤ core.log.lastIndex := by
      apply Log.le_lastIndex_of_termAt hlog hlow
      omega
    dsimp only
    rw [Log.installSnapshot_matching hlow hmatch.2]
    refine ⟨hlog.compact hlow.le, fun hterms => hterms.compact hlow, ?_, ?_⟩
    · show max core.commitIndex req.lastIncludedIndex ≤
        (core.log.compact req.lastIncludedIndex).lastIndex
      rw [Log.compact_lastIndex hlow.le hlog hwithin]
      exact max_le hcommit hwithin
    · intro j hj _
      show (core.log.compact req.lastIncludedIndex).get j = core.log.get j
      exact Log.compact_get hlow.le hj
  · -- otherwise nothing above the snapshot is committed, and the log starts over
    have hahead : core.commitIndex ≤ req.lastIncludedIndex := by
      apply h.2.resolve_right
      rw [Log.snapshotMatchesPrefix_iff]
      exact hmatch
    dsimp only
    rw [Log.installSnapshot_other hmatch]
    refine ⟨?_, fun _ => List.pairwise_singleton _ _, max_le hahead le_rfl, ?_⟩
    · intro i e he
      simp at he
    · intro j hj hle
      omega

/-- Handling a snapshot of the follower's term keeps the log well formed and loses nothing
that is committed or applied; a refusal changes neither the log nor the commit index. -/
theorem installSnapshot_keeps_committed (f : Follower) (core : Core) (msg : Message)
    (req : InstallSnapshotRequest) (hreq : msg.payload = .installSnapshotRequest req)
    (hmsg : msg.term = core.term) (hlog : core.log.Contiguous)
    (hsnapshot : core.log.snapshotIndex ≤ core.commitIndex)
    (hcommit : core.commitIndex ≤ core.log.lastIndex)
    (happlied : core.lastApplied ≤ core.commitIndex) (hterm : 1 ≤ req.lastIncludedTerm) :
    let out := f.handleMessage core msg
    out.core.log.Contiguous ∧ (core.log.TermsOrdered → out.core.log.TermsOrdered) ∧
    core.commitIndex ≤ out.core.commitIndex ∧ core.lastApplied ≤ out.core.lastApplied ∧
    out.core.log.snapshotIndex ≤ out.core.commitIndex ∧
    out.core.lastApplied ≤ out.core.commitIndex ∧
    out.core.commitIndex ≤ out.core.log.lastIndex ∧
    (∀ j, req.lastIncludedIndex < j → j ≤ core.commitIndex →
      out.core.log.get j = core.log.get j) ∧
    ((∃ reply ∈ out.result.effects.messages, ∃ resp,
        reply.payload = .installSnapshotResponse resp ∧ resp.success = false) →
      out.core.log = core.log ∧ out.core.commitIndex = core.commitIndex) := by
  rw [handleMessage_installSnapshot hreq hmsg]
  intro out
  by_cases h : Accepts core req
  · obtain ⟨hlog', hcommit', happlied', hreply⟩ :=
      handleInstallSnapshot_accepted (f := f) msg.sender h
    obtain ⟨hcont, hterms, hlast, hkept⟩ := installSnapshot_keeps hlog hcommit hterm h
    rw [hlog', hcommit', happlied', hreply, Log.installSnapshot_snapshotIndex]
    refine ⟨hcont, hterms, le_max_left _ _, le_max_left _ _, le_max_right _ _, ?_, hlast, hkept, ?_⟩
    · exact max_le_max_right _ happlied
    · rintro ⟨reply, hmem, resp, hpayload, hfalse⟩
      rw [List.mem_singleton.mp hmem] at hpayload
      cases hpayload
      cases hfalse
  · obtain ⟨hlog', hcommit', happlied', -⟩ := handleInstallSnapshot_refused (f := f) msg.sender h
    rw [hlog', hcommit', happlied']
    exact ⟨hlog, id, le_rfl, le_rfl, hsnapshot, happlied, hcommit, fun _ _ _ => rfl,
      fun _ => ⟨rfl, rfl⟩⟩

/-- Node 1 with three entries, two of them committed and one applied. -/
def halfApplied : Core :=
  { (Core.new (Config.new 1) [0, 1]).setLog
      { entries := [⟨1, 1, .command ⟨[1]⟩⟩, ⟨1, 2, .command ⟨[2]⟩⟩, ⟨2, 3, .command ⟨[3]⟩⟩]
        snapshotIndex := 0
        snapshotTerm := 0
        snapshotConfig := none } with
    commitIndex := 2
    lastApplied := 1 }

theorem halfApplied_contiguous : halfApplied.log.Contiguous := by
  intro k e he
  rcases k with _ | _ | _ | k
  · cases he
    rfl
  · cases he
    rfl
  · cases he
    rfl
  · cases he

/-- A snapshot up to `index`, sent at the term of node 1. -/
def snapshotUpTo (index : ℕ) : Message :=
  { sender := 0, receiver := 1, term := halfApplied.term
    payload := .installSnapshotRequest
      { lastIncludedIndex := index, lastIncludedTerm := 1
        configuration := halfApplied.effectiveConfig } }

theorem installSnapshot_keeps_committed_halfApplied :
    let out := (Follower.new halfApplied none).1.handleMessage halfApplied (snapshotUpTo 1)
    out.core.log.snapshotIndex = 1 ∧ out.core.log.Contiguous ∧
      out.core.log.get 2 = halfApplied.log.get 2 ∧
      out.core.commitIndex ≤ out.core.log.lastIndex := by
  obtain ⟨hcont, -, -, -, -, -, hlast, hkept, -⟩ :=
    installSnapshot_keeps_committed (Follower.new halfApplied none).1 halfApplied (snapshotUpTo 1)
      _ rfl rfl halfApplied_contiguous (by decide) (by decide) (by decide) (by decide)
  exact ⟨by decide +kernel, hcont, hkept 2 (by decide) (by decide), hlast⟩

end Follower
end BasisDB.Raft
