import BasisDB.RaftContiguousLog
import BasisDB.RaftNode

/-! What one step of a node can do to its core, whatever message it handles: terms go up, a
vote is kept for its term, and what changed is marked for saving. -/
namespace BasisDB.Raft

/-- No message of these effects grants a vote. -/
def Effects.NoGrants (eff : Effects) : Prop :=
  ∀ m ∈ eff.messages, m.payload ≠ .voteResponse { granted := true }

namespace Effects.NoGrants
variable {eff eff' : Effects}

theorem none : Effects.none.NoGrants := fun _ hm => absurd hm List.not_mem_nil

theorem withPersist (h : eff.NoGrants) : eff.withPersist.NoGrants := h

theorem merge (h : eff.NoGrants) (h' : eff'.NoGrants) : (eff.merge eff').NoGrants := by
  intro m hm
  rcases List.mem_append.mp hm with hm | hm
  · exact h m hm
  · exact h' m hm

theorem withMessages (h : eff.NoGrants) {msgs : List Message}
    (hmsgs : ∀ m ∈ msgs, m.payload ≠ .voteResponse { granted := true }) :
    (eff.withMessages msgs).NoGrants := by
  intro m hm
  rcases List.mem_append.mp hm with hm | hm
  · exact h m hm
  · exact hmsgs m hm

theorem withMessage (h : eff.NoGrants) {msg : Message}
    (hmsg : msg.payload ≠ .voteResponse { granted := true }) : (eff.withMessage msg).NoGrants :=
  h.withMessages (fun m hm => by rwa [List.mem_singleton.mp hm])

theorem withSendSnapshot (h : eff.NoGrants) (snapshot : SendSnapshot) :
    (eff.withSendSnapshot snapshot).NoGrants := h

end Effects.NoGrants

/-- A vote for `c` in term `t` is cast at a term the node has, and kept for that term. -/
structure Casts (core core' : Core) (t : ℕ) (c : NodeId) : Prop where
  from_term : core.term ≤ t
  to_term : t ≤ core'.term
  free : t = core.term → core.canVoteFor c = true
  kept : t = core'.term → core'.persistent.votedFor = some c

/-- From `core` to `core'` with these effects. An unsaved log is only ruled out under `saves`,
and a lower commit index only under `commits`: both depend on the append request. -/
structure Evolves (saves commits : Prop) (core core' : Core) (eff : Effects) : Prop where
  config : core'.config = core.config
  term : core.term ≤ core'.term
  vote : core'.term = core.term → ∀ c, core.persistent.votedFor = some c →
    core'.persistent.votedFor = some c
  casts : ∀ m ∈ eff.messages, m.payload = .voteResponse { granted := true } →
    Casts core core' m.term m.receiver
  once : ∀ m ∈ eff.messages, ∀ m' ∈ eff.messages, m.payload = .voteResponse { granted := true } →
    m'.payload = .voteResponse { granted := true } → m.term = m'.term → m.receiver = m'.receiver
  saved : eff.persist = false → core'.persistent = { core.persistent with log := core'.log }
  savedLog : saves → eff.persist = false → core'.log = core.log
  commit : commits → core.commitIndex ≤ core'.commitIndex

section Evolves
variable {saves commits : Prop} {core core' core'' : Core} {eff eff' : Effects}

/-- A step that changes neither the persistent state nor the commit index. -/
theorem Evolves.quiet (hp : core'.persistent = core.persistent) (hc : core'.config = core.config)
    (hi : core'.commitIndex = core.commitIndex) (hm : eff.NoGrants) :
    Evolves saves commits core core' eff := by
  have hterm : core'.term = core.term := congrArg Persistent.term hp
  have hlog : core'.log = core.log := congrArg Persistent.log hp
  refine ⟨hc, hterm.ge, ?_, ?_, ?_, ?_, fun _ _ => hlog, fun _ => hi.ge⟩
  · intro _ c hv
    rw [hp]
    exact hv
  · intro m hmem hg
    exact absurd hg (hm m hmem)
  · intro m hmem _ _ hg
    exact absurd hg (hm m hmem)
  · intro _
    rw [hlog, hp]
    rfl

theorem Evolves.refl (saves commits : Prop) (core : Core) :
    Evolves saves commits core core Effects.none :=
  Evolves.quiet rfl rfl rfl Effects.NoGrants.none

/-- Effects that only send, and grant nothing. -/
theorem Evolves.sends (hm : eff.NoGrants) : Evolves saves commits core core eff :=
  Evolves.quiet rfl rfl rfl hm

/-- The persistent state changed, no vote was granted, and the step is marked for saving. -/
theorem Evolves.saving (hc : core'.config = core.config) (hterm : core.term ≤ core'.term)
    (hvote : core'.term = core.term → ∀ c, core.persistent.votedFor = some c →
      core'.persistent.votedFor = some c)
    (hi : commits → core.commitIndex ≤ core'.commitIndex) (hp : eff.persist = true)
    (hm : eff.NoGrants) : Evolves saves commits core core' eff := by
  refine ⟨hc, hterm, hvote, ?_, ?_, ?_, ?_, hi⟩
  · intro m hmem hg
    exact absurd hg (hm m hmem)
  · intro m hmem _ _ hg
    exact absurd hg (hm m hmem)
  · intro hnot
    rw [hp] at hnot
    cases hnot
  · intro _ hnot
    rw [hp] at hnot
    cases hnot

theorem Evolves.trans (h : Evolves saves commits core core' eff)
    (h' : Evolves saves commits core' core'' eff') :
    Evolves saves commits core core'' (eff.merge eff') := by
  have hbetween : core''.term = core.term → core'.term = core.term ∧ core''.term = core'.term := by
    intro heq
    have := h.term
    have := h'.term
    omega
  refine ⟨h'.config.trans h.config, h.term.trans h'.term, ?_, ?_, ?_, ?_, ?_, ?_⟩
  · intro heq c hc
    obtain ⟨h1, h2⟩ := hbetween heq
    exact h'.vote h2 c (h.vote h1 c hc)
  · intro m hm hg
    rcases List.mem_append.mp hm with hm | hm
    · have hcast := h.casts m hm hg
      refine ⟨hcast.from_term, hcast.to_term.trans h'.term, hcast.free, ?_⟩
      intro heq
      have hterm := hcast.to_term
      have hterm' := h'.term
      exact h'.vote (by omega) _ (hcast.kept (by omega))
    · have hcast := h'.casts m hm hg
      refine ⟨h.term.trans hcast.from_term, hcast.to_term, ?_, hcast.kept⟩
      intro heq
      have hterm := hcast.from_term
      have hterm' := h.term
      -- what the node had voted for it still has voted for
      have hfree := hcast.free (by omega)
      unfold Core.canVoteFor at hfree ⊢
      cases hv : core.persistent.votedFor with
      | none => rfl
      | some c =>
        rw [h.vote (by omega) c hv] at hfree
        simpa using hfree
  · intro m hm m' hm' hg hg' heq
    -- a vote of the second step is at the term the first one ended with, or above
    have hcross (a b : Message) (ha : a ∈ eff.messages) (hb : b ∈ eff'.messages)
        (hga : a.payload = .voteResponse { granted := true })
        (hgb : b.payload = .voteResponse { granted := true }) (hab : a.term = b.term) :
        a.receiver = b.receiver := by
      have hcast := h.casts a ha hga
      have hcast' := h'.casts b hb hgb
      have h1 := hcast.to_term
      have h2 := hcast'.from_term
      have hkept := hcast.kept (by omega)
      have hfree := hcast'.free (by omega)
      unfold Core.canVoteFor at hfree
      rw [hkept] at hfree
      simpa using hfree
    rcases List.mem_append.mp hm with hm | hm <;> rcases List.mem_append.mp hm' with hm' | hm'
    · exact h.once m hm m' hm' hg hg' heq
    · exact hcross m m' hm hm' hg hg' heq
    · exact (hcross m' m hm' hm hg' hg heq.symm).symm
    · exact h'.once m hm m' hm' hg hg' heq
  · intro hp
    simp only [Effects.merge, Bool.or_eq_false_iff] at hp
    rw [h'.saved hp.2, h.saved hp.1]
  · intro hs hp
    simp only [Effects.merge, Bool.or_eq_false_iff] at hp
    rw [h'.savedLog hs hp.2, h.savedLog hs hp.1]
  · intro hc
    exact (h.commit hc).trans (h'.commit hc)

theorem Evolves.congr (h : Evolves saves commits core core' eff)
    (hm : ∀ m, m ∈ eff'.messages → m ∈ eff.messages) (hp : eff.persist = true → eff'.persist = true) :
    Evolves saves commits core core' eff' := by
  have hnot : eff'.persist = false → eff.persist = false := by
    intro h'
    by_contra hne
    rw [hp ((Bool.not_eq_false _).mp hne)] at h'
    cases h'
  exact ⟨h.config, h.term, h.vote, fun m hmem => h.casts m (hm m hmem),
    fun m hmem m' hmem' => h.once m (hm m hmem) m' (hm m' hmem'), fun hf => h.saved (hnot hf),
    fun hs hf => h.savedLog hs (hnot hf), h.commit⟩

theorem Evolves.none_merge (h : Evolves saves commits core core' (Effects.none.merge eff)) :
    Evolves saves commits core core' eff :=
  h.congr (by simp [Effects.merge, Effects.none]) (by simp [Effects.merge, Effects.none])

theorem Evolves.merge_none (h : Evolves saves commits core core' (eff.merge Effects.none)) :
    Evolves saves commits core core' eff :=
  h.congr (by simp [Effects.merge, Effects.none]) (by simp [Effects.merge, Effects.none])

/-- Adopting a higher term forgets the vote. -/
theorem Evolves.observe {t : ℕ} (ht : core.term < t) (hp : eff.persist = true)
    (hm : eff.NoGrants) : Evolves saves commits core (core.maybeUpdateTerm t).1 eff := by
  rw [Core.maybeUpdateTerm_newer ht]
  refine Evolves.saving rfl ht.le ?_ (fun _ => le_rfl) hp hm
  intro heq
  have hterm : t = core.term := heq
  omega

end Evolves

namespace Core
variable (core : Core)

theorem denyReply_noGrants (msg : Message) : (core.denyReply msg).NoGrants := by
  unfold denyReply
  split
  · exact Effects.NoGrants.none.withMessage (by simp [message])
  · exact Effects.NoGrants.none.withMessage (by simp [message])
  · exact Effects.NoGrants.none

theorem staleReply_noGrants (msg : Message) : (core.staleReply msg).NoGrants := by
  unfold staleReply
  split
  · exact Effects.NoGrants.none.withMessage (by simp [message])
  · exact Effects.NoGrants.none.withMessage (by simp [message])
  · exact Effects.NoGrants.none

theorem prevoteReply_noGrants (sender : NodeId) (msgTerm : ℕ) (req : PreVoteRequest) :
    (core.prevoteReply sender msgTerm req).NoGrants :=
  Effects.NoGrants.none.withMessage (by simp)

theorem refuse_noGrants (sender : NodeId) : (Effects.none.withMessage
    (core.message sender (.voteResponse { granted := false }))).NoGrants :=
  Effects.NoGrants.none.withMessage (by simp [message])

end Core

namespace Follower
variable {saves commits : Prop} {f : Follower} {core : Core}

/-- An append loop that appended nothing left the log as it was: a conflict is cut just below
the entry, which is then appended. Only an entry at the snapshot index would not be. -/
theorem appendEntries_unsaved {log : Log} (h : log.Contiguous) {es : List Entry}
    (hes : ∀ e ∈ es, e.index = log.snapshotIndex → e.term = log.snapshotTerm)
    (hflag : (appendEntries log es).2 = false) : (appendEntries log es).1 = log := by
  have hsticky (acc : Log × Bool) (es : List Entry) (hacc : acc.2 = true) :
      (es.foldl appendEntry acc).2 = true := by
    induction es generalizing acc with
    | nil => exact hacc
    | cons e es ih =>
      refine ih _ ?_
      simp only [appendEntry]
      split_ifs <;> simp [hacc]
  unfold appendEntries at hflag ⊢
  induction es with
  | nil => rfl
  | cons e es ih =>
    rw [List.foldl_cons] at hflag ⊢
    have hunflagged : (appendEntry (log, false) e).2 = false := by
      by_contra hne
      rw [hsticky _ es (Bool.eq_true_of_not_eq_false hne)] at hflag
      cases hflag
    have hstep : appendEntry (log, false) e = (log, false) := by
      by_cases hc : log.termAt e.index ≠ 0 ∧ log.termAt e.index ≠ e.term
      · have hsnap : log.snapshotIndex < e.index := by
          by_contra hle
          rcases Nat.lt_or_eq_of_le (not_lt.mp hle) with hlt | heq
          · exact hc.1 (by simp [Log.termAt, hlt])
          · have hterm := hes e List.mem_cons_self heq
            apply hc.2
            unfold Log.termAt at hc ⊢
            by_cases hzero : e.index = 0 ∨ e.index < log.snapshotIndex
            · simp [hzero] at hc
            · rw [if_neg hzero, if_pos heq, hterm]
        have hlt : (log.truncateAfter (e.index - 1)).lastIndex < e.index := by
          rw [(h.truncateAfter _).lastIndex_eq, Log.truncateAfter_eq]
          dsimp only
          rw [List.length_take]
          omega
        simp [appendEntry, hc, hlt] at hunflagged
      · by_cases hlt : log.lastIndex < e.index
        · simp only [appendEntry, if_neg hc, if_pos hlt] at hunflagged
          cases hunflagged
        · simp only [appendEntry, if_neg hc, if_neg hlt]
    rw [hstep] at hflag ⊢
    exact ih (fun x hx => hes x (List.mem_cons_of_mem _ hx)) hflag

theorem contact_evolves (f : Follower) (core : Core) (sender : NodeId) :
    Evolves saves commits core (f.contact core sender).2 Effects.none :=
  Evolves.quiet rfl rfl rfl Effects.NoGrants.none

theorem handleVoteRequest_evolves (f : Follower) (core : Core) (sender : NodeId)
    (req : VoteRequest) : Evolves saves commits core (f.handleVoteRequest core sender req).core
      (f.handleVoteRequest core sender req).result.effects := by
  unfold handleVoteRequest
  dsimp only
  split_ifs with hgrant
  · -- the one place where a vote is granted
    rw [Bool.and_eq_true, Bool.and_eq_true] at hgrant
    have hfree : core.canVoteFor sender = true := hgrant.1.2
    have hmsg (m : Message) (hm : m ∈ [(core.voteFor sender).message sender
        (.voteResponse { granted := true })]) : m.term = core.term ∧ m.receiver = sender := by
      rw [List.mem_singleton.mp hm]
      exact ⟨rfl, rfl⟩
    refine ⟨rfl, le_rfl, ?_, ?_, ?_, ?_, ?_, fun _ => le_rfl⟩
    · intro _ c hc
      unfold Core.canVoteFor at hfree
      rw [hc] at hfree
      have : c = sender := by simpa using hfree
      rw [this]
      rfl
    · intro m hm _
      obtain ⟨hterm, hreceiver⟩ := hmsg m hm
      refine ⟨hterm.ge, hterm.le, fun _ => hreceiver ▸ hfree, fun _ => hreceiver ▸ rfl⟩
    · intro m hm m' hm' _ _ _
      rw [(hmsg m hm).2, (hmsg m' hm').2]
    · intro hp
      cases hp
    · intro _ hp
      cases hp
  · exact Evolves.sends (core.refuse_noGrants sender)

theorem handleAppendRequest_evolves (f : Follower) (core : Core) (sender : NodeId)
    (req : AppendRequest)
    (hsaves : saves → core.log.Contiguous ∧
      ∀ e ∈ req.entries, e.index = core.log.snapshotIndex → e.term = core.log.snapshotTerm)
    (hcommits : commits → accepts core.log req = true →
      core.commitIndex ≤ (appendEntries core.log req.entries).1.lastIndex) :
    Evolves saves commits core (f.handleAppendRequest core sender req).core
      (f.handleAppendRequest core sender req).result.effects := by
  have hcontact : Evolves saves commits core (f.contact core sender).2 Effects.none :=
    contact_evolves f core sender
  have hlog : (f.contact core sender).2.log = core.log := rfl
  have hindex : (f.contact core sender).2.commitIndex = core.commitIndex := rfl
  unfold handleAppendRequest
  dsimp only
  generalize (f.contact core sender).2 = core₁ at hcontact hlog hindex ⊢
  rw [hlog]
  by_cases hacc : accepts core.log req = true
  · rw [hacc]
    simp only [Bool.not_true, Bool.false_eq_true, if_false]
    have happend : Evolves saves commits core₁ (core₁.setLog (appendEntries core.log req.entries).1)
        (if (appendEntries core.log req.entries).2 = true then Effects.none.withPersist
          else Effects.none) := by
      cases hflag : (appendEntries core.log req.entries).2 with
      | true =>
        have hnone : Effects.none.withPersist.NoGrants := Effects.NoGrants.none
        exact Evolves.saving rfl le_rfl (fun _ _ hc => hc) (fun _ => le_rfl) rfl hnone
      | false =>
        refine ⟨rfl, le_rfl, fun _ _ hc => hc, ?_, ?_, fun _ => rfl, ?_, fun _ => le_rfl⟩
        · exact fun m hm => absurd hm List.not_mem_nil
        · exact fun m hm => absurd hm List.not_mem_nil
        · intro hs _
          rw [hlog]
          exact appendEntries_unsaved (hsaves hs).1 (hsaves hs).2 hflag
    have hcommit (msg : Message) (hmsg : msg.payload ≠ .voteResponse { granted := true }) :
        Evolves saves commits (core₁.setLog (appendEntries core.log req.entries).1)
        (if (core₁.setLog (appendEntries core.log req.entries).1).commitIndex < req.leaderCommit then
          (core₁.setLog (appendEntries core.log req.entries).1).setCommitIndex
            (min req.leaderCommit
              (core₁.setLog (appendEntries core.log req.entries).1).log.lastIndex)
        else core₁.setLog (appendEntries core.log req.entries).1) (Effects.none.withMessage msg) := by
      have hquiet := Effects.NoGrants.none.withMessage hmsg
      split_ifs with hlt
      · refine ⟨rfl, le_rfl, fun _ _ hc => hc, ?_, ?_, fun _ => rfl, fun _ _ => rfl, ?_⟩
        · exact fun m hm hg => absurd hg (hquiet m hm)
        · exact fun m hm _ _ hg => absurd hg (hquiet m hm)
        · intro hc
          have hle := hcommits hc hacc
          rw [← hindex] at hle
          exact le_min hlt.le hle
      · exact Evolves.sends hquiet
    have hall (msg : Message) (hmsg : msg.payload ≠ .voteResponse { granted := true }) :
        Evolves saves commits core
        (if (core₁.setLog (appendEntries core.log req.entries).1).commitIndex < req.leaderCommit then
          (core₁.setLog (appendEntries core.log req.entries).1).setCommitIndex
            (min req.leaderCommit
              (core₁.setLog (appendEntries core.log req.entries).1).log.lastIndex)
        else core₁.setLog (appendEntries core.log req.entries).1)
        ((if (appendEntries core.log req.entries).2 = true then Effects.none.withPersist
          else Effects.none).withMessage msg) := by
      refine ((hcontact.trans happend).trans (hcommit msg hmsg)).congr ?_ ?_
      · intro m hm
        simpa [Effects.merge, Effects.withMessage, Effects.none] using hm
      · intro hp
        simpa [Effects.merge, Effects.withMessage, Effects.none] using hp
    exact hall _ (by simp [Core.message])
  · rw [(Bool.not_eq_true _).mp hacc]
    simp only [Bool.not_false, if_true]
    exact (hcontact.trans (Evolves.sends (Effects.NoGrants.none.withMessage
      (by simp [Core.message])))).none_merge

theorem handleReadIndexRequest_evolves (f : Follower) (core : Core) (sender : NodeId)
    (req : ReadIndexRequest) :
    Evolves saves commits core (f.handleReadIndexRequest core sender req).core
      (f.handleReadIndexRequest core sender req).result.effects :=
  ((contact_evolves f core sender).trans (Evolves.sends (Effects.NoGrants.none.withMessage
    (by simp [Core.message])))).none_merge

theorem handleInstallSnapshot_evolves (f : Follower) (core : Core) (sender : NodeId)
    (req : InstallSnapshotRequest) :
    Evolves saves commits core (f.handleInstallSnapshot core sender req).core
      (f.handleInstallSnapshot core sender req).result.effects := by
  have hcontact : Evolves saves commits core (f.contact core sender).2 Effects.none :=
    contact_evolves f core sender
  unfold handleInstallSnapshot
  dsimp only
  generalize (f.contact core sender).2 = core₁ at hcontact ⊢
  split_ifs
  · exact (hcontact.trans (Evolves.sends (Effects.NoGrants.none.withMessage
      (by simp [Core.message])))).none_merge
  · exact (hcontact.trans (Evolves.sends (Effects.NoGrants.none.withMessage
      (by simp [Core.message])))).none_merge
  · have hall (core₂ : Core) (msg : Message) (hc : core₂.config = core₁.config)
        (hterm : core₂.term = core₁.term)
        (hvote : core₂.persistent.votedFor = core₁.persistent.votedFor)
        (hi : core₁.commitIndex ≤ core₂.commitIndex)
        (hmsg : msg.payload ≠ .voteResponse { granted := true }) :
        Evolves saves commits core core₂ (Effects.none.withPersist.withMessage msg) := by
      refine (hcontact.trans (Evolves.saving hc hterm.ge ?_ (fun _ => hi) rfl
        (Effects.NoGrants.none.withPersist.withMessage hmsg))).none_merge
      intro _ c hvoted
      rw [hvote, hvoted]
    exact hall _ _ rfl rfl rfl (le_max_left _ _) (by simp [Core.message])

/-- What the append requests of an event have to be like. -/
structure AppendOk (saves commits : Prop) (core : Core) (msg : Message) : Prop where
  saved : saves → core.log.Contiguous ∧ ∀ req, msg.payload = .appendRequest req →
    ∀ e ∈ req.entries, e.index = core.log.snapshotIndex → e.term = core.log.snapshotTerm
  reached : commits → ∀ req, msg.payload = .appendRequest req → core.term ≤ msg.term →
    accepts core.log req = true →
      core.commitIndex ≤ (appendEntries core.log req.entries).1.lastIndex

theorem handleCurrent_evolves (f : Follower) (core : Core) (msg : Message)
    (hok : AppendOk saves commits core msg) (hterm : core.term ≤ msg.term) :
    Evolves saves commits core (f.handleCurrent core msg).core
      (f.handleCurrent core msg).result.effects := by
  unfold handleCurrent
  split
  · exact handleVoteRequest_evolves f core msg.sender _
  · rename_i req hp
    exact handleAppendRequest_evolves f core msg.sender req
      (fun hs => ⟨(hok.saved hs).1, (hok.saved hs).2 req hp⟩)
      (fun hc => hok.reached hc req hp hterm)
  · exact handleReadIndexRequest_evolves f core msg.sender _
  · exact handleInstallSnapshot_evolves f core msg.sender _
  · exact Evolves.refl saves commits core
  · exact Evolves.refl saves commits core

theorem rejectStale_noGrants (core : Core) (msg : Message) : (rejectStale core msg).NoGrants := by
  unfold rejectStale
  split
  · exact Effects.NoGrants.none.withMessage (by simp [Core.message])
  · exact core.staleReply_noGrants msg

theorem observeTerm_core (f : Follower) (core : Core) (msg : Message) :
    (f.observeTerm core msg).2.persistent = (core.maybeUpdateTerm msg.term).1.persistent ∧
    (f.observeTerm core msg).2.config = (core.maybeUpdateTerm msg.term).1.config ∧
    (f.observeTerm core msg).2.commitIndex = (core.maybeUpdateTerm msg.term).1.commitIndex := by
  unfold observeTerm
  dsimp only
  split_ifs <;> exact ⟨rfl, rfl, rfl⟩

theorem handleMessage_evolves (f : Follower) (core : Core) (msg : Message)
    (hok : AppendOk saves commits core msg) :
    Evolves saves commits core (f.handleMessage core msg).core
      (f.handleMessage core msg).result.effects := by
  unfold handleMessage
  split
  · exact Evolves.sends (core.denyReply_noGrants msg)
  split
  · exact Evolves.sends (core.prevoteReply_noGrants _ _ _)
  by_cases hlt : core.term < msg.term
  · rw [if_pos hlt]
    obtain ⟨hp, hc, hi⟩ := observeTerm_core f core msg
    have hobserve : Evolves saves commits core (f.observeTerm core msg).2
        Effects.none.withPersist :=
      ((Evolves.observe hlt rfl Effects.NoGrants.none.withPersist).trans
        (Evolves.quiet hp hc hi Effects.NoGrants.none)).merge_none
    -- the log is the one from before
    rw [Core.maybeUpdateTerm_newer hlt] at hp hi
    have hlog : (f.observeTerm core msg).2.log = core.log := by
      rw [Core.log, hp]
      rfl
    have hterm : (f.observeTerm core msg).2.term = msg.term := by
      rw [Core.term, hp]
    have hok' : AppendOk saves commits (f.observeTerm core msg).2 msg := by
      refine ⟨?_, ?_⟩
      · rw [hlog]
        exact hok.saved
      · intro hcommits req hreq _
        rw [hlog, hi]
        exact hok.reached hcommits req hreq hlt.le
    refine (hobserve.trans (handleCurrent_evolves (f.observeTerm core msg).1
      (f.observeTerm core msg).2 msg hok' hterm.le)).congr ?_ (fun _ => rfl)
    intro m hm
    exact List.mem_append_right _ hm
  · rw [if_neg hlt]
    by_cases hgt : msg.term < core.term
    · rw [if_pos hgt]
      exact Evolves.sends (rejectStale_noGrants core msg)
    · rw [if_neg hgt]
      exact handleCurrent_evolves f core msg hok (by omega)

theorem step_evolves (f : Follower) (core : Core) (event : Event)
    (hok : ∀ msg, event = .message msg → AppendOk saves commits core msg) :
    Evolves saves commits core (f.step core event).core (f.step core event).result.effects := by
  cases event with
  | tick =>
    refine Evolves.quiet rfl rfl rfl ?_
    unfold step handleTick
    dsimp only
    split_ifs <;> exact Effects.NoGrants.none
  | diskWriteComplete index => exact Evolves.refl saves commits core
  | message msg => exact handleMessage_evolves f core msg (hok msg rfl)

end Follower

namespace PreCandidate
variable {saves commits : Prop}

theorem handleMessage_evolves (p : PreCandidate) (core : Core) (msg : Message) :
    Evolves saves commits core (p.handleMessage core msg).core
      (p.handleMessage core msg).result.effects := by
  unfold handleMessage
  split
  · exact Evolves.sends (core.denyReply_noGrants msg)
  split
  · rename_i hlt
    exact Evolves.observe hlt rfl Effects.NoGrants.none.withPersist
  split
  · unfold handlePrevoteResponse
    split
    · rename_i hlt
      exact Evolves.observe hlt rfl Effects.NoGrants.none.withPersist
    split
    · exact Evolves.refl saves commits core
    · refine Evolves.sends ?_
      dsimp only
      split_ifs <;> exact Effects.NoGrants.none
  · exact Evolves.refl saves commits core
  · exact Evolves.sends (core.prevoteReply_noGrants _ _ _)
  · exact Evolves.sends (core.refuse_noGrants _)
  · exact Evolves.refl saves commits core
  · exact Evolves.refl saves commits core

theorem step_evolves (p : PreCandidate) (core : Core) (event : Event) :
    Evolves saves commits core (p.step core event).core (p.step core event).result.effects := by
  cases event with
  | tick =>
    unfold step handleTick
    dsimp only
    split_ifs
    · exact Evolves.quiet rfl rfl rfl Effects.NoGrants.none
    · exact Evolves.quiet rfl rfl rfl Effects.NoGrants.none
    · exact Evolves.quiet rfl rfl rfl Effects.NoGrants.none
  | diskWriteComplete index => exact Evolves.refl saves commits core
  | message msg => exact handleMessage_evolves p core msg

/-- A pre-election touches nothing but the timeout generator. -/
theorem new_evolves (core : Core) :
    Evolves saves commits core (PreCandidate.new core).2.1 (PreCandidate.new core).2.2 := by
  unfold new
  dsimp only
  split_ifs
  · exact Evolves.quiet rfl rfl rfl Effects.NoGrants.none
  · refine Evolves.quiet rfl rfl rfl (Effects.NoGrants.none.withMessages ?_)
    intro m hm
    obtain ⟨peer, -, rfl⟩ := List.mem_map.mp hm
    simp [Core.message]

end PreCandidate

namespace Candidate
variable {saves commits : Prop}

theorem handleMessage_evolves (c : Candidate) (core : Core) (msg : Message) :
    Evolves saves commits core (c.handleMessage core msg).core
      (c.handleMessage core msg).result.effects := by
  unfold handleMessage
  split
  · exact Evolves.sends (core.denyReply_noGrants msg)
  split
  · exact Evolves.sends (core.prevoteReply_noGrants _ _ _)
  split
  · rename_i hlt
    exact Evolves.observe hlt rfl Effects.NoGrants.none.withPersist
  split
  · exact Evolves.sends (core.staleReply_noGrants msg)
  split
  · unfold handleVoteResponse
    split
    · exact Evolves.refl saves commits core
    · refine Evolves.sends ?_
      dsimp only
      split_ifs <;> exact Effects.NoGrants.none
  · exact Evolves.refl saves commits core
  · exact Evolves.sends (core.refuse_noGrants _)
  · exact Evolves.refl saves commits core
  · exact Evolves.refl saves commits core

theorem step_evolves (c : Candidate) (core : Core) (event : Event) :
    Evolves saves commits core (c.step core event).core (c.step core event).result.effects := by
  cases event with
  | tick =>
    unfold step handleTick
    dsimp only
    split_ifs
    · exact Evolves.quiet rfl rfl rfl Effects.NoGrants.none
    · exact Evolves.quiet rfl rfl rfl Effects.NoGrants.none
    · exact Evolves.quiet rfl rfl rfl Effects.NoGrants.none
  | diskWriteComplete index => exact Evolves.refl saves commits core
  | message msg => exact handleMessage_evolves c core msg

/-- An election raises the term by one. -/
theorem new_evolves (core : Core) :
    Evolves saves commits core (Candidate.new core).2.1 (Candidate.new core).2.2 := by
  have hvote : core.term + 1 = core.term → ∀ c, core.persistent.votedFor = some c →
      core.startElection.persistent.votedFor = some c := by
    intro heq
    omega
  unfold new
  dsimp only
  split_ifs
  · exact Evolves.saving rfl (Nat.le_succ _) hvote (fun _ => le_rfl) rfl
      Effects.NoGrants.none.withPersist
  · refine Evolves.saving rfl (Nat.le_succ _) hvote (fun _ => le_rfl) rfl
      (Effects.NoGrants.none.withPersist.withMessages ?_)
    intro m hm
    obtain ⟨peer, -, rfl⟩ := List.mem_map.mp hm
    simp [Core.message]

end Candidate
end BasisDB.Raft
