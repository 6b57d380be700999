import BasisDB.RaftEvolves
import BasisDB.RaftRefineCommit

/-! What one step of a leader, of a role transition and of a whole node can do to the core. -/
namespace BasisDB.Raft

namespace Leader
variable {saves commits : Prop} {core : Core}

theorem sendAppendTo_noGrants (l : Leader) (core : Core) (receiver : NodeId) :
    (l.sendAppendTo core receiver).2.NoGrants := by
  unfold sendAppendTo
  dsimp only
  split
  · exact Effects.NoGrants.none.withSendSnapshot _
  · exact Effects.NoGrants.none.withMessage (by simp [Core.message])

theorem broadcastAppend_noGrants (l : Leader) (core : Core) :
    (l.broadcastAppend core).2.NoGrants := by
  have hfold (peers : List NodeId) (acc : Leader × Effects) (hacc : acc.2.NoGrants) :
      (peers.foldl (sendAppends core) acc).2.NoGrants := by
    induction peers generalizing acc with
    | nil => exact hacc
    | cons peer peers ih => exact ih _ (hacc.merge (sendAppendTo_noGrants acc.1 core peer))
  exact hfold _ (l, Effects.none) Effects.NoGrants.none

theorem readIndexRequests_noGrants (core : Core) (pending : PendingReadIndex) :
    (readIndexRequests core pending).NoGrants := by
  refine Effects.NoGrants.none.withMessages ?_
  intro m hm
  obtain ⟨receiver, -, rfl⟩ := List.mem_map.mp hm
  simp [Core.message]

theorem tryAutoTransfer_noGrants (l : Leader) (core : Core) (cfg : Configuration) :
    (l.tryAutoTransfer core cfg).NoGrants := by
  simp only [tryAutoTransfer]
  split
  · split_ifs
    · exact Effects.NoGrants.none.withMessage (by simp [Core.message])
    · exact Effects.NoGrants.none
  · exact Effects.NoGrants.none

theorem new_noGrants (core : Core) : (Leader.new core).2.NoGrants := broadcastAppend_noGrants _ core

/-- An appended entry is always marked for saving. -/
theorem appendOwn_evolves (core : Core) (payload : EntryPayload) {eff : Effects}
    (hp : eff.persist = true) (hm : eff.NoGrants) :
    Evolves saves commits core (appendOwn core payload) eff :=
  Evolves.saving rfl le_rfl (fun _ _ hc => hc) (fun _ => le_rfl) hp hm

theorem setCommitIndex_evolves {i : ℕ} (hi : core.commitIndex ≤ i) :
    Evolves saves commits core (core.setCommitIndex i) Effects.none := by
  refine ⟨rfl, le_rfl, fun _ _ hc => hc, ?_, ?_, fun _ => rfl, fun _ _ => rfl, fun _ => hi⟩
  · exact fun m hm => absurd hm List.not_mem_nil
  · exact fun m hm => absurd hm List.not_mem_nil

theorem advanceCommitIndex_evolves (l : Leader) (core : Core) :
    Evolves saves commits core (l.advanceCommitIndex core) Effects.none := by
  rcases advanceCommitIndex_cases l core with heq | ⟨i, heq, hlt, -, -, -⟩
  · rw [heq]
    exact Evolves.refl saves commits core
  · rw [heq]
    exact setCommitIndex_evolves hlt.le

theorem maybeCommitLoop_evolves (fuel : ℕ) (l : Leader) (core : Core) (effects : Effects)
    {core₀ : Core} (h : Evolves saves commits core₀ core effects) :
    Evolves saves commits core₀ (maybeCommitLoop fuel l core effects).2.1
      (maybeCommitLoop fuel l core effects).2.2.1 := by
  induction fuel generalizing l core effects with
  | zero => exact h
  | succ fuel ih =>
    have hadv : Evolves saves commits core₀ (l.advanceCommitIndex core) effects :=
      (h.trans (advanceCommitIndex_evolves l core)).merge_none
    have hround := maybeCommitLoop_round fuel l core effects
    generalize maybeCommitLoop (fuel + 1) l core effects = r at hround
    cases hround with
    | unchanged => exact h
    | transition i idx e cfg target heq _ _ _ _ _ _ _ =>
      rw [heq] at hadv
      -- the new configuration is appended and sent to everyone
      have happ : Evolves saves commits (core.setCommitIndex i)
          (appendOwn (core.setCommitIndex i) (.config target)) _ :=
        appendOwn_evolves (core.setCommitIndex i) (.config target) rfl
          (broadcastAppend_noGrants (l.reinitProgress (appendOwn (core.setCommitIndex i)
            (.config target))) (appendOwn (core.setCommitIndex i) (.config target))).withPersist
      exact ih _ _ _ (hadv.trans happ)
    | stepDown i cfg heq _ =>
      rw [heq] at hadv
      exact hadv.trans (Evolves.sends (tryAutoTransfer_noGrants l _ cfg))
    | done i heq _ _ =>
      rw [heq] at hadv
      exact hadv

theorem maybeCommit_evolves (l : Leader) (core : Core) :
    Evolves saves commits core (l.maybeCommit core).2.1 (l.maybeCommit core).2.2.1 :=
  maybeCommitLoop_evolves _ l core Effects.none (Evolves.refl saves commits core)

theorem commitStep_evolves (l : Leader) (core : Core) :
    Evolves saves commits core (l.commitStep core).core (l.commitStep core).result.effects := by
  have heffects : (l.commitStep core).result.effects = (l.maybeCommit core).2.2.1 := by
    unfold commitStep
    dsimp only
    rw [apply_ite StepResult.effects]
    exact ite_self _
  rw [heffects]
  exact maybeCommit_evolves l core

theorem commitAndReplicate_evolves (l : Leader) {core core₀ : Core}
    (h : Evolves saves commits core₀ core Effects.none.withPersist) :
    Evolves saves commits core₀ (l.commitAndReplicate core).2.1
      (l.commitAndReplicate core).2.2.1 := by
  have hcommit : Evolves saves commits core (l.maybeCommit core).2.1 (l.maybeCommit core).2.2.1 :=
    maybeCommit_evolves l core
  have hsend : Evolves saves commits (l.maybeCommit core).2.1 (l.maybeCommit core).2.1
      ((l.maybeCommit core).1.broadcastAppend (l.maybeCommit core).2.1).2 :=
    Evolves.sends (broadcastAppend_noGrants _ _)
  refine ((h.trans hcommit).trans hsend).congr ?_ (fun _ => rfl)
  intro m hm
  simp only [commitAndReplicate, Effects.merge, Effects.withPersist, Effects.none,
    List.mem_append] at hm ⊢
  tauto

theorem propose_evolves (l : Leader) (core : Core) (cmd : Command) :
    Evolves saves commits core (l.propose core cmd).2.2.1 (l.propose core cmd).2.2.2.1 :=
  commitAndReplicate_evolves _ (appendOwn_evolves core (.command cmd) rfl
    Effects.NoGrants.none.withPersist)

theorem proposeConfigChange_evolves {l : Leader} {change : ConfigChange}
    {res : ℕ × Leader × Core × Effects × Bool} (h : l.proposeConfigChange core change = .ok res) :
    Evolves saves commits core res.2.2.1 res.2.2.2.1 := by
  obtain ⟨-, -, rfl⟩ := proposeConfigChange_ok h
  exact commitAndReplicate_evolves _ (appendOwn_evolves core _ rfl
    Effects.NoGrants.none.withPersist)

theorem handleAppendResponse_evolves (l : Leader) (core : Core) (sender : NodeId)
    (resp : AppendResponse) : Evolves saves commits core (l.handleAppendResponse core sender resp).core
      (l.handleAppendResponse core sender resp).result.effects := by
  unfold handleAppendResponse
  split
  · exact Evolves.refl saves commits core
  split
  · exact commitStep_evolves _ core
  · exact Evolves.sends (sendAppendTo_noGrants _ core sender)

theorem handleInstallSnapshotResponse_evolves (l : Leader) (core : Core) (sender : NodeId)
    (resp : InstallSnapshotResponse) :
    Evolves saves commits core (l.handleInstallSnapshotResponse core sender resp).core
      (l.handleInstallSnapshotResponse core sender resp).result.effects := by
  unfold handleInstallSnapshotResponse
  split
  · exact Evolves.refl saves commits core
  split
  · exact Evolves.refl saves commits core
  · exact commitStep_evolves _ core

theorem handleMessage_evolves (l : Leader) (core : Core) (msg : Message) :
    Evolves saves commits core (l.handleMessage core msg).core
      (l.handleMessage core msg).result.effects := by
  unfold handleMessage
  split
  · exact Evolves.sends (Effects.NoGrants.none.withMessage (by simp [Core.message]))
  split
  · rename_i hlt
    exact Evolves.observe hlt rfl Effects.NoGrants.none.withPersist
  split
  · exact Evolves.sends (core.staleReply_noGrants msg)
  split
  · exact handleAppendResponse_evolves l core _ _
  · exact handleInstallSnapshotResponse_evolves l core _ _
  · exact Evolves.refl saves commits core
  · exact Evolves.sends (core.refuse_noGrants _)
  · exact Evolves.refl saves commits core

theorem step_evolves (l : Leader) (core : Core) (event : Event) :
    Evolves saves commits core (l.step core event).core (l.step core event).result.effects := by
  cases event with
  | tick =>
    unfold step handleTick
    dsimp only
    split_ifs
    · refine Evolves.quiet rfl rfl rfl ?_
      dsimp only [StepResult.stay]
      split
      · exact (broadcastAppend_noGrants _ _).merge (readIndexRequests_noGrants _ _)
      · exact broadcastAppend_noGrants _ _
    · exact Evolves.quiet rfl rfl rfl Effects.NoGrants.none
  | diskWriteComplete index =>
    unfold step handleDiskWriteComplete
    dsimp only
    split_ifs
    · exact commitStep_evolves _ core
    · exact Evolves.refl saves commits core
  | message msg => exact handleMessage_evolves l core msg

theorem requestReadIndex_noGrants {l l' : Leader} {readIndex : ℕ} {eff : Effects}
    (h : l.requestReadIndex core = .ok (readIndex, eff, l')) : eff.NoGrants := by
  unfold requestReadIndex at h
  cases hpend : l.pendingReadIndex with
  | some p =>
    rw [hpend] at h
    cases h
  | none =>
    simp only [hpend] at h
    split_ifs at h
    · simp only [Except.ok.injEq, Prod.mk.injEq] at h
      obtain ⟨-, rfl, -⟩ := h
      exact Effects.NoGrants.none
    · simp only [Except.ok.injEq, Prod.mk.injEq] at h
      obtain ⟨-, rfl, -⟩ := h
      exact readIndexRequests_noGrants _ _

end Leader

namespace RaftNode
variable {saves commits : Prop} {n : RaftNode}

theorem becomeLeader_evolves (core : Core) :
    Evolves saves commits core (becomeLeader core).1.core (becomeLeader core).2 :=
  Evolves.sends (Leader.new_noGrants core)

theorem becomeCandidate_evolves (core : Core) :
    Evolves saves commits core (becomeCandidate core).1.core (becomeCandidate core).2 := by
  have hnew : Evolves saves commits core (Candidate.new core).2.1 (Candidate.new core).2.2 :=
    Candidate.new_evolves core
  unfold becomeCandidate
  dsimp only
  split_ifs
  · exact hnew.trans (becomeLeader_evolves _)
  · exact hnew

theorem becomePreCandidate_evolves (core : Core) :
    Evolves saves commits core (becomePreCandidate core).1.core (becomePreCandidate core).2 := by
  have hnew : Evolves saves commits core (PreCandidate.new core).2.1 (PreCandidate.new core).2.2 :=
    PreCandidate.new_evolves core
  unfold becomePreCandidate
  dsimp only
  split_ifs
  · exact hnew.trans (becomeCandidate_evolves _)
  · exact hnew

theorem applyTransition_evolves (n : RaftNode) (t : Transition) :
    Evolves saves commits n.core (n.applyTransition t).1.core (n.applyTransition t).2 := by
  cases t with
  | stay => exact Evolves.refl saves commits n.core
  | toFollower leader => exact Evolves.quiet rfl rfl rfl Effects.NoGrants.none
  | toFollowerAfterContact leader => exact Evolves.quiet rfl rfl rfl Effects.NoGrants.none
  | toPreCandidate => exact becomePreCandidate_evolves n.core
  | toCandidate => exact becomeCandidate_evolves n.core
  | toLeader => exact becomeLeader_evolves n.core

/-- A role's step, and the transition it asks for. -/
theorem settle_evolves (n : RaftNode) {core : Core} (result : StepResult)
    (h : Evolves saves commits core n.core result.effects) :
    Evolves saves commits core (n.settle result).1.core (n.settle result).2 := by
  unfold settle
  cases ht : result.transition with
  | stay => exact h
  | toFollower _ | toFollowerAfterContact _ | toPreCandidate | toCandidate | toLeader =>
    exact h.trans (applyTransition_evolves n _)

theorem stepEvent_evolves (n : RaftNode) (event : Event)
    (hok : ∀ f msg, n.role = .follower f → event = .message msg →
      Follower.AppendOk saves commits n.core msg) :
    Evolves saves commits n.core (n.stepEvent event).1.core (n.stepEvent event).2 := by
  unfold stepEvent
  cases hr : n.role with
  | follower f =>
    exact settle_evolves _ _ (Follower.step_evolves f n.core event (fun msg => hok f msg hr))
  | preCandidate p => exact settle_evolves _ _ (PreCandidate.step_evolves p n.core event)
  | candidate c => exact settle_evolves _ _ (Candidate.step_evolves c n.core event)
  | leader l => exact settle_evolves _ _ (Leader.step_evolves l n.core event)

theorem afterProposal_core (l : Leader) (core : Core) (down : Bool) :
    (afterProposal l core down).core.persistent = core.persistent ∧
    (afterProposal l core down).core.config = core.config ∧
    (afterProposal l core down).core.commitIndex = core.commitIndex := by
  unfold afterProposal
  split_ifs <;> exact ⟨rfl, rfl, rfl⟩

theorem Evolves.afterProposal {core core' : Core} {eff : Effects}
    (h : Evolves saves commits core core' eff) (l : Leader) (down : Bool) :
    Evolves saves commits core (afterProposal l core' down).core eff := by
  obtain ⟨hp, hc, hi⟩ := afterProposal_core l core' down
  exact (h.trans (Evolves.quiet hp hc hi Effects.NoGrants.none)).merge_none

theorem propose_evolves {cmd : Command} {index : ℕ} {eff : Effects} {n' : RaftNode}
    (h : n.propose cmd = .ok (index, eff, n')) : Evolves saves commits n.core n'.core eff := by
  unfold propose at h
  cases hr : n.role with
  | leader l =>
    simp only [hr] at h
    split_ifs at h
    simp only [Except.ok.injEq, Prod.mk.injEq] at h
    obtain ⟨-, rfl, rfl⟩ := h
    exact Evolves.afterProposal (Leader.propose_evolves l n.core cmd) _ _
  | follower f | preCandidate p | candidate c =>
    simp only [hr] at h
    cases h

theorem proposeConfigChange_evolves {change : ConfigChange} {index : ℕ} {eff : Effects}
    {n' : RaftNode} (h : n.proposeConfigChange change = .ok (index, eff, n')) :
    Evolves saves commits n.core n'.core eff := by
  unfold proposeConfigChange at h
  cases hr : n.role with
  | leader l =>
    simp only [hr, bind, Except.bind, pure, Except.pure] at h
    cases hres : l.proposeConfigChange n.core change with
    | error e =>
      rw [hres] at h
      cases h
    | ok res =>
      rw [hres] at h
      simp only [Except.ok.injEq, Prod.mk.injEq] at h
      obtain ⟨-, rfl, rfl⟩ := h
      exact Evolves.afterProposal (Leader.proposeConfigChange_evolves hres) _ _
  | follower f | preCandidate p | candidate c =>
    simp only [hr] at h
    cases h

theorem requestReadIndex_evolves {readIndex : ℕ} {eff : Effects} {n' : RaftNode}
    (h : n.requestReadIndex = .ok (readIndex, eff, n')) :
    Evolves saves commits n.core n'.core eff := by
  unfold requestReadIndex at h
  cases hr : n.role with
  | leader l =>
    simp only [hr, bind, Except.bind, pure, Except.pure] at h
    cases hres : l.requestReadIndex n.core with
    | error e =>
      rw [hres] at h
      cases h
    | ok res =>
      rw [hres] at h
      simp only [Except.ok.injEq, Prod.mk.injEq] at h
      obtain ⟨-, rfl, rfl⟩ := h
      exact Evolves.sends (Leader.requestReadIndex_noGrants hres)
  | follower f | preCandidate p | candidate c =>
    simp only [hr] at h
    cases h

theorem transferLeadership_evolves {target : NodeId} {eff : Effects}
    (h : n.transferLeadership target = .ok eff) : Evolves saves commits n.core n.core eff := by
  unfold transferLeadership at h
  cases hr : n.role with
  | leader l =>
    simp only [hr, Leader.transferLeadership] at h
    split_ifs at h
    rw [Except.ok.injEq] at h
    rw [← h]
    exact Evolves.sends (Effects.NoGrants.none.withMessage (by simp [Core.message]))
  | follower f | preCandidate p | candidate c =>
    simp only [hr] at h
    cases h

end RaftNode
end BasisDB.Raft
