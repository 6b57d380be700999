import BasisDB.RaftRefineCommit
import BasisDB.RaftCluster

/-! Refinement for whole nodes and for the cluster: every action of a run is a
sequence of protocol steps, and what is on disk is what the node holds. -/
namespace BasisDB.Raft

section Transitions
variable {g : Guards} {net : Set Message} {core core' : Core} {r : RoleView}

theorem becomeLeader_carries {votes : OrdSet NodeId} (h0 : core.log.snapshotIndex = 0)
    (hq : core.effectiveConfig.hasQuorum (fun p => votes.contains p) = true) :
    Carries g net core (.candidate votes) (RaftNode.becomeLeader core).1.core
      (RaftNode.becomeLeader core).1.role.view (RaftNode.becomeLeader core).2 := by
  obtain ⟨hmatch, hid, hpend, hconf, hsends⟩ := Leader.new_spec h0
  have hwin : Carries g net core (.candidate votes) core (.leader (Leader.new core).1.view)
      Effects.none := by
    refine Carries.single ?_ (fun _ => rfl) rfl
    rw [Effects.sent_none]
    exact Micro.win (v := core.view (.candidate votes)) votes _ rfl hq hmatch hid hpend hconf
  exact (hwin.trans (hsends.carries _)).none_merge

theorem candidateNew_carries (r : RoleView) :
    Carries g net core r (Candidate.new core).2.1 (.candidate (Candidate.new core).1.votes)
      (Candidate.new core).2.2 := by
  have hcampaign : Carries g net core r (core.startElection.randomElectionTimeout).1
      (.candidate (core.startElection.randomElectionTimeout).1.ownVote)
      Effects.none.withPersist := by
    refine Carries.single ?_ (fun h => absurd h (by simp [Effects.withPersist])) rfl
    rw [Effects.sent_withPersist, Effects.sent_none]
    exact Micro.campaign
  simp only [Candidate.new]
  split_ifs
  · exact hcampaign
  · refine hcampaign.withMessages ?_
    intro m hm net
    rw [List.mem_map] at hm
    obtain ⟨peer, -, rfl⟩ := hm
    exact ⟨rfl, rfl, ⟨_, rfl⟩, rfl, rfl⟩

theorem becomeCandidate_carries (r : RoleView) (h0 : core.log.snapshotIndex = 0) :
    Carries g net core r (RaftNode.becomeCandidate core).1.core
      (RaftNode.becomeCandidate core).1.role.view (RaftNode.becomeCandidate core).2 := by
  have hnew : Carries g net core r (Candidate.new core).2.1
      (.candidate (Candidate.new core).1.votes) (Candidate.new core).2.2 := candidateNew_carries r
  have hlog : (Candidate.new core).2.1.log = core.log := by
    simp only [Candidate.new]
    split_ifs <;> rfl
  simp only [RaftNode.becomeCandidate]
  split_ifs with hq
  · exact hnew.trans (becomeLeader_carries (hlog ▸ h0) hq)
  · exact hnew

theorem preCandidateNew_carries (r : RoleView) :
    Carries g net core r (PreCandidate.new core).2.1 .follower (PreCandidate.new core).2.2 := by
  have hsame : Carries g net core r (core.randomElectionTimeout).1 .follower Effects.none :=
    (Carries.stepDown g net core r).relax rfl rfl rfl
  simp only [PreCandidate.new]
  split_ifs
  · exact hsame
  · refine hsame.withMessages ?_
    intro m hm net
    rw [List.mem_map] at hm
    obtain ⟨peer, -, rfl⟩ := hm
    exact ⟨rfl, trivial⟩

theorem becomePreCandidate_carries (r : RoleView) (h0 : core.log.snapshotIndex = 0) :
    Carries g net core r (RaftNode.becomePreCandidate core).1.core
      (RaftNode.becomePreCandidate core).1.role.view (RaftNode.becomePreCandidate core).2 := by
  have hnew : Carries g net core r (PreCandidate.new core).2.1 .follower
      (PreCandidate.new core).2.2 := preCandidateNew_carries r
  have hlog : (PreCandidate.new core).2.1.log = core.log := by
    simp only [PreCandidate.new]
    split_ifs <;> rfl
  simp only [RaftNode.becomePreCandidate]
  split_ifs with hq
  · exact hnew.trans (becomeCandidate_carries _ (hlog ▸ h0))
  · exact hnew

theorem followerOf_carries (r : RoleView) (leader : Option NodeId) :
    Carries g net core r (RaftNode.followerOf core leader).core
      (RaftNode.followerOf core leader).role.view Effects.none :=
  (Carries.stepDown g net core r).relax rfl rfl rfl

/-- Carrying out the transition a step asks for. -/
theorem settle_carries {boot : Configuration} {role : RoleState} {result : StepResult}
    (hv : (core.view r).Formed boot) (hnet : ∀ m ∈ net, m.Formed)
    (h : Settles g net core r role.view core' result) :
    Carries g net core r (RaftNode.settle { core := core', role := role } result).1.core
      (RaftNode.settle { core := core', role := role } result).1.role.view
      (RaftNode.settle { core := core', role := role } result).2 := by
  obtain ⟨r', hc, hstay, hlead⟩ := h
  have h0 : core'.log.snapshotIndex = 0 := (hc.steps.formed hv hnet).1.plain.snapshotIndex
  unfold RaftNode.settle
  cases ht : result.transition with
  | stay =>
    rw [hstay ht] at hc
    exact hc
  | toFollower leader => exact hc.trans (followerOf_carries r' leader)
  | toFollowerAfterContact leader => exact hc.trans (followerOf_carries r' leader)
  | toPreCandidate => exact hc.trans (becomePreCandidate_carries r' h0)
  | toCandidate => exact hc.trans (becomeCandidate_carries r' h0)
  | toLeader =>
    obtain ⟨votes, rfl, hq⟩ := hlead ht
    exact hc.trans (becomeLeader_carries h0 hq)

end Transitions

namespace RaftNode

/-- What a node needs to know before it takes part in a step. -/
structure Ready (boot : Configuration) (net : Set Message) (n : RaftNode) : Prop where
  formed : n.view.Formed boot
  net_formed : ∀ m ∈ net, m.Formed

variable {g : Guards} {boot : Configuration} {net : Set Message} {n : RaftNode}

theorem Ready.leader_term (h : n.Ready boot net) {l : Leader} (hr : n.role = .leader l) :
    0 < n.core.term := by
  refine h.formed.term_pos ?_
  simp [view, Core.view, hr, RoleState.view]

theorem isLeader_of_role {l : Leader} (hr : n.role = .leader l) : n.isLeader = true := by
  simp [isLeader, hr, RoleState.isLeader]

theorem tick_carries (h : n.Ready boot net) :
    Carries g net n.core n.role.view n.tick.1.core n.tick.1.role.view n.tick.2 := by
  have hv := h.formed
  unfold tick stepEvent
  rw [view] at hv
  cases hr : n.role with
  | follower f =>
    rw [hr] at hv
    exact settle_carries hv h.net_formed (f.handleTick_settles g net n.core)
  | preCandidate p =>
    rw [hr] at hv
    exact settle_carries hv h.net_formed (p.handleTick_settles g net n.core)
  | candidate c =>
    rw [hr] at hv
    exact settle_carries hv h.net_formed (c.handleTick_settles g net n.core)
  | leader l =>
    rw [hr] at hv
    exact settle_carries hv h.net_formed
      (l.handleTick_settles g net n.core hv.plain.snapshotIndex)

theorem step_carries (h : n.Ready boot net) {msg : Message} (hd : Delivery g net n.core msg)
    (hg : ∀ f req, n.role = .follower f → msg.payload = .appendRequest req → n.term ≤ msg.term →
      Follower.accepts n.log req = true → g.absorb msg n.log)
    (hcross : ∀ resp, msg.payload = .appendResponse resp → resp.success = true →
      msg.term = n.term → n.isLeader = true → Leader.Crossable g n.log n.commitIndex) :
    Carries g net n.core n.role.view (n.step msg).1.core (n.step msg).1.role.view
      (n.step msg).2 := by
  have hv := h.formed
  unfold step stepEvent
  rw [view] at hv
  cases hr : n.role with
  | follower f =>
    rw [hr] at hv
    exact settle_carries hv h.net_formed (f.handleMessage_settles hd (hg f · hr))
  | preCandidate p =>
    rw [hr] at hv
    exact settle_carries hv h.net_formed (p.handleMessage_settles msg)
  | candidate c =>
    rw [hr] at hv
    exact settle_carries hv h.net_formed (c.handleMessage_settles hd)
  | leader l =>
    rw [hr] at hv
    exact settle_carries hv h.net_formed (l.handleMessage_settles hd (h.leader_term hr)
      (fun resp hp hs ht => hcross resp hp hs ht (isLeader_of_role hr)))

theorem diskWriteComplete_carries (h : n.Ready boot net)
    (hcross : n.isLeader = true → Leader.Crossable g n.log n.commitIndex) (index : ℕ) :
    Carries g net n.core n.role.view (n.diskWriteComplete index).1.core
      (n.diskWriteComplete index).1.role.view (n.diskWriteComplete index).2 := by
  have hv := h.formed
  unfold diskWriteComplete stepEvent
  rw [view] at hv
  cases hr : n.role with
  | follower f | preCandidate p | candidate c =>
    rw [hr] at hv
    exact settle_carries hv h.net_formed (Settles.stay (Carries.refl g net n.core _))
  | leader l =>
    rw [hr] at hv
    exact settle_carries hv h.net_formed (l.handleDiskWriteComplete_settles hv.plain
      (h.leader_term hr) (hcross (isLeader_of_role hr)) index)

/-- A removed leader steps down after its own proposal. -/
theorem afterProposal_carries {core core' : Core} {r : RoleView} {l : Leader} {eff : Effects}
    (h : Carries g net core r core' (.leader l.view) eff) (stepDown : Bool) :
    Carries g net core r (afterProposal l core' stepDown).core
      (afterProposal l core' stepDown).role.view eff := by
  unfold afterProposal
  split_ifs
  · exact (h.trans (followerOf_carries _ none)).merge_none
  · exact h

theorem propose_carries (h : n.Ready boot net)
    (hcross : n.isLeader = true → Leader.Crossable g n.log n.commitIndex) {cmd : Command}
    (hg : g.command { term := n.term, index := n.log.lastIndex + 1, payload := .command cmd })
    {index : ℕ} {eff : Effects} {n' : RaftNode} (hp : n.propose cmd = .ok (index, eff, n')) :
    Carries g net n.core n.role.view n'.core n'.role.view eff := by
  unfold propose at hp
  split at hp
  · rename_i l hr
    split_ifs at hp
    simp only [Except.ok.injEq, Prod.mk.injEq] at hp
    obtain ⟨-, rfl, rfl⟩ := hp
    rw [hr]
    exact afterProposal_carries (l.propose_carries h.formed.plain (h.leader_term hr)
      (hcross (isLeader_of_role hr)) cmd hg) _
  · cases hp

theorem proposeConfigChange_carries (h : n.Ready boot net) {change : ConfigChange} {index : ℕ}
    {eff : Effects} {n' : RaftNode} (hp : n.proposeConfigChange change = .ok (index, eff, n'))
    (hg : g.reconfig) (hrule : g.strict → n.core.config.membershipMode = g.mode ∧
      (Leader.currentTermCommitIndex n.core).isSome = true) :
    Carries g net n.core n.role.view n'.core n'.role.view eff := by
  unfold proposeConfigChange at hp
  split at hp
  · rename_i l hr
    cases hl : l.proposeConfigChange n.core change with
    | error e =>
      rw [hl] at hp
      cases hp
    | ok res =>
      rw [hl] at hp
      simp only [bind, Except.bind, pure, Except.pure, Except.ok.injEq, Prod.mk.injEq] at hp
      obtain ⟨-, rfl, rfl⟩ := hp
      rw [hr]
      exact afterProposal_carries (Leader.proposeConfigChange_carries hl h.formed.plain
        (h.leader_term hr) hg (fun hs => (hrule hs).imp_right
          (fun hown => Leader.termCommitted_of_isSome _ hown))) _
  · cases hp

theorem requestReadIndex_carries {readIndex : ℕ} {eff : Effects} {n' : RaftNode}
    (hp : n.requestReadIndex = .ok (readIndex, eff, n')) :
    Carries g net n.core n.role.view n'.core n'.role.view eff := by
  unfold requestReadIndex at hp
  split at hp
  · rename_i l hr
    cases hl : l.requestReadIndex n.core with
    | error e =>
      rw [hl] at hp
      cases hp
    | ok res =>
      rw [hl] at hp
      simp only [bind, Except.bind, pure, Except.pure, Except.ok.injEq, Prod.mk.injEq] at hp
      obtain ⟨-, rfl, rfl⟩ := hp
      rw [hr]
      exact Leader.requestReadIndex_carries hl
  · cases hp

theorem transferLeadership_carries {target : NodeId} {eff : Effects}
    (hp : n.transferLeadership target = .ok eff) :
    Carries g net n.core n.role.view n.core n.role.view eff := by
  unfold transferLeadership at hp
  split at hp
  · rename_i l hr
    unfold Leader.transferLeadership at hp
    split_ifs at hp
    rw [Except.ok.injEq] at hp
    subst hp
    exact Carries.emit ⟨rfl, trivial⟩
  · cases hp

end RaftNode
end BasisDB.Raft
