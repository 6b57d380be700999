import BasisDB.RaftSolo

/-! What makes a node campaign: the timeouts and messages on which each role asks for an
election or a pre-election, and why our own pre-vote is no quorum. -/
namespace BasisDB.Raft

namespace Configuration

/-- A majority that only one node can be part of. -/
theorem majority_single {set : OrdSet NodeId} {hasVote : NodeId → Bool} {me : NodeId}
    (hme : ∀ v, hasVote v = true → v = me) (h : majority set hasVote = true) :
    set.toList = [me] := by
  have hlt : set.toList.length / 2 < (set.toList.filter hasVote).length := of_decide_eq_true h
  -- voters differ from each other, so at most one of them has the vote
  have hone : (set.toList.filter hasVote).length ≤ 1 := by
    have hsub : set.toList.filter hasVote ⊆ [me] := by
      intro v hv
      rw [List.mem_singleton]
      exact hme v (List.mem_filter.mp hv).2
    exact List.Subperm.length_le ((set.nodup.filter _).subperm hsub)
  have hsome : 0 < (set.toList.filter hasVote).length := by omega
  obtain ⟨v, hv⟩ := List.exists_mem_of_length_pos hsome
  obtain ⟨hmem, hvote⟩ := List.mem_filter.mp hv
  have hlen : set.toList.length = 1 := by
    have hpos := List.length_pos_of_mem hmem
    omega
  obtain ⟨w, hw⟩ := List.length_eq_one_iff.mp hlen
  rw [hw, List.mem_singleton] at hmem
  rw [hw, ← hmem, hme v hvote]

/-- Where one node alone is a quorum, there is no other voter. -/
theorem hasQuorum_single {c : Configuration} {hasVote : NodeId → Bool} {me : NodeId}
    (hme : ∀ v, hasVote v = true → v = me) (h : c.hasQuorum hasVote = true) :
    c.voterCount = 1 := by
  cases c with
  | simple voters learners =>
    show voters.toList.length = 1
    rw [majority_single hme h]
    rfl
  | joint old new learners =>
    obtain ⟨hold, hnew⟩ := Bool.and_eq_true_iff.mp h
    have hcontains : old.contains me = true := by
      rw [OrdSet.contains_iff, OrdSet.mem_def, majority_single hme hold]
      exact List.mem_singleton_self me
    show old.toList.length + (new.toList.filter (fun id => !old.contains id)).length = 1
    rw [majority_single hme hold, majority_single hme hnew]
    simp [hcontains]

end Configuration

namespace Core

theorem effectiveConfig_congr {core core' : Core} (h : core'.persistent = core.persistent) :
    core'.effectiveConfig = core.effectiveConfig := by
  simp only [effectiveConfig, configAt, h]

theorem mem_ownVote {core : Core} {v : NodeId} (h : v ∈ core.ownVote) : v = core.id := by
  unfold ownVote at h
  split_ifs at h
  · exact (OrdSet.mem_singleton _ _).mp h
  · exact absurd h (OrdSet.not_mem_empty v)

/-- With more than one voter our own vote is no quorum. -/
theorem ownVote_no_quorum {core : Core} (h : 1 < core.effectiveConfig.voterCount) :
    core.effectiveConfig.hasQuorum (fun v => core.ownVote.contains v) = false := by
  by_contra hq
  rw [Bool.not_eq_false] at hq
  have hme (v : NodeId) (hv : core.ownVote.contains v = true) : v = core.id :=
    mem_ownVote ((OrdSet.contains_iff _ _).mp hv)
  have hone := Configuration.hasQuorum_single hme hq
  omega

end Core

theorem PreCandidate.new_preVotes (core : Core) :
    (PreCandidate.new core).1.preVotes = (PreCandidate.new core).2.1.ownVote := by
  unfold PreCandidate.new
  dsimp only
  split_ifs <;> rfl

/-- With more than one voter a pre-election is not won by starting it. -/
theorem PreCandidate.new_no_quorum {core : Core} (h : 1 < core.effectiveConfig.voterCount) :
    (PreCandidate.new core).1.hasQuorum (PreCandidate.new core).2.1 = false := by
  have hsame := Core.effectiveConfig_congr (RaftNode.preCandidate_new_core core).1
  rw [hasQuorum, new_preVotes]
  apply Core.ownVote_no_quorum
  rw [hsame]
  exact h

namespace RaftNode
variable {n : RaftNode} {event : Event}

/-- The tick on which a node starts an election by itself: as a candidate whose election
timed out. -/
def restartsElection (n : RaftNode) : Event → Bool
  | .tick =>
    match n.role with
    | .candidate c => c.timesOut n.core
    | _ => false
  | _ => false

/-- The message on which a node starts an election. -/
def AskedBy (n : RaftNode) (msg : Message) : Prop :=
  msg.payload = .timeoutNow ∨ ∃ p, n.role = .preCandidate p ∧ p.Completes n.core msg

/-- A role's own part of a tick only moves the clock and the timeout generator. -/
theorem roleStep_tick (n : RaftNode) : (n.roleStep .tick).1.persistent = n.persistent := by
  unfold roleStep
  cases n.role with
  | follower f => rfl
  | preCandidate p =>
    show (p.handleTick n.core).core.persistent = n.core.persistent
    unfold PreCandidate.handleTick
    dsimp only
    split_ifs <;> rfl
  | candidate c =>
    show (c.handleTick n.core).core.persistent = n.core.persistent
    unfold Candidate.handleTick
    dsimp only
    split_ifs <;> rfl
  | leader l =>
    show (l.handleTick n.core).core.persistent = n.core.persistent
    unfold Leader.handleTick
    dsimp only
    split_ifs <;> rfl

/-- With pre-votes on, the transitions that lead to an election or to a pre-election. -/
theorem roleStep_asks (hprevote : n.core.config.prevote = true) (event : Event) :
    ((n.roleStep event).2 = .toCandidate →
      (∃ msg, event = .message msg ∧ n.AskedBy msg) ∨ n.restartsElection event = true) ∧
    ((n.roleStep event).2 = .toPreCandidate → event = .tick) := by
  unfold roleStep
  cases hr : n.role with
  | follower f =>
    rcases f.step_asks n.core event with hstay | ⟨hcand, msg, hevent, hnow⟩ | ⟨htick, hasks⟩
    · exact ⟨fun h => absurd (hstay.symm.trans h) nofun, fun h => absurd (hstay.symm.trans h) nofun⟩
    · exact ⟨fun _ => Or.inl ⟨msg, hevent, Or.inl hnow⟩, fun h => absurd (hcand.symm.trans h) nofun⟩
    · rw [if_pos hprevote] at hasks
      exact ⟨fun h => absurd (hasks.symm.trans h) nofun, fun _ => htick⟩
  | preCandidate p =>
    obtain ⟨hcand, hpre⟩ := p.step_asks n.core event
    refine ⟨?_, hpre⟩
    intro h
    obtain ⟨msg, hevent, hasked⟩ := hcand h
    exact Or.inl ⟨msg, hevent, hasked.imp_right (fun hc => ⟨p, hr, hc⟩)⟩
  | candidate c =>
    obtain ⟨hcand, hpre⟩ := c.step_asks n.core event
    refine ⟨?_, fun h => absurd h hpre⟩
    intro h
    rcases hcand h with ⟨msg, hevent, hnow⟩ | ⟨rfl, hout⟩
    · exact Or.inl ⟨msg, hevent, Or.inl hnow⟩
    · right
      rw [restartsElection, hr]
      exact hout
  | leader l =>
    rcases l.step_remains n.core event with hstay | ⟨leader, hdown⟩
    · exact ⟨fun h => absurd (hstay.symm.trans h) nofun, fun h => absurd (hstay.symm.trans h) nofun⟩
    · exact ⟨fun h => absurd (hdown.symm.trans h) nofun, fun h => absurd (hdown.symm.trans h) nofun⟩

/-- With pre-votes and more than one voter, a node starts an election on a message, or as a
candidate whose election timed out. -/
theorem electionIn_asks {core : Core} (hprevote : n.core.config.prevote = true)
    (hvoters : 1 < n.core.effectiveConfig.voterCount) (h : n.electionIn event = some core) :
    (∃ msg, event = .message msg ∧ n.AskedBy msg) ∨ n.restartsElection event = true := by
  obtain ⟨hcand, hpre⟩ := roleStep_asks hprevote event
  unfold electionIn at h
  cases ht : (n.roleStep event).2 with
  | toCandidate => exact hcand ht
  | toPreCandidate =>
    -- a pre-election starts on a tick, and is not won by our own pre-vote
    obtain rfl := hpre ht
    have hsame := Core.effectiveConfig_congr (roleStep_tick n)
    have hno : (PreCandidate.new (n.roleStep .tick).1).1.hasQuorum
        (PreCandidate.new (n.roleStep .tick).1).2.1 = false :=
      PreCandidate.new_no_quorum (by rw [hsame]; exact hvoters)
    rw [ht] at h
    simp only [Core.electionBy, hno] at h
    cases h
  | stay | toFollower _ | toFollowerAfterContact _ | toLeader =>
    rw [ht] at h
    cases h

/-- A candidate whose election timed out does start the next one. -/
theorem electionIn_restarts (h : n.restartsElection event = true) :
    (n.electionIn event).isSome = true := by
  cases event with
  | tick =>
    cases hr : n.role with
    | candidate c =>
      rw [restartsElection, hr] at h
      have ht : (n.roleStep .tick).2 = .toCandidate := by
        rw [roleStep, hr]
        exact (c.handleTick_asks n.core).trans (if_pos h)
      rw [electionIn, ht]
      rfl
    | follower f | preCandidate p | leader l =>
      rw [restartsElection, hr] at h
      cases h
  | diskWriteComplete index => cases h
  | message msg => cases h

/-- A tick that starts no election keeps the term. -/
theorem tick_term (h : n.electionIn .tick = none) : (n.stepEvent .tick).1.term = n.term := by
  have hp : (n.stepEvent .tick).1.persistent = n.persistent :=
    (stepEvent_quiet h).1.trans (roleStep_tick n)
  exact congrArg Persistent.term hp

/-- How a node comes to be a pre-candidate: by starting a pre-election, or by staying one. -/
theorem settle_preCandidate {n : RaftNode} {result : StepResult} {p : PreCandidate}
    (h : (n.settle result).1.role = .preCandidate p) :
    result.transition = .stay ∧ (n.settle result).1 = n ∨
    ((n.settle result).1.core = (PreCandidate.new n.core).2.1 ∧ p = (PreCandidate.new n.core).1 ∧
      p.hasQuorum (n.settle result).1.core = false) := by
  have hcandidate (core : Core) : (becomeCandidate core).1.role ≠ .preCandidate p := by
    unfold becomeCandidate
    dsimp only
    split_ifs <;> nofun
  unfold settle at h ⊢
  cases ht : result.transition with
  | stay =>
    left
    exact ⟨rfl, rfl⟩
  | toPreCandidate =>
    right
    rw [ht] at h
    simp only [applyTransition, becomePreCandidate] at h ⊢
    by_cases hq : (PreCandidate.new n.core).1.hasQuorum (PreCandidate.new n.core).2.1 = true
    · rw [if_pos hq] at h
      exact absurd h (hcandidate _)
    · rw [if_neg hq] at h ⊢
      cases h
      exact ⟨rfl, rfl, (Bool.not_eq_true _).mp hq⟩
  | toCandidate =>
    rw [ht] at h
    exact absurd h (hcandidate _)
  | toFollower _ | toFollowerAfterContact _ | toLeader =>
    rw [ht] at h
    cases h

end RaftNode
end BasisDB.Raft
