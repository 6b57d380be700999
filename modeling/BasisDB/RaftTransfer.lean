import BasisDB.RaftElection

/-! Leadership transfer: in a healthy cluster the target is elected only where enough followers
have forgotten the leader they follow. -/
namespace BasisDB.Raft

/-- A log that has every entry of another one, compacted entries aside. -/
structure Log.Holds (log other : Log) : Prop where
  lastIndex : other.lastIndex ≤ log.lastIndex
  entries : ∀ j e, log.snapshotIndex < j → other.get j = some e → log.get j = some e

theorem Log.Holds.refl (log : Log) : log.Holds log := ⟨le_rfl, fun _ _ _ he => he⟩

/-- A node that follows a leader and has heard from it. -/
def RoleState.follows (role : RoleState) (leader : NodeId) : Bool :=
  match role with
  | .follower f => decide (f.leader = some leader) && f.lastContactTick.isSome
  | _ => false

theorem RoleState.exists_of_follows {role : RoleState} {leader : NodeId}
    (h : role.follows leader = true) : ∃ f, role = .follower f := by
  cases role with
  | follower f => exact ⟨f, rfl⟩
  | _ => cases h

namespace Cluster
variable {s : Cluster} {l target : NodeId} {cfg : Configuration}

/-- A leader with fixed members, whose voters are all at its term, follow it and have its
whole log. -/
structure Healthy (s : Cluster) (l : NodeId) (cfg : Configuration) : Prop where
  voters : 2 ≤ cfg.voterCount
  leads : (s.nodes l).isLeader = true
  leaderId : (s.nodes l).id = l
  leaderMembers : (s.nodes l).core.effectiveConfig = cfg
  id : ∀ v, cfg.isVoter v = true → (s.nodes v).id = v
  members : ∀ v, cfg.isVoter v = true → (s.nodes v).core.effectiveConfig = cfg
  term : ∀ v, cfg.isVoter v = true → (s.nodes v).term = (s.nodes l).term
  follows : ∀ v, cfg.isVoter v = true → v ≠ l → (s.nodes v).role.follows l = true
  replicated : ∀ v, cfg.isVoter v = true → (s.nodes v).log.Holds (s.nodes l).log

/-- After the transfer and some deliveries in order, the target leads at a later term. -/
def TakesOver (s : Cluster) (l target : NodeId) : Prop :=
  ∃ n, LeadsAfter target (s.nodes l).term (s.run (.transferLeadership l target ::
    (List.range' s.net.length n).map Action.deliver))

/-- The nodes whose votes the target can count on. -/
def backs (s : Cluster) (target v : NodeId) : Bool :=
  decide (v = target) || (s.nodes v).wouldGrant (s.nodes target).log

theorem Healthy.of_voters (hvoters : 2 ≤ cfg.voterCount) (hleads : (s.nodes l).isLeader = true)
    (hl : cfg.isVoter l = true)
    (h : ∀ v ∈ cfg.voters, (s.nodes v).id = v ∧ (s.nodes v).core.effectiveConfig = cfg ∧
      (s.nodes v).term = (s.nodes l).term ∧ (v = l ∨ (s.nodes v).role.follows l = true) ∧
      (s.nodes v).log = (s.nodes l).log) : s.Healthy l cfg := by
  have hall (v : NodeId) (hv : cfg.isVoter v = true) := h v ((cfg.mem_voters v).mpr hv)
  refine ⟨hvoters, hleads, (hall l hl).1, (hall l hl).2.1, fun v hv => (hall v hv).1,
    fun v hv => (hall v hv).2.1, fun v hv => (hall v hv).2.2.1, ?_, ?_⟩
  · intro v hv hne
    exact (hall v hv).2.2.2.1.resolve_left hne
  · intro v hv
    rw [(hall v hv).2.2.2.2]
    exact Log.Holds.refl _

theorem not_takesOver_of_drained (k n : ℕ) (hk : s.net.length = k)
    (hdrained : ((s.step (.transferLeadership l target)).deliverInOrder k n).pending (k + n) = [])
    (hnever : ∀ m < n + 1, (((s.step (.transferLeadership l target)).deliverInOrder k
      m).nodes target).isLeader = false) : ¬s.TakesOver l target := by
  intro htakes
  have hreaches : Reaches (LeadsAfter target (s.nodes l).term)
      (s.step (.transferLeadership l target)) s.net.length := htakes
  rw [hk] at hreaches
  obtain ⟨m, hm, hleads, _⟩ := reaches_drained hdrained hreaches
  rw [hnever m (by omega)] at hleads
  cases hleads

/-- Every voter of a healthy cluster can be asked for its vote at a later term. -/
theorem Healthy.asked (hs : s.Healthy l cfg) {candidate : Core}
    (hcandidate : cfg.isVoter candidate.id = true) (hterm : (s.nodes l).term < candidate.term)
    {v : NodeId} (hv : cfg.isVoter v = true) : (s.nodes v).Asked candidate v where
  id := hs.id v hv
  term := by
    rw [hs.term v hv]
    exact hterm
  voter := by
    rw [hs.members v hv]
    exact hcandidate
  role := by
    by_cases hl : v = l
    · right
      have hleads := hs.leads
      rw [hl]
      unfold RaftNode.isLeader at hleads
      cases hr : (s.nodes l).role with
      | leader leader => exact ⟨leader, rfl⟩
      | _ =>
        rw [hr] at hleads
        cases hleads
    · left
      exact RoleState.exists_of_follows (hs.follows v hv hl)

/-- A campaign in a healthy cluster, from the moment its requests are under way. -/
theorem Healthy.reaches_campaign (hs : s.Healthy l cfg) {core : Core} {c : Candidate}
    {s' : Cluster} {k : ℕ} (hcandidate : cfg.isVoter core.id = true)
    (hmembers : core.effectiveConfig = cfg) (hterm : (s.nodes l).term < core.term)
    (hlog : core.log = (s.nodes core.id).log) (hvotes : ∀ v, v ∈ c.votes ↔ v = core.id)
    (hq : c.hasQuorum core = false)
    (hnode : s'.nodes core.id = { core := core, role := .candidate c })
    (hothers : ∀ v, v ≠ core.id → s'.nodes v = s.nodes v)
    (hpending : s'.pending k = (cfg.voterPeers core.id).map core.voteRequest) :
    Reaches (LeadsAfter core.id (s.nodes l).term) s' k ↔
      cfg.hasQuorum (s.backs core.id) = true := by
  have hpeers (v : NodeId) (hv : v ∈ cfg.voterPeers core.id) :
      v ≠ core.id ∧ s'.nodes v = s.nodes v ∧ (s.nodes v).Asked core v := by
    obtain ⟨hvoter, hne⟩ := (cfg.mem_voterPeers core.id v).mp hv
    exact ⟨hne, hothers v hne, hs.asked hcandidate hterm hvoter⟩
  rw [reaches_requests hterm hq _ [] s' k hnode (hpending.trans (List.append_nil _).symm)
    (fun m hm => absurd hm List.not_mem_nil) (cfg.nodup_voters.filter _) hpeers, hmembers]
  apply Configuration.hasQuorum_congr
  intro v hv
  have hnone : granters [] core.term = [] := rfl
  simp only [hnone, backs, hlog, Bool.or_eq_true, Bool.and_eq_true, List.contains_iff_mem,
    OrdSet.contains_iff, hvotes, Configuration.mem_voterPeers, hv, true_and, List.not_mem_nil,
    or_false, decide_eq_true_eq]
  tauto

theorem transferLeadership_ok {effects : Effects}
    (h : (s.nodes l).transferLeadership target = .ok effects) :
    target ≠ (s.nodes l).id ∧ (s.nodes l).core.effectiveConfig.isVoter target = true ∧
    effects.messages = [(s.nodes l).core.message target .timeoutNow] := by
  unfold RaftNode.transferLeadership at h
  cases hr : (s.nodes l).role with
  | leader leader =>
    rw [hr] at h
    dsimp only [Leader.transferLeadership] at h
    split_ifs at h with hself hvoter hlag
    cases h
    refine ⟨hself, ?_, rfl⟩
    simpa using hvoter
  | _ =>
    rw [hr] at h
    cases h

theorem step_transferLeadership {effects : Effects}
    (h : (s.nodes l).transferLeadership target = .ok effects) :
    (s.step (.transferLeadership l target)).nodes = s.nodes ∧
    (s.step (.transferLeadership l target)).pending s.net.length = effects.messages := by
  simp only [step, h, handleEffects, pending]
  exact ⟨Function.update_eq_self l s.nodes, List.drop_left⟩

end Cluster

namespace RaftNode
variable {n : RaftNode} {f : Follower} {msg : Message}

theorem becomeCandidate_eq {core : Core} (h : 1 < core.effectiveConfig.voterCount) :
    becomeCandidate core =
      ({ core := (Candidate.new core).2.1, role := .candidate (Candidate.new core).1 },
        (Candidate.new core).2.2) := by
  simp only [becomeCandidate, Candidate.new_no_quorum h]
  rfl

/-- A follower that is told to campaign does. -/
theorem step_timeoutNow (hr : n.role = .follower f) (hp : msg.payload = .timeoutNow)
    (hterm : msg.term = n.term) (hvoters : 1 < n.core.effectiveConfig.voterCount) :
    (n.step msg).1 =
      { core := (Candidate.new n.core).2.1, role := .candidate (Candidate.new n.core).1 } ∧
    (n.step msg).2.messages =
      (n.core.effectiveConfig.voterPeers n.id).map (Candidate.new n.core).2.1.voteRequest := by
  have hstep : f.step n.core (.message msg) =
      { role := f, core := n.core, result := StepResult.toCandidate Effects.none } := by
    have hterm' : msg.term = n.core.term := hterm
    simp [Follower.step, Follower.handleMessage, hp, Payload.isVoteSolicitation, hterm',
      Follower.handleCurrent]
  have hsettle : n.step msg =
      ((becomeCandidate n.core).1, Effects.none.merge (becomeCandidate n.core).2) := by
    rw [step, stepEvent, hr]
    simp only [hstep]
    rfl
  rw [hsettle, becomeCandidate_eq hvoters]
  exact ⟨rfl, Candidate.new_messages hvoters⟩

end RaftNode

open Cluster

/-- The target of an accepted transfer takes over exactly when it and the followers that would
vote for it are a quorum; the old leader never votes. -/
theorem leadership_transfer_takes_over_iff (s : Cluster) (l target : NodeId) (cfg : Configuration)
    (hs : s.Healthy l cfg) (effects : Effects)
    (htransfer : (s.nodes l).transferLeadership target = .ok effects) :
    s.TakesOver l target ↔ cfg.hasQuorum (s.backs target) = true := by
  obtain ⟨hne, hvoter, hmessages⟩ := transferLeadership_ok htransfer
  rw [hs.leaderId] at hne
  rw [hs.leaderMembers] at hvoter
  obtain ⟨hnodes, hpending⟩ := step_transferLeadership htransfer
  rw [hmessages] at hpending
  obtain ⟨f, hfollower⟩ := RoleState.exists_of_follows (hs.follows target hvoter hne)
  have hvoters : 1 < (s.nodes target).core.effectiveConfig.voterCount := by
    rw [hs.members target hvoter]
    exact hs.voters
  have hterm : ((s.nodes l).core.message target .timeoutNow).term = (s.nodes target).term :=
    (hs.term target hvoter).symm
  obtain ⟨hnode, hsent⟩ := RaftNode.step_timeoutNow hfollower rfl hterm hvoters
  rw [hs.members target hvoter, hs.id target hvoter] at hsent
  -- the target campaigns at the next term, with the log it has
  obtain ⟨hconf, hpers⟩ := Candidate.new_core (s.nodes target).core
  have hid : (Candidate.new (s.nodes target).core).2.1.id = target := by
    rw [Core.id, hconf]
    exact hs.id target hvoter
  have hmembers : (Candidate.new (s.nodes target).core).2.1.effectiveConfig = cfg := by
    rw [Candidate.new_effectiveConfig, hs.members target hvoter]
  have hlater : (s.nodes l).term < (Candidate.new (s.nodes target).core).2.1.term := by
    rw [Core.term, hpers, ← hs.term target hvoter]
    exact Nat.lt_succ_self _
  have hlog : (Candidate.new (s.nodes target).core).2.1.log = (s.nodes target).log := by
    rw [Core.log, hpers]
    rfl
  have hvotes (v : NodeId) : v ∈ (Candidate.new (s.nodes target).core).1.votes ↔
      v = (Candidate.new (s.nodes target).core).2.1.id := by
    have hown : (Candidate.new (s.nodes target).core).2.1.isVoter = true := by
      show Configuration.isVoter _ (Candidate.new (s.nodes target).core).2.1.id = true
      rw [hid, hmembers, hvoter]
    rw [Candidate.new_votes, Core.ownVote, if_pos hown, OrdSet.mem_singleton]
  have hquorum := Candidate.new_no_quorum hvoters
  generalize Candidate.new (s.nodes target).core = campaign at *
  subst hid
  have hidle : ¬LeadsAfter campaign.2.1.id (s.nodes l).term
      (s.step (.transferLeadership l campaign.2.1.id)) := by
    rintro ⟨hleads, _⟩
    rw [hnodes, RaftNode.isLeader, hfollower] at hleads
    cases hleads
  show Reaches _ (s.step (.transferLeadership l campaign.2.1.id)) s.net.length ↔ _
  rw [reaches_cons_iff hpending hidle]
  apply hs.reaches_campaign hvoter hmembers hlater hlog hvotes hquorum
  · refine deliverMessage_self.trans ?_
    rw [hnodes]
    exact hnode
  · intro v hv
    rw [deliverMessage_ne hv, hnodes]
  · rw [pending_deliverMessage hpending, hnodes, List.nil_append]
    exact hsent

/-- Short timeouts, and everything else as by default. -/
def shortTimeouts (id : NodeId) : Config :=
  { Config.new id with electionTimeout := (3, 6), heartbeatInterval := 1 }

/-- Three nodes have elected node 0, and its heartbeats have been answered. -/
def afterElection : Cluster :=
  ((Cluster.init shortTimeouts [0, 1, 2]).run (List.replicate 3 (.tick 0))).deliverInOrder 0 12

theorem afterElection_healthy : afterElection.Healthy 0 (.ofVoters [0, 1, 2]) := by
  apply Healthy.of_voters
  · decide
  · decide +kernel
  · decide
  · decide +kernel

/-- Node 2 has heard from the leader and refuses, the old leader steps down silently, and the
target is left with its own vote when nothing is under way any more. -/
theorem transfer_target_not_elected :
    afterElection.Healthy 0 (.ofVoters [0, 1, 2]) ∧
    (afterElection.nodes 0).transferLeadership 1 =
      .ok (Effects.none.withMessage ((afterElection.nodes 0).core.message 1 .timeoutNow)) ∧
    ((afterElection.step (.transferLeadership 0 1)).deliverInOrder 12 4).pending 16 = [] ∧
    ¬afterElection.TakesOver 0 1 := by
  refine ⟨afterElection_healthy, by decide +kernel, by decide +kernel, ?_⟩
  apply not_takesOver_of_drained 12 4
  · decide +kernel
  · decide +kernel
  · decide +kernel

/-- Time has passed for node 2 alone, less than its election timeout. -/
def lapsedContact : Cluster := afterElection.run (List.replicate 3 (.tick 2))

theorem leadership_transfer_takes_over_lapsedContact : lapsedContact.TakesOver 0 1 := by
  have hhealthy : lapsedContact.Healthy 0 (.ofVoters [0, 1, 2]) := by
    apply Healthy.of_voters
    · decide
    · decide +kernel
    · decide
    · decide +kernel
  have hok : (lapsedContact.nodes 0).transferLeadership 1 =
      .ok (Effects.none.withMessage ((lapsedContact.nodes 0).core.message 1 .timeoutNow)) := by
    decide +kernel
  exact (leadership_transfer_takes_over_iff lapsedContact 0 1 _ hhealthy _ hok).mpr
    (by decide +kernel)

end BasisDB.Raft
