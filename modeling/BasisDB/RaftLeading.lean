import BasisDB.RaftProgress
import BasisDB.RaftSolo

/-! A leader from one input to the next: what became of its state when the call returned,
and who leads after an input. -/
namespace BasisDB.Raft

namespace Solo
open Leader
variable {s : Solo} {input : Input} {l l' : Leader} {p : NodeId}

/-- A leader's own state when the handling of an input returns. The node goes on with it,
unless the handling ended with a step down. -/
def leaderAfter (s : Solo) (input : Input) : Option Leader :=
  match s.node.role, input with
  | .leader l, .event event => some (l.step s.node.core event).role
  | .leader l, .propose cmd =>
    if s.node.core.proposalLimitExceeded cmd then some l else some (l.propose s.node.core cmd).2.1
  | .leader l, .proposeConfigChange change =>
    match l.proposeConfigChange s.node.core change with
    | .ok x => some x.2.1
    | .error _ => some l
  | .leader l, .requestReadIndex =>
    match l.requestReadIndex s.node.core with
    | .ok x => some x.2.2
    | .error _ => some l
  | .leader l, .transferLeadership _ => some l
  | .leader l, .advance _ => some l
  | _, _ => none

theorem followerOf_frame (core : Core) (leader : Option NodeId) :
    (RaftNode.followerOf core leader).core.persistent = core.persistent ∧
      (RaftNode.followerOf core leader).core.config = core.config := ⟨rfl, rfl⟩

theorem afterProposal_grows {core core' : Core} (h : Grows p l core l' core') (down : Bool) :
    Grows p l core l' (RaftNode.afterProposal l' core' down).core := by
  cases down with
  | false => exact h
  | true => exact h.trans (Grows.of_eq rfl (followerOf_frame core' none).1
      (followerOf_frame core' none).2)

/-- Calls leave the log to grow at its end and the progress of the peers alone. -/
theorem leaderAfter_grows (hcall : ∀ event, input ≠ .event event)
    (hl : s.node.role = .leader l) (h : s.leaderAfter input = some l')
    (hr : Reported p s.node.core) : Grows p l s.node.core l' (s.handle input).1.core := by
  unfold leaderAfter at h
  rw [hl] at h
  cases input with
  | event event => exact absurd rfl (hcall event)
  | propose cmd =>
    simp only [handle, RaftNode.propose, hl]
    dsimp only at h
    split_ifs at h with hlimit
    · obtain rfl := Option.some.inj h
      rw [if_pos hlimit]
      exact Grows.refl p l _
    · obtain rfl := Option.some.inj h
      rw [if_neg hlimit]
      exact afterProposal_grows (l.propose_grows hr cmd) _
  | proposeConfigChange change =>
    simp only [handle, RaftNode.proposeConfigChange, hl, bind, Except.bind, pure, Except.pure]
    cases hres : l.proposeConfigChange s.node.core change with
    | error e =>
      simp only [hres] at h
      obtain rfl := Option.some.inj h
      exact Grows.refl p l _
    | ok x =>
      simp only [hres] at h
      obtain rfl := Option.some.inj h
      exact afterProposal_grows (l.proposeConfigChange_grows hr change hres) _
  | requestReadIndex =>
    simp only [handle, RaftNode.requestReadIndex, hl, bind, Except.bind, pure, Except.pure]
    cases hres : l.requestReadIndex s.node.core with
    | error e =>
      simp only [hres] at h
      obtain rfl := Option.some.inj h
      exact Grows.refl p l _
    | ok x =>
      simp only [hres] at h
      obtain rfl := Option.some.inj h
      exact l.requestReadIndex_grows s.node.core hres
  | transferLeadership target =>
    obtain rfl := Option.some.inj h
    simp only [handle]
    cases s.node.transferLeadership target <;> exact Grows.refl p l _
  | advance appliedTo =>
    obtain rfl := Option.some.inj h
    exact Grows.of_eq rfl rfl rfl
  | restart => cases h

/-- A leader that leads after an event was asked to stay. -/
theorem stepEvent_stays {n : RaftNode} (hl : n.role = .leader l) {event : Event}
    (h : (n.stepEvent event).1.role = .leader l') :
    (l.step n.core event).result.transition = .stay := by
  rcases l.step_remains n.core event with hstay | ⟨leader, hdown⟩
  · exact hstay
  · unfold RaftNode.stepEvent at h
    simp only [hl] at h
    rw [RaftNode.settle_node, hdown] at h
    cases h

/-- A leader that leads after an event leads with its own state. -/
theorem stepEvent_leads {n : RaftNode} (hl : n.role = .leader l) {event : Event}
    (h : (n.stepEvent event).1.role = .leader l') :
    l' = (l.step n.core event).role ∧ (n.stepEvent event).1.core = (l.step n.core event).core := by
  have hstay := stepEvent_stays hl h
  unfold RaftNode.stepEvent at h ⊢
  simp only [hl] at h ⊢
  rw [RaftNode.settle_node, hstay] at h ⊢
  exact ⟨(RoleState.leader.inj h).symm, rfl⟩

/-- A leader that leads after a message with a newer term has paid it no attention. -/
theorem stepEvent_newer {n : RaftNode} {msg : Message} (hl : n.role = .leader l)
    (hnewer : n.core.term < msg.term) (h : (n.stepEvent (.message msg)).1.role = .leader l') :
    l' = l ∧ (n.stepEvent (.message msg)).1.core = n.core := by
  have hstay : (l.handleMessage n.core msg).result.transition = .stay := stepEvent_stays hl h
  obtain ⟨hrole, hcore⟩ := stepEvent_leads hl h
  rw [hcore, hrole]
  change (l.handleMessage n.core msg).role = l ∧ (l.handleMessage n.core msg).core = n.core
  unfold Leader.handleMessage at hstay ⊢
  split at hstay
  · exact ⟨rfl, rfl⟩
  · -- on every other payload it steps down
    rw [if_pos hnewer] at hstay
    cases hstay

theorem afterProposal_leads {core : Core} {down : Bool} {l₀ : Leader}
    (h : (RaftNode.afterProposal l₀ core down).role = .leader l') : l' = l₀ := by
  cases down with
  | false => exact (RoleState.leader.inj h).symm
  | true => cases h

/-- A node that leads before and after an input leads with the state the handling left. -/
theorem leaderAfter_eq (hl : s.node.role = .leader l)
    (h : (s.handle input).1.role = .leader l') : s.leaderAfter input = some l' := by
  unfold leaderAfter
  rw [hl]
  cases input with
  | event event => exact congrArg some (stepEvent_leads hl h).1.symm
  | propose cmd =>
    simp only [handle, RaftNode.propose, hl] at h
    dsimp only
    split_ifs at h ⊢ with hlimit
    · exact congrArg some (RoleState.leader.inj (hl.symm.trans h))
    · exact congrArg some (afterProposal_leads h).symm
  | proposeConfigChange change =>
    simp only [handle, RaftNode.proposeConfigChange, hl, bind, Except.bind, pure,
      Except.pure] at h
    cases hres : l.proposeConfigChange s.node.core change with
    | error e =>
      simp only [hres] at h ⊢
      exact congrArg some (RoleState.leader.inj (hl.symm.trans h))
    | ok x =>
      simp only [hres] at h ⊢
      exact congrArg some (afterProposal_leads h).symm
  | requestReadIndex =>
    simp only [handle, RaftNode.requestReadIndex, hl, bind, Except.bind, pure, Except.pure] at h
    cases hres : l.requestReadIndex s.node.core with
    | error e =>
      simp only [hres] at h ⊢
      exact congrArg some (RoleState.leader.inj (hl.symm.trans h))
    | ok x =>
      simp only [hres] at h ⊢
      exact congrArg some (RoleState.leader.inj h)
  | transferLeadership target =>
    simp only [handle] at h
    cases hres : s.node.transferLeadership target with
    | error e =>
      simp only [hres] at h
      exact congrArg some (RoleState.leader.inj (hl.symm.trans h))
    | ok eff =>
      simp only [hres] at h
      exact congrArg some (RoleState.leader.inj (hl.symm.trans h))
  | advance appliedTo => exact congrArg some (RoleState.leader.inj (hl.symm.trans h))
  | restart => cases h

/-- From one input to the next a leader's log grows at its end and its term stays; the progress
of `p` stays too, unless `p` answers. -/
theorem handle_grows (hl : s.node.role = .leader l) (h : (s.handle input).1.role = .leader l')
    (hr : Reported p s.node.core)
    (hmsg : ∀ msg, input = .event (.message msg) →
      msg.sender ≠ p ∨ msg.payload.reportsProgress = false)
    (hdisk : ∀ index, input = .event (.diskWriteComplete index) → s.node.id ≠ p) :
    Grows p l s.node.core l' (s.handle input).1.core := by
  by_cases hevent : ∃ event, input = .event event
  · obtain ⟨event, rfl⟩ := hevent
    change Grows p l s.node.core l' (s.node.stepEvent event).1.core
    by_cases hnewer : ∃ msg, event = .message msg ∧ s.node.core.term < msg.term
    · obtain ⟨msg, rfl, hlt⟩ := hnewer
      obtain ⟨hrole, hcore⟩ := stepEvent_newer hl hlt h
      rw [hrole, hcore]
      exact Grows.refl p l _
    · obtain ⟨hrole, hcore⟩ := stepEvent_leads hl h
      rw [hrole, hcore]
      refine step_grows hr l (fun msg he => ⟨fun hlt => hnewer ⟨msg, he, hlt⟩, ?_⟩) ?_
      · exact hmsg msg (congrArg Input.event he)
      · exact fun index he => hdisk index (congrArg Input.event he)
  · have hcall : ∀ event, input ≠ .event event := fun event he => hevent ⟨event, he⟩
    exact leaderAfter_grows hcall hl (leaderAfter_eq hl h) hr

/-- The log and the term of a leader, whatever the input is. -/
theorem handle_extends (hl : s.node.role = .leader l) (h : (s.handle input).1.role = .leader l') :
    (s.handle input).1.core.term = s.node.core.term ∧
      ∃ es, (s.handle input).1.core.log =
        { s.node.core.log with entries := s.node.core.log.entries ++ es } := by
  -- a node that is neither this one nor the sender
  have hsame (sender : NodeId) (hsender : ∀ msg, input = .event (.message msg) →
      msg.sender = sender) : ∃ p, Grows p l s.node.core l' (s.handle input).1.core := by
    obtain ⟨p, hp⟩ := Infinite.exists_notMem_finset ({s.node.id, sender} : Finset NodeId)
    simp only [Finset.mem_insert, Finset.mem_singleton, not_or] at hp
    refine ⟨p, handle_grows hl h (Or.inr hp.1) (fun msg he => Or.inl ?_) (fun _ _ => Ne.symm hp.1)⟩
    rw [hsender msg he]
    exact Ne.symm hp.2
  have hgrows : ∃ p, Grows p l s.node.core l' (s.handle input).1.core := by
    by_cases hmsg : ∃ msg, input = .event (.message msg)
    · obtain ⟨msg, rfl⟩ := hmsg
      exact hsame msg.sender (fun msg' he => by cases he; rfl)
    · exact hsame s.node.id (fun msg he => absurd ⟨msg, he⟩ hmsg)
  obtain ⟨p, hgrows⟩ := hgrows
  exact ⟨hgrows.term, hgrows.log⟩

end Solo

/-- A new leader counts nothing as replicated, its own log apart. -/
theorem Leader.new_matchOf {core : Core} {p : NodeId} (h : Reported p core) :
    (Leader.new core).1.matchOf p = 0 := by
  have hzero (nodes : List NodeId) (m : OrdMap NodeId ℕ) (hm : (m.get p).getD 0 = 0) :
      ((nodes.foldl (fun m id => m.insert id 0) m).get p).getD 0 = 0 := by
    induction nodes generalizing m with
    | nil => exact hm
    | cons id nodes ih =>
      rw [List.foldl_cons]
      apply ih
      rw [OrdMap.get_insert]
      split_ifs
      · rfl
      · exact hm
  unfold Leader.new
  dsimp only
  rw [matchOf, broadcastAppend_matchIndex]
  split_ifs with hparallel
  · exact hzero _ _ rfl
  · rw [OrdMap.get_insert_ne _ _ (Ne.symm (h.resolve_left hparallel))]
    exact hzero _ _ rfl

namespace RaftNode
variable {n : RaftNode} {l : Leader}

theorem becomeCandidate_leads {core : Core} (h : (becomeCandidate core).1.role = .leader l) :
    l = (Leader.new (becomeCandidate core).1.core).1 := by
  unfold becomeCandidate at h ⊢
  dsimp only at h ⊢
  split_ifs at h ⊢
  exact (RoleState.leader.inj h).symm

theorem applyTransition_leads {t : Transition} (h : (n.applyTransition t).1.role = .leader l) :
    t = .stay ∨ l = (Leader.new (n.applyTransition t).1.core).1 := by
  cases t with
  | stay => exact Or.inl rfl
  | toFollower leader => cases h
  | toFollowerAfterContact leader => cases h
  | toLeader => exact Or.inr (RoleState.leader.inj h).symm
  | toCandidate => exact Or.inr (becomeCandidate_leads h)
  | toPreCandidate =>
    right
    simp only [applyTransition, becomePreCandidate] at h ⊢
    split_ifs at h ⊢
    exact becomeCandidate_leads h

theorem settle_leads {result : StepResult} (hn : ∀ l, n.role ≠ .leader l)
    (h : (n.settle result).1.role = .leader l) :
    l = (Leader.new (n.settle result).1.core).1 := by
  rw [settle_node] at h ⊢
  rcases applyTransition_leads h with hstay | hnew
  · rw [hstay] at h
    exact absurd h (hn l)
  · exact hnew

/-- A node that comes to lead starts with `Leader::new`. -/
theorem stepEvent_elects (hn : ∀ l, n.role ≠ .leader l) {event : Event}
    (h : (n.stepEvent event).1.role = .leader l) :
    l = (Leader.new (n.stepEvent event).1.core).1 := by
  unfold stepEvent at h ⊢
  cases hr : n.role with
  | leader l₀ => exact absurd hr (hn l₀)
  | follower f | preCandidate p | candidate c =>
    simp only [hr] at h ⊢
    exact settle_leads (fun l hl => by cases hl) h

end RaftNode

namespace Solo
variable {s : Solo} {input : Input} {l : Leader}

/-- An input other than an event makes nobody leader. -/
theorem handle_elects (hn : ∀ l, s.node.role ≠ .leader l)
    (h : (s.handle input).1.role = .leader l) : ∃ event, input = .event event := by
  cases input with
  | event event => exact ⟨event, rfl⟩
  | propose cmd =>
    simp only [handle, RaftNode.propose] at h
    cases hr : s.node.role with
    | leader l₀ => exact absurd hr (hn l₀)
    | follower f | preCandidate p | candidate c =>
      exact absurd h (hn l)
  | proposeConfigChange change =>
    simp only [handle, RaftNode.proposeConfigChange] at h
    cases hr : s.node.role with
    | leader l₀ => exact absurd hr (hn l₀)
    | follower f | preCandidate p | candidate c =>
      exact absurd h (hn l)
  | requestReadIndex =>
    simp only [handle, RaftNode.requestReadIndex] at h
    cases hr : s.node.role with
    | leader l₀ => exact absurd hr (hn l₀)
    | follower f | preCandidate p | candidate c =>
      exact absurd h (hn l)
  | transferLeadership target =>
    simp only [handle] at h
    cases hres : s.node.transferLeadership target with
    | error e =>
      simp only [hres] at h
      exact absurd h (hn l)
    | ok eff =>
      simp only [hres] at h
      exact absurd h (hn l)
  | advance appliedTo => exact absurd h (hn l)
  | restart => cases h

end Solo

end BasisDB.Raft
