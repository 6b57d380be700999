import BasisDB.RaftJoint
import BasisDB.RaftTransitions
import BasisDB.RaftReadRuns

/-! Joint configurations along runs: which steps make a node lead, and what that
needs for every committed joint configuration to have its successor. -/
namespace BasisDB.Raft

/-- A step that leaves the log and the commit index alone. -/
def Core.SameLog (core core' : Core) : Prop :=
  core'.log = core.log ∧ core'.commitIndex = core.commitIndex

theorem Core.SameLog.trans {core core' core'' : Core} (h : core.SameLog core')
    (h' : core'.SameLog core'') : core.SameLog core'' :=
  ⟨h'.1.trans h.1, h'.2.trans h.2⟩

theorem Core.maybeUpdateTerm_sameLog (core : Core) (term : ℕ) :
    core.SameLog (core.maybeUpdateTerm term).1 := by
  obtain ⟨hlog, _, hcommit⟩ := core.maybeUpdateTerm_frame term
  exact ⟨hlog, hcommit⟩

/-- A follower that starts a campaign has not touched its log. -/
theorem Follower.step_elects (f : Follower) (core : Core) (event : Event) :
    (f.step core event).result.transition = .stay ∨ core.SameLog (f.step core event).core := by
  cases event with
  | tick => exact Or.inr ⟨rfl, rfl⟩
  | diskWriteComplete index => exact Or.inl rfl
  | message msg =>
    simp only [step, handleMessage]
    split
    · exact Or.inl rfl
    split
    · exact Or.inl rfl
    by_cases hlt : core.term < msg.term
    · rw [if_pos hlt]
      have hsame : core.SameLog (f.observeTerm core msg).2 := by
        have := core.maybeUpdateTerm_sameLog msg.term
        unfold observeTerm
        dsimp only
        split_ifs <;> exact this
      refine (handleCurrent_asks _ _ msg).imp (fun h => h) (fun h => ?_)
      dsimp only
      rw [h.2.2]
      exact hsame
    rw [if_neg hlt]
    by_cases hgt : msg.term < core.term
    · rw [if_pos hgt]
      exact Or.inl rfl
    rw [if_neg hgt]
    refine (handleCurrent_asks f core msg).imp (fun h => h) (fun h => ?_)
    rw [h.2.2]
    exact ⟨rfl, rfl⟩

theorem PreCandidate.step_sameLog (p : PreCandidate) (core : Core) (event : Event) :
    core.SameLog (p.step core event).core := by
  cases event with
  | tick =>
    simp only [step, handleTick]
    split <;> exact ⟨rfl, rfl⟩
  | diskWriteComplete index => exact ⟨rfl, rfl⟩
  | message msg =>
    simp only [step, handleMessage]
    split
    · exact ⟨rfl, rfl⟩
    by_cases hlt : core.term < msg.term
    · rw [if_pos hlt]
      exact core.maybeUpdateTerm_sameLog msg.term
    rw [if_neg hlt]
    split
    · unfold handlePrevoteResponse
      split
      · exact core.maybeUpdateTerm_sameLog _
      · split <;> exact ⟨rfl, rfl⟩
    all_goals exact ⟨rfl, rfl⟩

theorem Candidate.step_sameLog (c : Candidate) (core : Core) (event : Event) :
    core.SameLog (c.step core event).core := by
  cases event with
  | tick =>
    simp only [step, handleTick]
    split <;> exact ⟨rfl, rfl⟩
  | diskWriteComplete index => exact ⟨rfl, rfl⟩
  | message msg =>
    simp only [step, handleMessage]
    split
    · exact ⟨rfl, rfl⟩
    split
    · exact ⟨rfl, rfl⟩
    by_cases hlt : core.term < msg.term
    · rw [if_pos hlt]
      exact core.maybeUpdateTerm_sameLog msg.term
    rw [if_neg hlt]
    by_cases hgt : msg.term < core.term
    · rw [if_pos hgt]
      exact ⟨rfl, rfl⟩
    rw [if_neg hgt]
    split
    · unfold handleVoteResponse
      split <;> exact ⟨rfl, rfl⟩
    all_goals exact ⟨rfl, rfl⟩

namespace RaftNode

theorem becomeCandidate_sameLog (core : Core) : core.SameLog (becomeCandidate core).1.core := by
  have hnew : core.SameLog (Candidate.new core).2.1 := by
    simp only [Candidate.new]
    split_ifs <;> exact ⟨rfl, rfl⟩
  simp only [becomeCandidate]
  split_ifs <;> exact hnew

theorem becomePreCandidate_sameLog (core : Core) :
    core.SameLog (becomePreCandidate core).1.core := by
  have hnew : core.SameLog (PreCandidate.new core).2.1 := by
    simp only [PreCandidate.new]
    split_ifs <;> exact ⟨rfl, rfl⟩
  simp only [becomePreCandidate]
  split_ifs
  · exact hnew.trans (becomeCandidate_sameLog _)
  · exact hnew

theorem applyTransition_sameLog (n : RaftNode) (transition : Transition) :
    n.core.SameLog (n.applyTransition transition).1.core := by
  cases transition with
  | stay | toFollower | toFollowerAfterContact | toLeader => exact ⟨rfl, rfl⟩
  | toPreCandidate => exact becomePreCandidate_sameLog _
  | toCandidate => exact becomeCandidate_sameLog _

/-- A role other than leader that asked to stay still does not lead; otherwise only the
role's own step can have changed the log. -/
theorem settle_elects {n : RaftNode} {result : StepResult} {core : Core}
    (hrole : n.isLeader = false) (hcore : result.transition = .stay ∨ core.SameLog n.core)
    (hl : (n.settle result).1.isLeader = true) : core.SameLog (n.settle result).1.core := by
  by_cases hs : result.transition = .stay
  · rw [settle_of_stay hs, hrole] at hl
    cases hl
  · rw [settle_node]
    exact (hcore.resolve_left hs).trans (applyTransition_sameLog _ _)

/-- After an event a leader's latest configuration is no committed joint one, unless
the node came to lead just now with the log it had. -/
theorem stepEvent_open {n : RaftNode} (hplain : n.core.log.Plain)
    (hterm : n.isLeader = true → 0 < n.core.term)
    (h : n.isLeader = true → n.core.committedJoint = false) (event : Event)
    (hl : (n.stepEvent event).1.isLeader = true) :
    (n.stepEvent event).1.core.committedJoint = false ∨
      (n.isLeader = false ∧ n.core.SameLog (n.stepEvent event).1.core) := by
  unfold stepEvent at hl ⊢
  cases hr : n.role with
  | follower f =>
    simp only [hr] at hl ⊢
    refine Or.inr ⟨by simp [isLeader, hr, RoleState.isLeader], ?_⟩
    exact settle_elects rfl (f.step_elects n.core event) hl
  | preCandidate p =>
    simp only [hr] at hl ⊢
    refine Or.inr ⟨by simp [isLeader, hr, RoleState.isLeader], ?_⟩
    exact settle_elects rfl (Or.inr (p.step_sameLog n.core event)) hl
  | candidate c =>
    simp only [hr] at hl ⊢
    refine Or.inr ⟨by simp [isLeader, hr, RoleState.isLeader], ?_⟩
    exact settle_elects rfl (Or.inr (c.step_sameLog n.core event)) hl
  | leader l =>
    simp only [hr] at hl ⊢
    have hlead := isLeader_of_role hr
    left
    rcases l.step_open hplain (hterm hlead) (h hlead) event with ⟨hstay, hopen⟩ | ⟨x, hdown⟩
    · rw [settle_of_stay hstay]
      exact hopen
    · rw [settle_node, hdown] at hl
      cases hl

theorem afterProposal_open {l : Leader} {core : Core} {stepDown : Bool}
    (hopen : stepDown = false → core.committedJoint = false)
    (hl : (afterProposal l core stepDown).isLeader = true) :
    (afterProposal l core stepDown).core.committedJoint = false := by
  cases stepDown with
  | true => cases hl
  | false => exact hopen rfl

theorem propose_open {n n' : RaftNode} {cmd : Command} {index : ℕ} {eff : Effects}
    (hp : n.propose cmd = .ok (index, eff, n')) (hplain : n.core.log.Plain)
    (hterm : n.isLeader = true → 0 < n.core.term)
    (h : n.isLeader = true → n.core.committedJoint = false) (hl : n'.isLeader = true) :
    n'.core.committedJoint = false := by
  unfold propose at hp
  split at hp
  · rename_i l hr
    have hlead := isLeader_of_role hr
    split_ifs at hp
    simp only [Except.ok.injEq, Prod.mk.injEq] at hp
    obtain ⟨-, -, rfl⟩ := hp
    refine afterProposal_open ?_ hl
    refine Leader.commitAndReplicate_open _ (Leader.appendOwn_plain hplain (hterm hlead) _)
      (hterm hlead) (Leader.appendOwn_open (h hlead) _ ?_)
    exact fun hc => absurd hc Bool.noConfusion
  · cases hp

theorem proposeConfigChange_open {n n' : RaftNode} {change : ConfigChange} {index : ℕ}
    {eff : Effects} (hp : n.proposeConfigChange change = .ok (index, eff, n'))
    (hplain : n.core.log.Plain) (hterm : n.isLeader = true → 0 < n.core.term)
    (h : n.isLeader = true → n.core.committedJoint = false)
    (hcommit : n.isLeader = true → n.commitIndex ≤ n.log.lastIndex) (hl : n'.isLeader = true) :
    n'.core.committedJoint = false := by
  unfold proposeConfigChange at hp
  split at hp
  · rename_i l hr
    have hlead := isLeader_of_role hr
    cases hres : l.proposeConfigChange n.core change with
    | error e =>
      rw [hres] at hp
      cases hp
    | ok res =>
      rw [hres] at hp
      obtain ⟨-, -, rfl⟩ := Leader.proposeConfigChange_ok hres
      simp only [bind, Except.bind, pure, Except.pure, Except.ok.injEq, Prod.mk.injEq] at hp
      obtain ⟨-, -, rfl⟩ := hp
      refine afterProposal_open ?_ hl
      exact Leader.commitAndReplicate_open _ (Leader.appendOwn_plain hplain (hterm hlead) _)
        (hterm hlead) (Leader.appendOwn_open (h hlead) _ (fun _ => Nat.lt_succ_of_le (hcommit hlead)))
  · cases hp

end RaftNode

/-- Any run at all: nothing is asked of configuration changes or append requests. -/
def freeGuards : Guards where
  mode := .singleServer
  reconfig := True
  strict := False
  absorb := fun _ _ => True

namespace Cluster
variable {configs : NodeId → Config} {boot : Configuration} {s : Cluster}

theorem free_permits (s : Cluster) (a : Action) : s.Permits freeGuards a := by
  refine ⟨fun _ _ _ _ _ _ _ _ _ => ⟨trivial, fun h => h.elim⟩, ?_⟩
  cases a with
  | deliver k => exact fun _ _ _ _ _ _ _ _ => trivial
  | proposeConfigChange n change => exact fun _ => ⟨trivial, fun h => h.elim⟩
  | _ => trivial

theorem Sound.step (hs : s.Sound configs boot) (a : Action) : (s.step a).Sound configs boot :=
  (step_refines hs (free_permits s a)).2

/-- The node that an action is about. -/
def actor (s : Cluster) : Action → Option NodeId
  | .tick n => some n
  | .deliver k => s.net[k]?.map Message.receiver
  | .timeoutNow _ receiver _ => some receiver
  | .propose n _ => some n
  | .proposeConfigChange n _ => some n
  | .requestReadIndex n => some n
  | .transferLeadership n _ => some n
  | .diskWriteComplete n _ => some n
  | .advance n _ => some n
  | .restart n => some n

/-- A node that comes to lead has no committed joint configuration as its latest one,
and a leader that is asked for a configuration change still has what it committed. -/
def HandsOver (s : Cluster) (a : Action) : Prop :=
  (∀ n ∈ s.actor a, (s.nodes n).isLeader = false → ((s.step a).nodes n).isLeader = true →
    (s.nodes n).core.committedJoint = false) ∧
  match a with
  | .proposeConfigChange n _ => (s.nodes n).isLeader = true →
      (s.nodes n).commitIndex ≤ (s.nodes n).log.lastIndex
  | _ => True

/-- No leader has a committed joint configuration as its latest one. -/
def JointsClosed (s : Cluster) : Prop :=
  ∀ n, (s.nodes n).isLeader = true → (s.nodes n).core.committedJoint = false

instance (s : Cluster) (a : Action) : Decidable (s.HandsOver a) :=
  @instDecidableAnd _ _ inferInstance <| match a with
    | .proposeConfigChange .. => inferInstanceAs (Decidable (_ → _))
    | .tick _ | .deliver _ | .timeoutNow .. | .propose .. | .requestReadIndex _
    | .transferLeadership .. | .diskWriteComplete .. | .advance .. | .restart _ =>
      inferInstanceAs (Decidable True)

theorem Sound.leader_term (hs : s.Sound configs boot) (n : NodeId)
    (hl : (s.nodes n).isLeader = true) : 0 < (s.nodes n).core.term := by
  cases hr : (s.nodes n).role with
  | leader l => exact (hs.ready n).leader_term hr
  | follower f | preCandidate p | candidate c =>
    simp [RaftNode.isLeader, hr, RoleState.isLeader] at hl

/-- Only the acting node's new state has to be looked at. -/
theorem JointsClosed.update (hc : s.JointsClosed) {s' : Cluster} {n : NodeId} {node : RaftNode}
    (hs' : s'.nodes = Function.update s.nodes n node)
    (hnode : node.isLeader = true → node.core.committedJoint = false) : s'.JointsClosed := by
  intro p hl
  rw [hs'] at hl ⊢
  by_cases hp : p = n
  · subst hp
    rw [Function.update_self] at hl ⊢
    exact hnode hl
  · rw [Function.update_of_ne hp] at hl ⊢
    exact hc p hl

/-- An event of node `n`. -/
theorem JointsClosed.event (hc : s.JointsClosed) (hs : s.Sound configs boot) {n : NodeId}
    {event : Event} {s' : Cluster}
    (hs' : s'.nodes = Function.update s.nodes n ((s.nodes n).stepEvent event).1)
    (hover : (s.nodes n).isLeader = false → (s'.nodes n).isLeader = true →
      (s.nodes n).core.committedJoint = false) : s'.JointsClosed := by
  refine hc.update hs' (fun hl => ?_)
  rcases RaftNode.stepEvent_open (hs.formed.views n).plain (hs.leader_term n) (hc n) event hl with
    hopen | ⟨hnot, hsame⟩
  · exact hopen
  · rw [Core.committedJoint_congr hsame.1 hsame.2]
    refine hover hnot ?_
    rw [hs', Function.update_self]
    exact hl

/-- A call that may be refused. -/
theorem JointsClosed.call (hc : s.JointsClosed) {ε α : Type} {n : NodeId}
    {res : Except ε (α × Effects × RaftNode)}
    (hres : ∀ x eff node, res = .ok (x, eff, node) → node.isLeader = true →
      node.core.committedJoint = false) : (s.handleCall n res).JointsClosed := by
  cases res with
  | error e => exact hc
  | ok r => exact hc.update rfl (hres r.1 r.2.1 r.2.2 rfl)

theorem JointsClosed.step (hc : s.JointsClosed) (hs : s.Sound configs boot) {a : Action}
    (ha : s.HandsOver a) : (s.step a).JointsClosed := by
  have hplain (n : NodeId) : (s.nodes n).core.log.Plain := (hs.formed.views n).plain
  have hover := ha.1
  cases a with
  | tick n => exact hc.event hs rfl (hover n rfl)
  | deliver k =>
    simp only [Cluster.step, actor] at hover ⊢
    cases hk : s.net[k]? with
    | none => exact hc
    | some msg =>
      simp only [hk, Option.map_some] at hover
      exact hc.event hs rfl (hover _ rfl)
  | timeoutNow sender receiver term => exact hc.event hs rfl (hover receiver rfl)
  | propose n cmd =>
    exact hc.call (fun _ _ _ hp => RaftNode.propose_open hp (hplain n) (hs.leader_term n) (hc n))
  | proposeConfigChange n change =>
    exact hc.call (fun _ _ _ hp => RaftNode.proposeConfigChange_open hp (hplain n)
      (hs.leader_term n) (hc n) ha.2)
  | requestReadIndex n =>
    refine hc.call (fun _ _ _ hp _ => ?_)
    obtain ⟨l, hl, -, -, hcore, -⟩ := RaftNode.requestReadIndex_ok hp
    rw [hcore]
    exact hc n (RaftNode.isLeader_of_role hl)
  | transferLeadership n target =>
    simp only [Cluster.step]
    cases (s.nodes n).transferLeadership target with
    | error e => exact hc
    | ok eff => exact hc.update rfl (hc n)
  | diskWriteComplete n index => exact hc.event hs rfl (hover n rfl)
  | advance n appliedTo => exact hc.update rfl (fun hl => hc n hl)
  | restart n => exact hc.update rfl (fun hl => absurd hl Bool.noConfusion)

theorem jointsClosed_moment (configs : NodeId → Config) (voters : List NodeId)
    {acts : List Action}
    (hover : ∀ k < acts.length, ∀ a ∈ acts[k]?, ((init configs voters).moment acts k).HandsOver a)
    (k : ℕ) :
    ((init configs voters).moment acts k).Sound configs (Configuration.ofVoters voters) ∧
      ((init configs voters).moment acts k).JointsClosed := by
  induction k with
  | zero => exact ⟨init_sound configs voters, fun _ hl => absurd hl Bool.noConfusion⟩
  | succ k ih =>
    obtain ⟨hs, hc⟩ := ih
    cases ha : acts[k]? with
    | none =>
      rw [moment_beyond _ acts ha]
      exact ⟨hs, hc⟩
    | some a =>
      rw [moment_succ _ acts ha]
      exact ⟨hs.step a, hc.step hs (hover k (List.getElem?_eq_some_iff.mp ha).1 a ha)⟩

/-- Joint configurations are completed: in a run that hands them over, a leader whose
commit index has reached its latest configuration has a simple one there. -/
theorem joint_completed (configs : NodeId → Config) (voters : List NodeId) (acts : List Action)
    (hover : ∀ k < acts.length, ∀ a ∈ acts[k]?, ((init configs voters).moment acts k).HandsOver a)
    (n : NodeId) (hl : (((init configs voters).run acts).nodes n).isLeader = true) (e : Entry)
    (he : (((init configs voters).run acts).nodes n).log.latestConfig = some e)
    (hcommit : e.index ≤ (((init configs voters).run acts).nodes n).commitIndex) :
    ∃ voters' learners, e.payload = .config (.simple voters' learners) := by
  have hclosed := (jointsClosed_moment configs voters hover acts.length).2 n
  rw [moment, List.take_length] at hclosed
  have hopen := Core.committedJoint_eq_false.mp (hclosed hl) e he
  have hcfg := Log.latestConfig_isConfig he
  cases hp : e.payload with
  | command cmd =>
    rw [hp] at hcfg
    cases hcfg
  | config cfg =>
    cases cfg with
    | simple voters' learners => exact ⟨voters', learners, rfl⟩
    | joint old new learners =>
      have := hopen (by simp [Entry.isJoint, hp, EntryPayload.asConfig, Configuration.isJoint])
      exact absurd hcommit (not_le.mpr this)

theorem joint_completed_growRun :
    (((init jointConfig [0]).run growRun).nodes 0).commitIndex = 3 ∧
      ∃ voters' learners,
        EntryPayload.config (.ofVoters [0, 1]) = .config (.simple voters' learners) :=
  ⟨by decide +kernel, joint_completed jointConfig [0] growRun (by decide +kernel) 0 (by decide +kernel)
    ⟨1, 3, .config (.ofVoters [0, 1])⟩ (by decide +kernel) (by decide +kernel)⟩

/-- The settings of `jointConfig`, with small batches. -/
def batchConfig (n : NodeId) : Config := { jointConfig n with maxEntriesPerMsg := 1 }

def lastPairMembers : Members where
  voters := OrdSet.ofList [1, 2]
  learners := OrdSet.empty
  disjoint := fun id hid => absurd hid (OrdSet.not_mem_empty id)

/-- Node 0 commits a joint configuration with two commands behind it. Node 1 learns of
the commit with a batch that ends before the successor, leads the next term and
commits a command of its own. -/
def orphanRun : List Action :=
  [.tick 0, .deliver 0, .deliver 2, .proposeConfigChange 0 (.setMembers lastPairMembers),
    .propose 0 ⟨[7]⟩, .propose 0 ⟨[8]⟩, .deliver 5, .deliver 6, .deliver 11, .deliver 12,
    .deliver 13, .restart 2, .tick 1, .deliver 17, .deliver 18, .propose 1 ⟨[9]⟩, .deliver 20,
    .deliver 23, .deliver 24, .deliver 25, .deliver 22, .deliver 26]

/-- The new leader has committed in its term, and its latest configuration is a
committed joint one. -/
theorem orphanRun_stays_joint :
    (((init batchConfig [0, 1, 2]).run orphanRun).nodes 1).isLeader = true ∧
      (Leader.currentTermCommitIndex
        (((init batchConfig [0, 1, 2]).run orphanRun).nodes 1).core).isSome = true ∧
      (((init batchConfig [0, 1, 2]).run orphanRun).nodes 1).log.latestConfig =
        some ⟨1, 1, .config (.joint (OrdSet.ofList [0, 1, 2]) (OrdSet.ofList [1, 2])
          OrdSet.empty)⟩ ∧
      1 ≤ (((init batchConfig [0, 1, 2]).run orphanRun).nodes 1).commitIndex := by
  decide +kernel

end Cluster
end BasisDB.Raft
