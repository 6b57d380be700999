import BasisDB.RaftEvolvesNode
import BasisDB.RaftTransitions

/-! One node by itself, fed with any events, calls and messages, and restarted from the state
it saved last. -/
namespace BasisDB.Raft

/-- The transition a role asks for, and the core it leaves. -/
def RaftNode.roleStep (n : RaftNode) (event : Event) : Core × Transition :=
  match n.role with
  | .follower f => ((f.step n.core event).core, (f.step n.core event).result.transition)
  | .preCandidate p => ((p.step n.core event).core, (p.step n.core event).result.transition)
  | .candidate c => ((c.step n.core event).core, (c.step n.core event).result.transition)
  | .leader l => ((l.step n.core event).core, (l.step n.core event).result.transition)

/-- The core on which a transition calls `Candidate::new`, and so `start_election`, if it does. -/
def Core.electionBy (core : Core) : Transition → Option Core
  | .toCandidate => some core
  | .toPreCandidate =>
    if (PreCandidate.new core).1.hasQuorum (PreCandidate.new core).2.1 then
      some (PreCandidate.new core).2.1
    else none
  | _ => none

/-- The core on which a step starts an election, if it does. -/
def RaftNode.electionIn (n : RaftNode) (event : Event) : Option Core :=
  (n.roleStep event).1.electionBy (n.roleStep event).2

namespace RaftNode
variable {n : RaftNode} {event : Event} {core : Core}

theorem becomeCandidate_persistent (core : Core) :
    (becomeCandidate core).1.persistent = core.startElection.persistent ∧
    (becomeCandidate core).1.core.config = core.config := by
  have hnew : (Candidate.new core).2.1.persistent = core.startElection.persistent ∧
      (Candidate.new core).2.1.config = core.config := by
    unfold Candidate.new
    dsimp only
    split_ifs <;> exact ⟨rfl, rfl⟩
  unfold becomeCandidate
  dsimp only
  split_ifs <;> exact hnew

theorem preCandidate_new_core (core : Core) :
    (PreCandidate.new core).2.1.persistent = core.persistent ∧
    (PreCandidate.new core).2.1.config = core.config := by
  unfold PreCandidate.new
  dsimp only
  split_ifs <;> exact ⟨rfl, rfl⟩

/-- A step is the role's own step, with the transition it asks for. -/
theorem stepEvent_settles (n : RaftNode) (event : Event) :
    ∃ (n₁ : RaftNode) (result : StepResult), n.stepEvent event = n₁.settle result ∧
      n₁.core = (n.roleStep event).1 ∧ result.transition = (n.roleStep event).2 ∧
      ∀ c, n₁.role = .candidate c → ∃ c₀, n.role = .candidate c₀ := by
  unfold stepEvent roleStep
  cases hr : n.role with
  | follower f => exact ⟨_, _, rfl, rfl, rfl, fun c hc => by cases hc⟩
  | preCandidate p => exact ⟨_, _, rfl, rfl, rfl, fun c hc => by cases hc⟩
  | candidate c₀ => exact ⟨_, _, rfl, rfl, rfl, fun c _ => ⟨c₀, rfl⟩⟩
  | leader l => exact ⟨_, _, rfl, rfl, rfl, fun c hc => by cases hc⟩

/-- The role's own step never lowers the term. -/
theorem roleStep_term (n : RaftNode) (event : Event) : n.term ≤ (n.roleStep event).1.term := by
  have hok (msg : Message) : Follower.AppendOk False False n.core msg :=
    ⟨False.elim, False.elim⟩
  have hf (f : Follower) : Evolves False False n.core (f.step n.core event).core
      (f.step n.core event).result.effects :=
    Follower.step_evolves f n.core event (fun msg _ => hok msg)
  have hp (p : PreCandidate) : Evolves False False n.core (p.step n.core event).core
      (p.step n.core event).result.effects := PreCandidate.step_evolves p n.core event
  have hc (c : Candidate) : Evolves False False n.core (c.step n.core event).core
      (c.step n.core event).result.effects := Candidate.step_evolves c n.core event
  have hl (l : Leader) : Evolves False False n.core (l.step n.core event).core
      (l.step n.core event).result.effects := Leader.step_evolves l n.core event
  unfold roleStep
  cases n.role with
  | follower f => exact (hf f).term
  | preCandidate p => exact (hp p).term
  | candidate c => exact (hc c).term
  | leader l => exact (hl l).term

theorem electionBy_core {t : Transition} {core core' : Core} (h : core.electionBy t = some core') :
    core'.persistent = core.persistent ∧ core'.config = core.config := by
  unfold Core.electionBy at h
  cases t with
  | toCandidate =>
    rw [Option.some.injEq] at h
    rw [h]
    exact ⟨rfl, rfl⟩
  | toPreCandidate =>
    dsimp only at h
    split_ifs at h
    rw [Option.some.injEq] at h
    rw [← h]
    exact preCandidate_new_core core
  | stay | toFollower _ | toFollowerAfterContact _ | toLeader => cases h

theorem applyTransition_election (n : RaftNode) {t : Transition} {core' : Core}
    (h : n.core.electionBy t = some core') :
    (n.applyTransition t).1.persistent = core'.startElection.persistent ∧
    (n.applyTransition t).1.core.config = core'.config := by
  unfold Core.electionBy at h
  cases t with
  | toCandidate =>
    rw [Option.some.injEq] at h
    rw [← h]
    exact becomeCandidate_persistent n.core
  | toPreCandidate =>
    dsimp only at h
    split_ifs at h with hq
    rw [Option.some.injEq] at h
    have hnode : (n.applyTransition .toPreCandidate).1 =
        (becomeCandidate (PreCandidate.new n.core).2.1).1 := by
      simp only [applyTransition, becomePreCandidate]
      rw [if_pos hq]
    rw [hnode, ← h]
    exact becomeCandidate_persistent _
  | stay | toFollower _ | toFollowerAfterContact _ | toLeader => cases h

theorem applyTransition_quiet (n : RaftNode) {t : Transition} (h : n.core.electionBy t = none) :
    (n.applyTransition t).1.persistent = n.persistent ∧
    (n.applyTransition t).1.core.config = n.core.config ∧
    ∀ c, (n.applyTransition t).1.role = .candidate c → t = .stay := by
  cases t with
  | stay => exact ⟨rfl, rfl, fun _ _ => rfl⟩
  | toFollower leader => exact ⟨rfl, rfl, fun c hc => by cases hc⟩
  | toFollowerAfterContact leader => exact ⟨rfl, rfl, fun c hc => by cases hc⟩
  | toLeader => exact ⟨rfl, rfl, fun c hc => by cases hc⟩
  | toCandidate => cases h
  | toPreCandidate =>
    have hq : ¬(PreCandidate.new n.core).1.hasQuorum (PreCandidate.new n.core).2.1 = true := by
      intro hq
      simp [Core.electionBy, hq] at h
    obtain ⟨hp, hc⟩ := preCandidate_new_core n.core
    simp only [applyTransition, becomePreCandidate]
    rw [if_neg hq]
    exact ⟨hp, hc, fun c hc => by cases hc⟩

/-- A step that starts an election: the term is one higher, and the vote our own if we are a
voter. -/
theorem stepEvent_election (h : n.electionIn event = some core) :
    (n.stepEvent event).1.persistent = core.startElection.persistent ∧
    (n.stepEvent event).1.core.config = core.config ∧ n.term ≤ core.term := by
  obtain ⟨n₁, result, hstep, hcore, htrans, -⟩ := stepEvent_settles n event
  have h' : n₁.core.electionBy result.transition = some core := by
    rw [hcore, htrans]
    exact h
  have hnode : (n.stepEvent event).1 = (n₁.applyTransition result.transition).1 := by
    rw [hstep, settle_node]
  obtain ⟨hp, hc⟩ := applyTransition_election n₁ h'
  obtain ⟨hpers, -⟩ := electionBy_core h
  rw [hnode]
  refine ⟨hp, hc, ?_⟩
  have hterm : core.term = (n.roleStep event).1.term := congrArg Persistent.term hpers
  rw [hterm]
  exact roleStep_term n event

/-- A step that starts none: what the role's own step made of the persistent state stays. -/
theorem stepEvent_quiet (h : n.electionIn event = none) :
    (n.stepEvent event).1.persistent = (n.roleStep event).1.persistent ∧
    ∀ c, (n.stepEvent event).1.role = .candidate c →
      (n.roleStep event).2 = .stay ∧ ∃ c₀, n.role = .candidate c₀ := by
  obtain ⟨n₁, result, hstep, hcore, htrans, hrole⟩ := stepEvent_settles n event
  have h' : n₁.core.electionBy result.transition = none := by
    rw [hcore, htrans]
    exact h
  have hnode : (n.stepEvent event).1 = (n₁.applyTransition result.transition).1 := by
    rw [hstep, settle_node]
  obtain ⟨hp, -, hc⟩ := applyTransition_quiet n₁ h'
  rw [hnode, ← hcore, ← htrans]
  refine ⟨hp, ?_⟩
  intro c hcand
  have hstay := hc c hcand
  refine ⟨hstay, ?_⟩
  rw [hstay] at hcand
  exact hrole c hcand

end RaftNode

/-- What can happen to a node. -/
inductive Input where
  | event (event : Event)
  | propose (cmd : Command)
  | proposeConfigChange (change : ConfigChange)
  | requestReadIndex
  | transferLeadership (target : NodeId)
  | advance (appliedTo : ℕ)
  | restart

/-- A call that may be refused; a refusal changes nothing. -/
def RaftNode.called {ε α : Type} (n : RaftNode) :
    Except ε (α × Effects × RaftNode) → RaftNode × Effects
  | .ok (_, effects, n') => (n', effects)
  | .error _ => (n, Effects.none)

/-- A node and what it has on disk. -/
structure Solo where
  node : RaftNode
  disk : Persistent

namespace Solo

/-- A node restored from any saved state; `RaftNode::new` is the case of an empty one. -/
def start (config : Config) (saved : Persistent) : Solo :=
  { node := RaftNode.restore config saved, disk := saved }

/-- The node after an input, and the effects handed to the caller. -/
def handle (s : Solo) : Input → RaftNode × Effects
  | .event event => s.node.stepEvent event
  | .propose cmd => s.node.called (s.node.propose cmd)
  | .proposeConfigChange change => s.node.called (s.node.proposeConfigChange change)
  | .requestReadIndex => s.node.called s.node.requestReadIndex
  | .transferLeadership target =>
    match s.node.transferLeadership target with
    | .ok effects => (s.node, effects)
    | .error _ => (s.node, Effects.none)
  | .advance appliedTo => (s.node.advance appliedTo, Effects.none)
  | .restart => (RaftNode.restore s.node.core.config s.disk, Effects.none)

/-- The caller saves the persistent state when the effects ask for it. -/
def step (s : Solo) (input : Input) : Solo :=
  { node := (s.handle input).1
    disk := if (s.handle input).2.persist then (s.handle input).1.persistent else s.disk }

def run (s : Solo) (inputs : List Input) : Solo := inputs.foldl step s

/-- The state after the first `k` inputs. -/
def moment (s : Solo) (inputs : List Input) (k : ℕ) : Solo := s.run (inputs.take k)

theorem moment_succ (s : Solo) (inputs : List Input) {k : ℕ} {input : Input}
    (h : inputs[k]? = some input) : s.moment inputs (k + 1) = (s.moment inputs k).step input := by
  rw [moment, List.take_add_one, h, Option.toList_some, run, List.foldl_append]
  rfl

theorem moment_beyond (s : Solo) (inputs : List Input) {k : ℕ} (h : inputs[k]? = none) :
    s.moment inputs (k + 1) = s.moment inputs k := by
  rw [moment, List.take_add_one, h, Option.toList_none, List.append_nil]
  rfl

/-- Every input but a restart evolves the core. -/
theorem handle_evolves (s : Solo) (input : Input) (hinput : input ≠ .restart) :
    Evolves False False s.node.core (s.handle input).1.core (s.handle input).2 := by
  have hcalled {ε α : Type} (res : Except ε (α × Effects × RaftNode))
      (hres : ∀ x eff n', res = .ok (x, eff, n') →
        Evolves False False s.node.core n'.core eff) :
      Evolves False False s.node.core (s.node.called res).1.core (s.node.called res).2 := by
    cases res with
    | error e => exact Evolves.refl _ _ _
    | ok r => exact hres r.1 r.2.1 r.2.2 rfl
  cases input with
  | event event =>
    exact RaftNode.stepEvent_evolves _ _ (fun _ _ _ _ => ⟨False.elim, False.elim⟩)
  | propose cmd => exact hcalled _ (fun _ _ _ h => RaftNode.propose_evolves h)
  | proposeConfigChange change =>
    exact hcalled _ (fun _ _ _ h => RaftNode.proposeConfigChange_evolves h)
  | requestReadIndex => exact hcalled _ (fun _ _ _ h => RaftNode.requestReadIndex_evolves h)
  | transferLeadership target =>
    simp only [handle]
    cases hres : s.node.transferLeadership target with
    | error e => exact Evolves.refl _ _ _
    | ok eff => exact RaftNode.transferLeadership_evolves hres
  | advance appliedTo => exact Evolves.quiet rfl rfl rfl Effects.NoGrants.none
  | restart => exact absurd rfl hinput

theorem handle_config (s : Solo) (input : Input) :
    (s.handle input).1.core.config = s.node.core.config := by
  cases input with
  | restart => rfl
  | _ => exact (s.handle_evolves _ (by simp)).config

theorem moment_config (s : Solo) (inputs : List Input) (k : ℕ) :
    (s.moment inputs k).node.core.config = s.node.core.config := by
  induction k with
  | zero => rfl
  | succ k ih =>
    cases hinput : inputs[k]? with
    | none => rw [s.moment_beyond inputs hinput, ih]
    | some input =>
      rw [s.moment_succ inputs hinput]
      exact ((s.moment inputs k).handle_config input).trans ih

/-- A node that leads, or follows. -/
def Settled (n : RaftNode) : Prop := (∃ l, n.role = .leader l) ∨ ∃ f, n.role = .follower f

theorem afterProposal_settled (l : Leader) (core : Core) (down : Bool) :
    Settled (RaftNode.afterProposal l core down) := by
  unfold RaftNode.afterProposal
  split_ifs
  · exact Or.inr ⟨_, rfl⟩
  · exact Or.inl ⟨l, rfl⟩

theorem propose_settled {n n' : RaftNode} {cmd : Command} {x : ℕ} {eff : Effects}
    (h : n.propose cmd = .ok (x, eff, n')) : Settled n' := by
  unfold RaftNode.propose at h
  cases hr : n.role with
  | leader l =>
    simp only [hr] at h
    split_ifs at h
    simp only [Except.ok.injEq, Prod.mk.injEq] at h
    obtain ⟨-, -, rfl⟩ := h
    exact afterProposal_settled _ _ _
  | follower f | preCandidate p | candidate c =>
    simp only [hr] at h
    cases h

theorem proposeConfigChange_settled {n n' : RaftNode} {change : ConfigChange} {x : ℕ}
    {eff : Effects} (h : n.proposeConfigChange change = .ok (x, eff, n')) : Settled n' := by
  unfold RaftNode.proposeConfigChange at h
  cases hr : n.role with
  | leader l =>
    simp only [hr, bind, Except.bind, pure, Except.pure] at h
    cases hres : l.proposeConfigChange n.core change with
    | error e =>
      rw [hres] at h
      cases h
    | ok res =>
      rw [hres] at h
      simp only [Except.ok.injEq, Prod.mk.injEq] at h
      obtain ⟨-, -, rfl⟩ := h
      exact afterProposal_settled _ _ _
  | follower f | preCandidate p | candidate c =>
    simp only [hr] at h
    cases h

theorem requestReadIndex_settled {n n' : RaftNode} {x : ℕ} {eff : Effects}
    (h : n.requestReadIndex = .ok (x, eff, n')) : Settled n' := by
  unfold RaftNode.requestReadIndex at h
  cases hr : n.role with
  | leader l =>
    simp only [hr, bind, Except.bind, pure, Except.pure] at h
    cases hres : l.requestReadIndex n.core with
    | error e =>
      rw [hres] at h
      cases h
    | ok res =>
      rw [hres] at h
      simp only [Except.ok.injEq, Prod.mk.injEq] at h
      obtain ⟨-, -, rfl⟩ := h
      exact Or.inl ⟨_, rfl⟩
  | follower f | preCandidate p | candidate c =>
    simp only [hr] at h
    cases h

/-- Calls and restarts make no node campaign: where they leave a node that neither leads nor
follows, they have left it as it was. -/
theorem handle_settled (s : Solo) {input : Input} (hevent : ∀ e, input ≠ .event e) :
    Settled (s.handle input).1 ∨ (s.handle input).1.role = s.node.role ∧
      (s.handle input).1.persistent = s.node.persistent ∧
      (s.handle input).1.core.config = s.node.core.config := by
  have hcalled {ε α : Type} (res : Except ε (α × Effects × RaftNode))
      (hres : ∀ x eff n', res = .ok (x, eff, n') → Settled n') :
      Settled (s.node.called res).1 ∨ (s.node.called res).1.role = s.node.role ∧
        (s.node.called res).1.persistent = s.node.persistent ∧
        (s.node.called res).1.core.config = s.node.core.config := by
    cases res with
    | error e => exact Or.inr ⟨rfl, rfl, rfl⟩
    | ok r => exact Or.inl (hres r.1 r.2.1 r.2.2 rfl)
  cases input with
  | event event => exact absurd rfl (hevent event)
  | propose cmd => exact hcalled _ (fun _ _ _ h => propose_settled h)
  | proposeConfigChange change => exact hcalled _ (fun _ _ _ h => proposeConfigChange_settled h)
  | requestReadIndex => exact hcalled _ (fun _ _ _ h => requestReadIndex_settled h)
  | transferLeadership target =>
    simp only [handle]
    cases s.node.transferLeadership target with
    | error e => exact Or.inr ⟨rfl, rfl, rfl⟩
    | ok eff => exact Or.inr ⟨rfl, rfl, rfl⟩
  | advance appliedTo => exact Or.inr ⟨rfl, rfl, rfl⟩
  | restart => exact Or.inl (Or.inr ⟨_, rfl⟩)

end Solo
end BasisDB.Raft
