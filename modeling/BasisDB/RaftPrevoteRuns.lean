import BasisDB.RaftPrevote

/-! Pre-votes along runs of a node: which elections it starts, and when its term stays as it
is without messages. -/
namespace BasisDB.Raft

namespace RaftNode
variable {n : RaftNode} {event : Event} {p : PreCandidate}

theorem hasQuorum_congr {p p' : PreCandidate} {core core' : Core}
    (hp : core'.persistent = core.persistent) (hv : p'.preVotes = p.preVotes) :
    p'.hasQuorum core' = p.hasQuorum core := by
  rw [PreCandidate.hasQuorum, Core.effectiveConfig_congr hp, hv]
  rfl

/-- The pre-votes of a pre-candidate after an event: its own, or those it had at this term
with at most one more that was granted at this term. None is a quorum. -/
theorem stepEvent_preCandidate
    (hquorum : ∀ p, n.role = .preCandidate p → p.hasQuorum n.core = false)
    (h : (n.stepEvent event).1.role = .preCandidate p) :
    p.hasQuorum (n.stepEvent event).1.core = false ∧
    ((∀ v ∈ p.preVotes, v = (n.stepEvent event).1.id) ∨
      ∃ p₀, n.role = .preCandidate p₀ ∧ (n.stepEvent event).1.term = n.term ∧
        (n.stepEvent event).1.id = n.id ∧ ∀ v ∈ p.preVotes, v ∈ p₀.preVotes ∨
          ∃ msg, event = .message msg ∧ msg.sender = v ∧
            msg.payload = .preVoteResponse { term := n.term, granted := true }) := by
  -- a pre-election that starts now has our own pre-vote only
  have hfresh {n₁ : RaftNode} {result : StepResult} (hstep : n.stepEvent event = n₁.settle result)
      (hmoves : ∀ p, n₁.role = .preCandidate p → result.transition ≠ .stay) :
      p.hasQuorum (n.stepEvent event).1.core = false ∧
        ∀ v ∈ p.preVotes, v = (n.stepEvent event).1.id := by
    rw [hstep] at h ⊢
    rcases settle_preCandidate h with ⟨hstay, hsame⟩ | ⟨hcore, hp, hq⟩
    · rw [hsame] at h
      exact absurd hstay (hmoves p h)
    · refine ⟨hq, ?_⟩
      intro v hv
      rw [hp, PreCandidate.new_preVotes, ← hcore] at hv
      exact Core.mem_ownVote hv
  cases hr : n.role with
  | preCandidate p₀ =>
    have hstep : n.stepEvent event =
        settle { core := (p₀.step n.core event).core, role := .preCandidate (p₀.step n.core event).role }
          (p₀.step n.core event).result := by
      rw [stepEvent, hr]
    by_cases hstay : (p₀.step n.core event).result.transition = .stay
    · have hnode : (n.stepEvent event).1 =
          { core := (p₀.step n.core event).core
            role := .preCandidate (p₀.step n.core event).role } := by
        rw [hstep, settle, hstay]
      obtain ⟨hpers, hconf, hvotes⟩ := p₀.step_stay n.core event hstay
      rw [hnode] at h ⊢
      cases h
      have hterm : (p₀.step n.core event).core.term = n.core.term := congrArg Persistent.term hpers
      have hid : (p₀.step n.core event).core.id = n.core.id := congrArg Config.id hconf
      rcases hvotes with hkept | ⟨msg, hevent, hp, hinsert, hq⟩
      · refine ⟨?_, Or.inr ⟨p₀, rfl, hterm, hid, ?_⟩⟩
        · rw [hasQuorum_congr hpers hkept]
          exact hquorum p₀ hr
        · intro v hv
          exact Or.inl (hkept ▸ hv)
      · refine ⟨(hasQuorum_congr hpers rfl).trans hq, Or.inr ⟨p₀, rfl, hterm, hid, ?_⟩⟩
        intro v hv
        rw [hinsert, OrdSet.mem_insert] at hv
        rcases hv with rfl | hv
        · exact Or.inr ⟨msg, hevent, rfl, hp⟩
        · exact Or.inl hv
    · obtain ⟨hq, hown⟩ := hfresh hstep (fun _ _ => hstay)
      exact ⟨hq, Or.inl hown⟩
  | follower f =>
    have hstep : n.stepEvent event =
        settle { core := (f.step n.core event).core, role := .follower (f.step n.core event).role }
          (f.step n.core event).result := by
      rw [stepEvent, hr]
    obtain ⟨hq, hown⟩ := hfresh hstep (fun p hp => by cases hp)
    exact ⟨hq, Or.inl hown⟩
  | candidate c =>
    have hstep : n.stepEvent event =
        settle { core := (c.step n.core event).core, role := .candidate (c.step n.core event).role }
          (c.step n.core event).result := by
      rw [stepEvent, hr]
    obtain ⟨hq, hown⟩ := hfresh hstep (fun p hp => by cases hp)
    exact ⟨hq, Or.inl hown⟩
  | leader l =>
    have hstep : n.stepEvent event =
        settle { core := (l.step n.core event).core, role := .leader (l.step n.core event).role }
          (l.step n.core event).result := by
      rw [stepEvent, hr]
    obtain ⟨hq, hown⟩ := hfresh hstep (fun p hp => by cases hp)
    exact ⟨hq, Or.inl hown⟩

end RaftNode

namespace Solo
variable {config : Config} {saved : Persistent} {s : Solo} {inputs : List Input} {k : ℕ}

/-- Before input `k` the node received a pre-vote of `v`, granted at term `t`. -/
def GrantedPrevote (inputs : List Input) (k t : ℕ) (v : NodeId) : Prop :=
  ∃ j < k, ∃ msg, inputs[j]? = some (.event (.message msg)) ∧ msg.sender = v ∧
    msg.payload = .preVoteResponse { term := t, granted := true }

/-- Input `k` is a message that asks for an election: a `TimeoutNow`, or the pre-vote that
completes a quorum of pre-votes, all of them our own or granted at our present term. -/
def AsksElection (s : Solo) (inputs : List Input) (k : ℕ) : Prop :=
  ∃ msg, inputs[k]? = some (.event (.message msg)) ∧
    (msg.payload = .timeoutNow ∨ ∃ p, (s.moment inputs k).node.role = .preCandidate p ∧
      p.hasQuorum (s.moment inputs k).node.core = false ∧
      p.Completes (s.moment inputs k).node.core msg ∧
      ∀ v ∈ p.preVotes, v = (s.moment inputs k).node.id ∨
        GrantedPrevote inputs k (s.moment inputs k).node.term v)

/-- What pre-votes are for: the node starts elections only when a message asks for one, and
its term stays as it is while only time passes. -/
def TermGuarded (s : Solo) (inputs : List Input) : Prop :=
  (∀ k event, inputs[k]? = some (.event event) →
    ((s.moment inputs k).node.electionIn event).isSome = true → AsksElection s inputs k) ∧
  ∀ j k, j ≤ k → (∀ i, j ≤ i → i < k → inputs[i]? = some (.event .tick)) →
    (s.moment inputs k).node.term = (s.moment inputs j).node.term

/-- What is true of a node that is a pre-candidate. -/
def Prevoted (inputs : List Input) (k : ℕ) (n : RaftNode) : Prop :=
  ∀ p, n.role = .preCandidate p → p.hasQuorum n.core = false ∧
    ∀ v ∈ p.preVotes, v = n.id ∨ GrantedPrevote inputs k n.term v

theorem GrantedPrevote.succ {t : ℕ} {v : NodeId} (h : GrantedPrevote inputs k t v) :
    GrantedPrevote inputs (k + 1) t v := by
  obtain ⟨j, hj, hrest⟩ := h
  exact ⟨j, by omega, hrest⟩

/-- A step that leaves a pre-candidate as it is. -/
theorem Prevoted.kept {n n' : RaftNode} (h : Prevoted inputs k n) (hrole : n'.role = n.role)
    (hp : n'.persistent = n.persistent) (hid : n'.id = n.id) : Prevoted inputs (k + 1) n' := by
  intro p hr
  obtain ⟨hq, hvotes⟩ := h p (hrole.symm.trans hr)
  refine ⟨(RaftNode.hasQuorum_congr hp rfl).trans hq, ?_⟩
  intro v hv
  rw [hid, show n'.term = n.term from congrArg Persistent.term hp]
  exact (hvotes v hv).imp_right GrantedPrevote.succ

theorem Prevoted.event {n : RaftNode} (h : Prevoted inputs k n) {event : Event}
    (hinput : inputs[k]? = some (.event event)) :
    Prevoted inputs (k + 1) (n.stepEvent event).1 := by
  intro p hr
  obtain ⟨hq, hvotes⟩ := RaftNode.stepEvent_preCandidate (fun p hp => (h p hp).1) hr
  refine ⟨hq, ?_⟩
  rcases hvotes with hown | ⟨p₀, hr₀, hterm, hid, hvotes⟩
  · exact fun v hv => Or.inl (hown v hv)
  intro v hv
  rw [hid, hterm]
  rcases hvotes v hv with hold | ⟨msg, rfl, hsender, hp⟩
  · exact ((h p₀ hr₀).2 v hold).imp_right GrantedPrevote.succ
  · exact Or.inr ⟨k, Nat.lt_succ_self k, msg, hinput, hsender, hp⟩

/-- Every step keeps what is true of pre-candidates. -/
theorem Prevoted.step (h : Prevoted inputs k s.node) {input : Input}
    (hinput : inputs[k]? = some input) : Prevoted inputs (k + 1) (s.step input).node := by
  by_cases hevent : ∃ event, input = .event event
  · obtain ⟨event, rfl⟩ := hevent
    exact h.event hinput
  rcases s.handle_settled (fun e he => hevent ⟨e, he⟩) with (⟨l, hl⟩ | ⟨f, hf⟩) | ⟨hr, hp, hc⟩
  · intro p hrole
    rw [show (s.step input).node.role = _ from hl] at hrole
    cases hrole
  · intro p hrole
    rw [show (s.step input).node.role = _ from hf] at hrole
    cases hrole
  · exact h.kept hr hp (congrArg Config.id hc)

theorem moment_prevoted (config : Config) (saved : Persistent) (hk : k ≤ inputs.length) :
    Prevoted inputs k ((start config saved).moment inputs k).node := by
  induction k with
  | zero => exact nofun
  | succ k ih =>
    have hinput : inputs[k]? = some inputs[k] := List.getElem?_eq_getElem (by omega)
    rw [moment_succ _ _ hinput]
    exact (ih (by omega)).step hinput

/-- An election that a message asks for. -/
theorem asksElection (hk : k ≤ inputs.length) {msg : Message}
    (hinput : inputs[k]? = some (.event (.message msg)))
    (h : ((start config saved).moment inputs k).node.AskedBy msg) :
    AsksElection (start config saved) inputs k := by
  refine ⟨msg, hinput, h.imp_right ?_⟩
  rintro ⟨p, hr, hcompletes⟩
  obtain ⟨hq, hvotes⟩ := moment_prevoted config saved hk p hr
  exact ⟨p, hr, hq, hcompletes, hvotes⟩

/-- Pre-votes guard the term of a node, in any run in which it has more than one voter,
exactly when no tick finds it a candidate whose election has timed out. -/
theorem prevote_guards_term_iff (config : Config) (saved : Persistent) (inputs : List Input)
    (hprevote : config.prevote = true)
    (hvoters : ∀ k ≤ inputs.length,
      1 < ((start config saved).moment inputs k).node.core.effectiveConfig.voterCount) :
    TermGuarded (start config saved) inputs ↔
    ∀ k event, inputs[k]? = some (.event event) →
      ((start config saved).moment inputs k).node.restartsElection event = false := by
  have hasks (k : ℕ) (event : Event) (hinput : inputs[k]? = some (.event event))
      (hcalm : ((start config saved).moment inputs k).node.restartsElection event = false)
      (helects : (((start config saved).moment inputs k).node.electionIn event).isSome = true) :
      ∃ msg, event = .message msg ∧ ((start config saved).moment inputs k).node.AskedBy msg := by
    have hk : k ≤ inputs.length := (List.getElem?_eq_some_iff.mp hinput).1.le
    obtain ⟨core, hcore⟩ := Option.isSome_iff_exists.mp helects
    have hon : ((start config saved).moment inputs k).node.core.config.prevote = true := by
      rw [moment_config]
      exact hprevote
    rcases RaftNode.electionIn_asks hon (hvoters k hk) hcore with hmsg | hrestart
    · exact hmsg
    · rw [hcalm] at hrestart
      cases hrestart
  constructor
  · rintro ⟨helections, -⟩ k event hinput
    by_contra hrestart
    rw [Bool.not_eq_false] at hrestart
    -- the election that the tick restarts is asked for by no message
    obtain ⟨msg, hmsg, -⟩ :=
      helections k event hinput (RaftNode.electionIn_restarts hrestart)
    rw [hinput, Option.some.injEq, Input.event.injEq] at hmsg
    rw [hmsg] at hrestart
    cases hrestart
  · intro hcalm
    refine ⟨?_, ?_⟩
    · intro k event hinput helects
      obtain ⟨msg, rfl, hasked⟩ := hasks k event hinput (hcalm k event hinput) helects
      exact asksElection (List.getElem?_eq_some_iff.mp hinput).1.le hinput hasked
    · intro j k hjk hticks
      induction k, hjk using Nat.le_induction with
      | base => rfl
      | succ k hjk ih =>
        have htick := hticks k hjk (Nat.lt_succ_self k)
        have hnone : ((start config saved).moment inputs k).node.electionIn .tick = none := by
          by_contra hsome
          obtain ⟨msg, hmsg, -⟩ := hasks k .tick htick (hcalm k .tick htick)
            (Option.isSome_iff_ne_none.mpr hsome)
          cases hmsg
        rw [← ih (fun i hji hik => hticks i hji (by omega)), moment_succ _ _ htick]
        exact RaftNode.tick_term hnone

/-- A voter of three that campaigns after one tick. -/
def eager : Config := { Config.new 0 with electionTimeout := (1, 2) }

/-- It times out and one pre-vote is granted to it. -/
def wonPrevote : List Input :=
  [.event .tick,
    .event (.message
      { sender := 1, receiver := 0, term := 0
        payload := .preVoteResponse { term := 0, granted := true } })]

/-- Its election is asked for by the pre-vote. -/
theorem prevote_guards_term_wonPrevote :
    TermGuarded (start eager (RaftNode.new eager [0, 1, 2]).persistent) wonPrevote := by
  refine (prevote_guards_term_iff eager _ wonPrevote rfl (by decide +kernel)).mpr ?_
  intro k event hinput
  have hk : k < 2 := (List.getElem?_eq_some_iff.mp hinput).1
  interval_cases k
  · cases hinput
    decide +kernel
  · cases hinput
    rfl

/-- Then its messages are lost and nothing answers, but its next tick raises the term again. -/
theorem abandoned_election_raises_term :
    eager.prevote = true ∧
    (∀ k ≤ 3, 1 < ((start eager (RaftNode.new eager [0, 1, 2]).persistent).moment
      (wonPrevote ++ [.event .tick]) k).node.core.effectiveConfig.voterCount) ∧
    ¬TermGuarded (start eager (RaftNode.new eager [0, 1, 2]).persistent)
      (wonPrevote ++ [.event .tick]) := by
  refine ⟨rfl, by decide +kernel, ?_⟩
  rintro ⟨-, hticks⟩
  have hsame := hticks 2 3 (by decide) (by
    intro i hi hlt
    obtain rfl : i = 2 := by omega
    rfl)
  exact absurd hsame (by decide +kernel)

end Solo
end BasisDB.Raft
