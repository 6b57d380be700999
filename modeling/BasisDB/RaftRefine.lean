import BasisDB.RaftFormed

/-! The code carries out the protocol: what a follower, a pre-candidate or a
candidate does on an event is a run of small steps, and what it does not save it
did not change. -/
namespace BasisDB.Raft

def Leader.view (l : Leader) : LeaderView :=
  { matched := l.matchOf
    nextReadId := l.nextReadId
    pending := l.pendingReadIndex
    confirmed := l.confirmedReadIndex }

def RoleState.view : RoleState → RoleView
  | .follower _ => .follower
  | .preCandidate _ => .follower
  | .candidate c => .candidate c.votes
  | .leader l => .leader l.view

def Core.view (core : Core) (role : RoleView) : View :=
  { persistent := core.persistent, commitIndex := core.commitIndex, role := role }

def RaftNode.view (n : RaftNode) : View := n.core.view n.role.view

/-- The messages sent once the effects are released. -/
def Effects.sent (eff : Effects) (net : Set Message) : Set Message := net ∪ {m | m ∈ eff.messages}

@[simp] theorem Effects.sent_none (net : Set Message) : Effects.none.sent net = net := by
  simp [Effects.sent, Effects.none]

@[simp] theorem Effects.sent_withPersist (eff : Effects) (net : Set Message) :
    eff.withPersist.sent net = eff.sent net := rfl

theorem Effects.sent_merge (e₁ e₂ : Effects) (net : Set Message) :
    (e₁.merge e₂).sent net = e₂.sent (e₁.sent net) := by
  ext m
  simp [Effects.sent, Effects.merge, or_assoc]

@[simp] theorem Effects.sent_withMessage (eff : Effects) (m : Message) (net : Set Message) :
    (eff.withMessage m).sent net = insert m (eff.sent net) := by
  ext x
  simp only [Effects.sent, Effects.withMessage, List.mem_append, List.mem_singleton, Set.mem_union,
    Set.mem_ofPred_eq, Set.mem_insert_iff]
  tauto

/-- From `core` in role `r` to `core'` in role `r'` by small steps that send the
effects' messages; without the persist flag the saved state is untouched. -/
structure Carries (g : Guards) (net : Set Message) (core : Core) (r : RoleView) (core' : Core)
    (r' : RoleView) (eff : Effects) : Prop where
  steps : Micros g core.id (core.view r, net) (core'.view r', eff.sent net)
  saved : eff.persist = false → core'.persistent = core.persistent
  config : core'.config = core.config

section Carries
variable {g : Guards} {net : Set Message} {core core' core'' : Core} {r r' r'' : RoleView}
  {eff eff' : Effects}

theorem Carries.refl (g : Guards) (net : Set Message) (core : Core) (r : RoleView) :
    Carries g net core r core r Effects.none where
  steps := by
    rw [Effects.sent_none]
    exact Relation.ReflTransGen.refl
  saved := fun _ => rfl
  config := rfl

/-- The clock and the timeout generator are not part of the protocol. -/
theorem Carries.of_same (hp : core'.persistent = core.persistent)
    (hc : core'.commitIndex = core.commitIndex) (hcfg : core'.config = core.config) :
    Carries g net core r core' r Effects.none where
  steps := by
    rw [Effects.sent_none]
    have hview : core'.view r = core.view r := by simp [Core.view, hp, hc]
    rw [hview]
    exact Relation.ReflTransGen.refl
  saved := fun _ => hp
  config := hcfg

theorem Carries.trans (h₁ : Carries g net core r core' r' eff)
    (h₂ : Carries g (eff.sent net) core' r' core'' r'' eff') :
    Carries g net core r core'' r'' (eff.merge eff') where
  steps := by
    rw [Effects.sent_merge]
    have hid : core'.id = core.id := by simp [Core.id, h₁.config]
    exact h₁.steps.trans (hid ▸ h₂.steps)
  saved := by
    intro hp
    simp only [Effects.merge, Bool.or_eq_false_iff] at hp
    rw [h₂.saved hp.2, h₁.saved hp.1]
  config := h₂.config.trans h₁.config

theorem Carries.congr (h : Carries g net core r core' r' eff)
    (hm : ∀ m, m ∈ eff'.messages ↔ m ∈ eff.messages) (hp : eff'.persist = eff.persist) :
    Carries g net core r core' r' eff' where
  steps := by
    have hs : eff'.sent net = eff.sent net := by
      ext m
      simp [Effects.sent, hm]
    rw [hs]
    exact h.steps
  saved := fun h' => h.saved (hp ▸ h')
  config := h.config

theorem Carries.merge_none (h : Carries g net core r core' r' (eff.merge Effects.none)) :
    Carries g net core r core' r' eff :=
  h.congr (by simp [Effects.merge, Effects.none]) (by simp [Effects.merge, Effects.none])

theorem Carries.none_merge (h : Carries g net core r core' r' (Effects.none.merge eff)) :
    Carries g net core r core' r' eff :=
  h.congr (by simp [Effects.merge, Effects.none]) (by simp [Effects.merge, Effects.none])

theorem Carries.withPersist (h : Carries g net core r core' r' eff) :
    Carries g net core r core' r' eff.withPersist where
  steps := h.steps
  saved := fun hp => absurd hp (by simp [Effects.withPersist])
  config := h.config

/-- One small step, with the effects it stands for. -/
theorem Carries.single (h : Micro g core.id (core.view r) net (core'.view r') (eff.sent net))
    (hs : eff.persist = false → core'.persistent = core.persistent)
    (hc : core'.config = core.config) : Carries g net core r core' r' eff where
  steps := Relation.ReflTransGen.single h
  saved := hs
  config := hc

theorem Carries.stepDown (g : Guards) (net : Set Message) (core : Core) (r : RoleView) :
    Carries g net core r core .follower Effects.none := by
  refine Carries.single ?_ (fun _ => rfl) rfl
  rw [Effects.sent_none]
  exact Micro.stepDown

theorem Emits.mono {me : NodeId} {v : View} {net net' : Set Message} {m : Message}
    (h : Emits me v net m) (hsub : net ⊆ net') : Emits me v net' m := by
  refine ⟨h.1, ?_⟩
  have h := h.2
  cases hp : m.payload with
  | readIndexResponse resp =>
    simp only [hp] at h ⊢
    obtain ⟨ht, q, hq, hle, hreq⟩ := h
    exact ⟨ht, q, hsub hq, hle, hreq⟩
  | _ =>
    rw [hp] at h
    exact h

/-- Sending messages that need no change of state. -/
theorem Carries.emits (h : ∀ m ∈ eff.messages, Emits core.id (core.view r) net m) :
    Carries g net core r core r eff where
  steps := by
    have key (ms : List Message) (net : Set Message)
        (hms : ∀ m ∈ ms, Emits core.id (core.view r) net m) :
        Micros g core.id (core.view r, net) (core.view r, net ∪ {m | m ∈ ms}) := by
      induction ms generalizing net with
      | nil =>
        simp only [List.not_mem_nil, Set.ofPred_false, Set.union_empty]
        exact Relation.ReflTransGen.refl
      | cons m ms ih =>
        have hset : net ∪ {x | x ∈ m :: ms} = insert m net ∪ {x | x ∈ ms} := by
          ext x
          simp only [List.mem_cons, Set.mem_union, Set.mem_ofPred_eq, Set.mem_insert_iff]
          tauto
        rw [hset]
        refine Relation.ReflTransGen.head (Micro.emit m (hms m (by simp))) (ih (insert m net) ?_)
        intro x hx
        exact (hms x (by simp [hx])).mono (Set.subset_insert _ _)
    exact key eff.messages net h
  saved := fun _ => rfl
  config := rfl

theorem Carries.withMessages (h : Carries g net core r core' r' eff) {ms : List Message}
    (hms : ∀ m ∈ ms, ∀ net, Emits core'.id (core'.view r') net m) :
    Carries g net core r core' r' (eff.withMessages ms) := by
  have hsend : Carries g (eff.sent net) core' r' core' r' (Effects.none.withMessages ms) :=
    Carries.emits (fun m hm => hms m (by simpa [Effects.withMessages, Effects.none] using hm) _)
  refine (h.trans hsend).congr ?_ ?_
  · simp [Effects.merge, Effects.withMessages, Effects.none]
  · simp [Effects.merge, Effects.withMessages, Effects.none]

theorem Carries.relax (h : Carries g net core r core' r' eff)
    (hp : core''.persistent = core'.persistent) (hc : core''.commitIndex = core'.commitIndex)
    (hcfg : core''.config = core'.config) : Carries g net core r core'' r' eff :=
  (h.trans (Carries.of_same hp hc hcfg)).merge_none

theorem Carries.emit {m : Message} (h : Emits core.id (core.view r) net m) :
    Carries g net core r core r (Effects.none.withMessage m) :=
  Carries.emits (by
    intro x hx
    rw [Effects.withMessage, Effects.none, List.nil_append, List.mem_singleton] at hx
    exact hx ▸ h)

end Carries
end BasisDB.Raft
