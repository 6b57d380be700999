import BasisDB.RaftRefineNode

/-! Every action of a cluster run is a sequence of protocol steps, and a node's
disk always holds the node's persistent state. -/
namespace BasisDB.Raft

def Cluster.world (s : Cluster) : World :=
  { views := fun n => (s.nodes n).view
    net := {m | m ∈ s.net} }

namespace Cluster

/-- Nodes keep their settings, disks are up to date, and the protocol state is
well formed. -/
structure Sound (configs : NodeId → Config) (boot : Configuration) (s : Cluster) : Prop where
  config : ∀ n, (s.nodes n).core.config = { configs n with id := n }
  disk : ∀ n, s.disk n = (s.nodes n).persistent
  formed : s.world.Formed boot

/-- Delivering `msg` meets a log that the guards allow. -/
def PermitsDelivery (g : Guards) (s : Cluster) (msg : Message) : Prop :=
  ∀ f req, (s.nodes msg.receiver).role = .follower f → msg.payload = .appendRequest req →
    (s.nodes msg.receiver).term ≤ msg.term →
    Follower.accepts (s.nodes msg.receiver).log req = true →
    g.absorb msg (s.nodes msg.receiver).log

/-- The node whose commit index the action may move if it leads. -/
def committer (s : Cluster) : Action → Option NodeId
  | .propose n _ => some n
  | .diskWriteComplete n _ => some n
  | .deliver k =>
    match s.net[k]? with
    | some msg =>
      match msg.payload with
      | .appendResponse resp =>
        if resp.success = true ∧ msg.term = (s.nodes msg.receiver).term then some msg.receiver
        else none
      | _ => none
    | none => none
  | _ => none

/-- The guards allow the action in this state. -/
def Permits (g : Guards) (s : Cluster) (a : Action) : Prop :=
  (∀ n, s.committer a = some n → (s.nodes n).isLeader = true →
    Leader.Crossable g (s.nodes n).log (s.nodes n).commitIndex) ∧
  match a with
  | .deliver k => ∀ msg, s.net[k]? = some msg → s.PermitsDelivery g msg
  | .propose n cmd => g.command
      { term := (s.nodes n).term, index := (s.nodes n).log.lastIndex + 1, payload := .command cmd }
  | .proposeConfigChange n _ => (s.nodes n).isLeader = true → g.reconfig ∧
      (g.strict → (s.nodes n).core.config.membershipMode = g.mode ∧
        (Leader.currentTermCommitIndex (s.nodes n).core).isSome = true)
  | _ => True

variable {g : Guards} {configs : NodeId → Config} {boot : Configuration} {s : Cluster}

theorem Sound.id (hs : s.Sound configs boot) (n : NodeId) : (s.nodes n).core.id = n := by
  rw [Core.id, hs.config n]

theorem handleEffects_refines (hs : s.Sound configs boot) (n : NodeId) {r : RaftNode × Effects}
    (hc : Carries g s.world.net (s.nodes n).core (s.nodes n).role.view r.1.core r.1.role.view r.2) :
    Relation.ReflTransGen (World.Step g) s.world (s.handleEffects n r).world ∧
      (s.handleEffects n r).Sound configs boot := by
  have hsteps := hc.steps
  rw [hs.id n] at hsteps
  have hworld : (s.handleEffects n r).world = s.world.set n r.1.view (r.2.sent s.world.net) := by
    simp only [world, handleEffects, World.set, Effects.sent]
    congr 1
    · funext p
      by_cases hp : p = n
      · subst hp
        simp
      · simp [hp]
    · ext m
      simp
  have hrun : Relation.ReflTransGen (World.Step g) s.world (s.handleEffects n r).world := by
    rw [hworld]
    exact World.steps_of_micros (w := s.world) hsteps
  refine ⟨hrun, ?_, ?_, ?_⟩
  · intro p
    by_cases hp : p = n
    · subst hp
      simp only [handleEffects, Function.update_self]
      rw [hc.config, hs.config]
    · simp only [handleEffects, Function.update_of_ne hp]
      exact hs.config p
  · intro p
    simp only [handleEffects]
    by_cases hp : p = n
    · subst hp
      rw [Function.update_self]
      split_ifs with hper
      · rw [Function.update_self]
      · rw [hs.disk p]
        exact (hc.saved ((Bool.not_eq_true _).mp hper)).symm
    · rw [Function.update_of_ne hp]
      split_ifs
      · rw [Function.update_of_ne hp]
        exact hs.disk p
      · exact hs.disk p
  · exact World.steps_formed hrun hs.formed

/-- A change of one node that the protocol does not see, or sees as one step. -/
theorem setNode_refines (hs : s.Sound configs boot) (n : NodeId) {node : RaftNode}
    (hstep : Micros g n ((s.nodes n).view, s.world.net) (node.view, s.world.net))
    (hconfig : node.core.config = (s.nodes n).core.config)
    (hpers : node.persistent = (s.nodes n).persistent) :
    Relation.ReflTransGen (World.Step g) s.world (s.setNode n node).world ∧
      (s.setNode n node).Sound configs boot := by
  have hworld : (s.setNode n node).world = s.world.set n node.view s.world.net := by
    simp only [world, setNode, World.set]
    congr 1
    funext p
    by_cases hp : p = n
    · subst hp
      simp
    · simp [hp]
  have hrun : Relation.ReflTransGen (World.Step g) s.world (s.setNode n node).world := by
    rw [hworld]
    exact World.steps_of_micros (w := s.world) hstep
  refine ⟨hrun, ?_, ?_, ?_⟩
  · intro p
    by_cases hp : p = n
    · subst hp
      simp only [setNode, Function.update_self]
      rw [hconfig, hs.config]
    · simp only [setNode, Function.update_of_ne hp]
      exact hs.config p
  · intro p
    by_cases hp : p = n
    · subst hp
      simp only [setNode, Function.update_self]
      rw [hpers, hs.disk]
    · simp only [setNode, Function.update_of_ne hp]
      exact hs.disk p
  · exact World.steps_formed hrun hs.formed

theorem Sound.ready (hs : s.Sound configs boot) (n : NodeId) :
    (s.nodes n).Ready boot s.world.net where
  formed := hs.formed.views n
  net_formed := hs.formed.net

theorem deliverMessage_refines (hs : s.Sound configs boot) {msg : Message}
    (hsent : msg.payload ≠ .timeoutNow → msg ∈ s.net) (hmsg : msg.Formed)
    (hp : s.PermitsDelivery g msg)
    (hcross : ∀ resp, msg.payload = .appendResponse resp → resp.success = true →
      msg.term = (s.nodes msg.receiver).term → (s.nodes msg.receiver).isLeader = true →
      Leader.Crossable g (s.nodes msg.receiver).log (s.nodes msg.receiver).commitIndex) :
    Relation.ReflTransGen (World.Step g) s.world (s.deliverMessage msg).world ∧
      (s.deliverMessage msg).Sound configs boot := by
  have hd : Delivery g s.world.net (s.nodes msg.receiver).core msg :=
    { sent := hsent
      formed := hmsg
      receiver := (hs.id msg.receiver).symm
      plain := (hs.formed.views msg.receiver).plain }
  exact handleEffects_refines hs msg.receiver (RaftNode.step_carries (hs.ready _) hd hp hcross)

theorem handleCall_refines {ε α : Type} (hs : s.Sound configs boot) (n : NodeId)
    {res : Except ε (α × Effects × RaftNode)}
    (hc : ∀ x eff n', res = .ok (x, eff, n') →
      Carries g s.world.net (s.nodes n).core (s.nodes n).role.view n'.core n'.role.view eff) :
    Relation.ReflTransGen (World.Step g) s.world (s.handleCall n res).world ∧
      (s.handleCall n res).Sound configs boot := by
  cases res with
  | error e => exact ⟨Relation.ReflTransGen.refl, hs⟩
  | ok r => exact handleEffects_refines hs n (hc r.1 r.2.1 r.2.2 rfl)

/-- One action of a run, as protocol steps. -/
theorem step_refines (hs : s.Sound configs boot) {a : Action} (ha : s.Permits g a) :
    Relation.ReflTransGen (World.Step g) s.world (s.step a).world ∧
      (s.step a).Sound configs boot := by
  have hready := hs.ready
  cases a with
  | tick n => exact handleEffects_refines hs n (RaftNode.tick_carries (hready n))
  | deliver k =>
    simp only [step]
    cases hk : s.net[k]? with
    | none => exact ⟨Relation.ReflTransGen.refl, hs⟩
    | some msg =>
      have hmem := List.mem_of_getElem? hk
      refine deliverMessage_refines hs (fun _ => hmem) (hs.formed.net msg hmem) (ha.2 msg hk) ?_
      intro resp hp hsuc ht
      exact ha.1 msg.receiver (by simp [committer, hk, hp, hsuc, ht])
  | timeoutNow sender receiver term =>
    refine deliverMessage_refines hs (fun h => absurd rfl h) trivial ?_ ?_
    · intro f req _ hp
      cases hp
    · intro resp hp
      cases hp
  | propose n cmd =>
    exact handleCall_refines hs n (fun _ _ _ h =>
      RaftNode.propose_carries (hready n) (ha.1 n rfl) ha.2 h)
  | proposeConfigChange n change =>
    refine handleCall_refines hs n (fun _ _ _ h => ?_)
    have hlead : (s.nodes n).isLeader = true := by
      unfold RaftNode.proposeConfigChange at h
      split at h
      · rename_i l hr
        simp [RaftNode.isLeader, hr, RoleState.isLeader]
      · cases h
    obtain ⟨hg, hrule⟩ := ha.2 hlead
    exact RaftNode.proposeConfigChange_carries (hready n) h hg hrule
  | requestReadIndex n =>
    exact handleCall_refines hs n (fun _ _ _ h => RaftNode.requestReadIndex_carries h)
  | transferLeadership n target =>
    simp only [step]
    cases ht : (s.nodes n).transferLeadership target with
    | error e => exact ⟨Relation.ReflTransGen.refl, hs⟩
    | ok eff => exact handleEffects_refines hs n (RaftNode.transferLeadership_carries ht)
  | diskWriteComplete n index =>
    exact handleEffects_refines hs n (RaftNode.diskWriteComplete_carries (hready n) (ha.1 n rfl) index)
  | advance n appliedTo => exact setNode_refines hs n Relation.ReflTransGen.refl rfl rfl
  | restart n =>
    have hview : (RaftNode.restore (s.nodes n).core.config (s.disk n)).view =
        { (s.nodes n).view with commitIndex := 0, role := .follower } := by
      rw [hs.disk n]
      rfl
    refine setNode_refines hs n ?_ rfl (hs.disk n)
    rw [hview]
    exact Relation.ReflTransGen.single Micro.restart

/-- A new cluster is sound. -/
theorem init_sound (configs : NodeId → Config) (voters : List NodeId) :
    (Cluster.init configs voters).Sound configs (Configuration.ofVoters voters) where
  config := fun _ => rfl
  disk := fun _ => rfl
  formed :=
    { views := fun _ => ⟨Log.Plain.empty, rfl, fun h => absurd rfl h⟩
      net := fun _ hm => absurd hm List.not_mem_nil }

end Cluster
end BasisDB.Raft
