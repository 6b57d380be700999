import BasisDB.RaftSimRun
import BasisDB.RaftRefineCluster

/-! Runs with a fixed membership: one leader per term, and matching logs. -/
namespace BasisDB.Raft
open ReplicatedLog

def Action.reconfigures : Action → Bool
  | .proposeConfigChange _ _ => true
  | _ => false

/-- No action of the run changes the membership. -/
def FixedMembership (acts : List Action) : Prop := ∀ a ∈ acts, a.reconfigures = false

instance (acts : List Action) : Decidable (FixedMembership acts) :=
  inferInstanceAs (Decidable (∀ a ∈ acts, _))

/-- The state after the first `k` actions of a run. -/
def Cluster.moment (s : Cluster) (acts : List Action) (k : ℕ) : Cluster := s.run (acts.take k)

theorem Cluster.run_append (s : Cluster) (as bs : List Action) :
    s.run (as ++ bs) = (s.run as).run bs := List.foldl_append

/-- A later moment continues the run of an earlier one. -/
theorem Cluster.moment_run (s : Cluster) (acts : List Action) {j k : ℕ} (hjk : j ≤ k) :
    s.moment acts k = (s.moment acts j).run ((acts.take k).drop j) := by
  rw [moment, moment, ← run_append]
  have : acts.take j = (acts.take k).take j := by rw [List.take_take, min_eq_left hjk]
  rw [this, List.take_append_drop]

/-- No node of a fixed membership appends a configuration. -/
def fixedGuards : Guards where
  mode := .singleServer
  reconfig := False
  strict := True
  absorb := fun _ _ => True

/-- Only commands were ever appended. -/
def Commands (boot : Configuration) (h : History NodeId Entry) : Prop :=
  ∀ t, ∀ e ∈ h.leaderLog t, (scheme boot).conf e = none

variable {boot : Configuration} {h : History NodeId Entry} {w : World}

theorem Commands.unique (hc : Commands boot h) (hI : History.Inv (scheme boot) h) :
    Unique boot h := by
  intro u c L A d hE hd
  exact (History.Chained.of_plain hc).leader_unique hI (legal_overlapping boot .singleServer) hE hd

theorem Commands.log (hc : Commands boot h) (hI : History.Inv (scheme boot) h) (n : NodeId) :
    ∀ e ∈ h.log n, (scheme boot).conf e = none := by
  rcases List.eq_nil_or_concat' (h.log n) with hn | ⟨P, x, hP⟩
  · simp [hn]
  · have hcoh : Coherent (scheme boot) h.leaderLog (P ++ [x]) := hP ▸ hI.coherent n
    intro e he
    exact hc _ e (hcoh.self.subset (hP ▸ he))

/-- One protocol step under a fixed membership. -/
theorem Sim.fixed_step (hs : Sim boot w h) (hw : w.Formed boot) (hc : Commands boot h) {w' : World}
    (hstep : World.Step fixedGuards w w') :
    ∃ h', History.Le h h' ∧ Sim boot w' h' ∧ Commands boot h' := by
  obtain ⟨hm⟩ := hstep
  obtain ⟨h', hsteps, -, hs'⟩ := hs.step (G := fun _ _ e => (scheme boot).conf e = none) hw
    (hc.unique hs.inv) (by
      rintro n e l - (⟨cmd, hcmd⟩ | ⟨c, -, hg, -⟩)
      · simp [scheme, hcmd, EntryPayload.asConfig]
      · exact hg.elim) hm
  refine ⟨h', History.steps_le hsteps hs.inv, hs', ?_⟩
  clear hs'
  induction hsteps with
  | refl => exact hc
  | tail hpre hlast ih =>
    exact hlast.plain (History.steps_inv hpre hs.inv) ih (fun _ _ hG => hG)

theorem Sim.fixed_steps (hs : Sim boot w h) (hw : w.Formed boot) (hc : Commands boot h)
    {w' : World} (hsteps : Relation.ReflTransGen (World.Step fixedGuards) w w') :
    ∃ h', History.Le h h' ∧ Sim boot w' h' ∧ Commands boot h' := by
  induction hsteps with
  | refl => exact ⟨h, History.Le.refl h, hs, hc⟩
  | tail hpre hlast ih =>
    obtain ⟨h₁, hle, hs₁, hc₁⟩ := ih
    obtain ⟨h₂, hle', hs₂, hc₂⟩ := hs₁.fixed_step (World.steps_formed hpre hw) hc₁ hlast
    exact ⟨h₂, hle.trans hle', hs₂, hc₂⟩

namespace Cluster
variable {configs : NodeId → Config} {s : Cluster}

theorem fixed_permits (hs : Sim boot s.world h) (hc : Commands boot h) {a : Action}
    (ha : a.reconfigures = false) : s.Permits fixedGuards a := by
  refine ⟨?_, ?_⟩
  · intro n _ _ e he c hcfg
    have hlog : h.log n = (s.nodes n).log.entries := (hs.nodes n).log
    have := hc.log hs.inv n e (by rw [hlog]; exact he)
    simp [scheme, hcfg, EntryPayload.asConfig] at this
  · cases a with
    | proposeConfigChange n change => cases ha
    | deliver k => exact fun _ _ _ _ _ _ _ _ => trivial
    | _ => trivial

/-- A run with fixed membership is simulated by a history that only grows. -/
theorem fixed_run (hsound : s.Sound configs boot) (hs : Sim boot s.world h) (hc : Commands boot h)
    {acts : List Action} (hfix : FixedMembership acts) :
    (s.run acts).Sound configs boot ∧
      ∃ h', History.Le h h' ∧ Sim boot (s.run acts).world h' ∧ Commands boot h' := by
  induction acts generalizing s h with
  | nil => exact ⟨hsound, h, History.Le.refl h, hs, hc⟩
  | cons a acts ih =>
    obtain ⟨hsteps, hsound'⟩ := step_refines hsound
      (fixed_permits hs hc (hfix a List.mem_cons_self))
    obtain ⟨h₁, hle, hs₁, hc₁⟩ := hs.fixed_steps hsound.formed hc hsteps
    obtain ⟨hsound₂, h₂, hle', hs₂, hc₂⟩ :=
      ih hsound' hs₁ hc₁ (fun b hb => hfix b (List.mem_cons_of_mem _ hb))
    exact ⟨hsound₂, h₂, hle.trans hle', hs₂, hc₂⟩

theorem init_sim (configs : NodeId → Config) (voters : List NodeId) :
    Sim (Configuration.ofVoters voters) (init configs voters).world
      (History.start : History NodeId Entry) := by
  refine Sim.start (fun _ => rfl) (fun _ => rfl) (fun _ => rfl) (fun _ => rfl) ?_
  ext m
  simp [init, world]

theorem start_commands (boot : Configuration) : Commands boot (History.start) :=
  fun _ _ he => absurd he List.not_mem_nil

theorem FixedMembership.moment {acts : List Action} (h : FixedMembership acts) (k : ℕ) :
    FixedMembership (acts.take k) := fun a ha => h a (List.mem_of_mem_take ha)

/-- Two moments of one run, the histories that simulate them, and how they relate. -/
theorem fixed_moments (configs : NodeId → Config) (voters : List NodeId) {acts : List Action}
    (hfix : FixedMembership acts) {j k : ℕ} (hjk : j ≤ k) :
    ∃ h h', History.Le h h' ∧
      Sim (Configuration.ofVoters voters) ((init configs voters).moment acts j).world h ∧
      Sim (Configuration.ofVoters voters) ((init configs voters).moment acts k).world h' := by
  obtain ⟨hsound, h, -, hs, hc⟩ := fixed_run (init_sound configs voters) (init_sim configs voters)
    (start_commands _) (FixedMembership.moment hfix j)
  have hrest : FixedMembership ((acts.take k).drop j) :=
    fun a ha => hfix a (List.mem_of_mem_take (List.mem_of_mem_drop ha))
  obtain ⟨-, h', hle, hs', -⟩ := fixed_run hsound hs hc hrest
  refine ⟨h, h', hle, hs, ?_⟩
  rwa [moment_run _ _ hjk]

/-- A leader at some moment is the leader its term has in the history. -/
theorem leader_of_isLeader {s : Cluster} (hs : Sim boot s.world h) {n : NodeId}
    (hn : (s.nodes n).isLeader = true) : h.leader (s.nodes n).term = some n := by
  cases hr : (s.nodes n).role with
  | leader l =>
    refine (hs.nodes n).leader l.view ?_
    simp [world, RaftNode.view, Core.view, hr, RoleState.view]
  | follower f | preCandidate p | candidate c =>
    simp [RaftNode.isLeader, hr, RoleState.isLeader] at hn

/-- Election safety: two nodes that lead one term, at whatever moments, are one node. -/
theorem one_leader_per_term (configs : NodeId → Config) (voters : List NodeId)
    (acts : List Action) (hfix : FixedMembership acts) (j k : ℕ) (n p : NodeId)
    (hn : (((init configs voters).moment acts j).nodes n).isLeader = true)
    (hp : (((init configs voters).moment acts k).nodes p).isLeader = true)
    (hterm : (((init configs voters).moment acts j).nodes n).term =
      (((init configs voters).moment acts k).nodes p).term) : n = p := by
  rcases le_total j k with hjk | hkj
  · obtain ⟨h, h', hle, hs, hs'⟩ := fixed_moments configs voters hfix hjk
    have h1 := hle.leader _ _ (leader_of_isLeader hs hn)
    rw [hterm, leader_of_isLeader hs' hp] at h1
    exact (Option.some.inj h1).symm
  · obtain ⟨h, h', hle, hs, hs'⟩ := fixed_moments configs voters hfix hkj
    have h1 := hle.leader _ _ (leader_of_isLeader hs hp)
    rw [← hterm, leader_of_isLeader hs' hn] at h1
    exact Option.some.inj h1

/-- Short timeouts, and none of the optional optimisations. -/
def quickConfig (n : NodeId) : Config :=
  { Config.new n with
    electionTimeout := (1, 2)
    heartbeatInterval := 1
    prevote := false
    parallelDiskWrite := false
    pipelining := false }

/-- Two nodes: the first is elected, and its command is committed on both. -/
def pairRun : List Action :=
  [.tick 0, .deliver 0, .deliver 1, .propose 0 ⟨[7]⟩, .deliver 3, .deliver 4, .tick 0, .deliver 5]

theorem one_leader_per_term_pairRun :
    (((init quickConfig [0, 1]).moment pairRun 3).nodes 0).isLeader = true ∧
      (((init quickConfig [0, 1]).moment pairRun 8).nodes 0).isLeader = true ∧ (0 : NodeId) = 0 :=
  ⟨by decide +kernel, by decide +kernel,
    one_leader_per_term quickConfig [0, 1] pairRun (by decide) 3 8 0 0 (by decide +kernel)
      (by decide +kernel) (by decide +kernel)⟩

/-- Log matching: an index with the same term in two logs means that the logs are
the same up to it. -/
theorem log_matching (configs : NodeId → Config) (voters : List NodeId) (acts : List Action)
    (hfix : FixedMembership acts) (n p : NodeId) (i : ℕ) (e e' : Entry)
    (hn : (((init configs voters).run acts).nodes n).log.get i = some e)
    (hp : (((init configs voters).run acts).nodes p).log.get i = some e') (hterm : e.term = e'.term)
    (j : ℕ) (hj : j ≤ i) : (((init configs voters).run acts).nodes n).log.get j =
      (((init configs voters).run acts).nodes p).log.get j := by
  obtain ⟨hsound, h, -, hs, -⟩ := fixed_run (init_sound configs voters) (init_sim configs voters)
    (start_commands _) hfix
  have hpn : (((init configs voters).run acts).nodes n).log.Plain := (hsound.formed.views n).plain
  have hpp : (((init configs voters).run acts).nodes p).log.Plain := (hsound.formed.views p).plain
  cases i with
  | zero =>
    simp [Log.get] at hn
  | succ i =>
    rw [hpn.get_succ] at hn
    rw [hpp.get_succ] at hp
    obtain ⟨h1, hl1⟩ := prefix_of_getElem? hn
    obtain ⟨h2, hl2⟩ := prefix_of_getElem? hp
    have hc1 := (hs.nodes n).log ▸ hs.inv.coherent n
    have hc2 := (hs.nodes p).log ▸ hs.inv.coherent p
    have heq := hc1.matching hc2 h1 h2 (hl1.trans hl2.symm) hterm
    refine hpn.get_eq_of_prefix hpp h1 (heq ▸ h2) ?_
    rw [List.length_append, hl1, List.length_singleton]
    exact hj

theorem log_matching_pairRun :
    (((init quickConfig [0, 1]).run pairRun).nodes 0).log.get 1 =
      (((init quickConfig [0, 1]).run pairRun).nodes 1).log.get 1 :=
  log_matching quickConfig [0, 1] pairRun (by decide) 0 1 1 ⟨1, 1, .command ⟨[7]⟩⟩
    ⟨1, 1, .command ⟨[7]⟩⟩ (by decide +kernel) (by decide +kernel) rfl 1 le_rfl

end Cluster
end BasisDB.Raft
