import BasisDB.RaftRuns

/-! Runs that change the membership: one leader per term, and configurations that
follow from one another, when changes are proposed and joint configurations are
crossed in the right order. -/
namespace BasisDB.Raft
open ReplicatedLog

/-- A joint configuration above the commit index is followed by a later configuration. -/
def Log.followedJoint (log : Log) (commit : ℕ) : Bool :=
  log.entries.any (fun e => e.payload.asConfig.any Configuration.isJoint &&
    decide (commit < e.index) &&
      log.entries.any (fun x => x.payload.isConfig && decide (e.index < x.index)))

/-- A legal step changes the configuration. -/
theorem Legal.ne {mode : MembershipMode} {c c' : Configuration} (h : Legal mode c c') : c ≠ c' := by
  rintro rfl
  cases c with
  | joint old new learners =>
    rcases h with ⟨change, hval, -⟩ | htarget
    · cases hval
    · cases htarget
  | simple voters learners =>
    rcases h with ⟨change, hval, happ⟩ | htarget
    · -- each change adds what was not there, or removes what was
      cases change with
      | addVoter id =>
        simp only [ConfigChange.apply, ConfigChange.baseSets, Configuration.simple.injEq] at happ
        have hmem : id ∈ voters := happ.1 ▸ (OrdSet.mem_insert _ _ _).mpr (Or.inl rfl)
        simp [ConfigChange.validate, hmem] at hval
      | removeVoter id =>
        simp only [ConfigChange.apply, ConfigChange.baseSets, Configuration.simple.injEq] at happ
        have hmem : id ∉ voters := fun hm => ((OrdSet.mem_remove _ _ _).mp (happ.1 ▸ hm)).2 rfl
        simp [ConfigChange.validate, hmem] at hval
      | addLearner id =>
        simp only [ConfigChange.apply, ConfigChange.baseSets, Configuration.simple.injEq] at happ
        have hmem : id ∈ learners := happ.2 ▸ (OrdSet.mem_insert _ _ _).mpr (Or.inl rfl)
        simp only [ConfigChange.validate, OrdSet.contains_iff, hmem, if_true] at hval
        split_ifs at hval
      | removeLearner id =>
        simp only [ConfigChange.apply, ConfigChange.baseSets, Configuration.simple.injEq] at happ
        have hmem : id ∉ learners := fun hm => ((OrdSet.mem_remove _ _ _).mp (happ.2 ▸ hm)).2 rfl
        simp [ConfigChange.validate, hmem] at hval
      | setMembers members =>
        simp only [ConfigChange.apply] at happ
        split_ifs at happ
        · obtain ⟨hv, hl⟩ := Configuration.simple.inj happ
          simp [ConfigChange.validate, ConfigChange.validateMembers, ← hv, ← hl] at hval
    · cases htarget

theorem crossable_of_followedJoint {g : Guards} (hg : g.reconfig) {log : Log} {commit : ℕ}
    (h : log.followedJoint commit = false) : Leader.Crossable g log commit := by
  intro e he c hc hjoint hlt
  refine ⟨hg, fun _ x hx hxc => ?_⟩
  by_contra hgt
  have hyes : log.followedJoint commit = true := by
    simp only [Log.followedJoint, List.any_eq_true, Bool.and_eq_true, decide_eq_true_eq]
    exact ⟨e, he, ⟨by simp [hc, EntryPayload.asConfig, hjoint], hlt⟩, x, hx, hxc, by omega⟩
  rw [h] at hyes
  cases hyes

namespace Cluster

/-- A configuration change is proposed to a leader that has committed an entry of
its term. -/
def SettledChange (s : Cluster) : Action → Prop
  | .proposeConfigChange n _ => (s.nodes n).isLeader = true →
      (Leader.currentTermCommitIndex (s.nodes n).core).isSome = true
  | _ => True

/-- A leader whose commit index may move has no joint configuration above it that was
already followed by another configuration. -/
def JointsLast (s : Cluster) (a : Action) : Prop :=
  ∀ n ∈ s.committer a, (s.nodes n).isLeader = true →
    (s.nodes n).log.followedJoint (s.nodes n).commitIndex = false

/-- A truthful run whose configuration changes come in order. -/
def Orderly (s : Cluster) (acts : List Action) : Prop :=
  s.Truthful acts ∧ ∀ k < acts.length, ∀ a ∈ acts[k]?,
    (s.moment acts k).SettledChange a ∧ (s.moment acts k).JointsLast a

instance (s : Cluster) (a : Action) : Decidable (s.SettledChange a) := by
  unfold SettledChange
  split <;> infer_instance

instance (s : Cluster) (a : Action) : Decidable (s.JointsLast a) :=
  inferInstanceAs (Decidable (∀ n ∈ s.committer a, _))

instance (s : Cluster) (acts : List Action) : Decidable (s.Orderly acts) :=
  inferInstanceAs (Decidable (_ ∧ ∀ k < acts.length, _))

variable {configs : NodeId → Config} {voters : List NodeId} {mode : MembershipMode}
  {acts : List Action}

theorem orderly_respects (hmode : ∀ n, (configs n).membershipMode = mode)
    (hord : (init configs voters).Orderly acts) :
    Respects mode True (init configs voters) acts := by
  have hstep (k : ℕ) (a : Action) (ha : acts[k]? = some a) :=
    hord.2 k (List.getElem?_eq_some_iff.mp ha).1 a ha
  refine ⟨hord.1, ?_, ?_⟩
  · intro k a n ha hn hl
    exact crossable_of_followedJoint trivial ((hstep k a ha).2 n hn hl)
  · intro k n change ha hl
    exact ⟨trivial, hmode n, (hstep k _ ha).1 hl⟩

/-- Election safety under membership changes: in an orderly run of nodes in one mode,
two nodes that lead one term, at whatever moments, are one node. -/
theorem one_leader_per_term_reconfig (configs : NodeId → Config) (voters : List NodeId)
    (mode : MembershipMode) (hmode : ∀ n, (configs n).membershipMode = mode) (acts : List Action)
    (hord : (init configs voters).Orderly acts) (j k : ℕ) (n p : NodeId)
    (hn : (((init configs voters).moment acts j).nodes n).isLeader = true)
    (hp : (((init configs voters).moment acts k).nodes p).isLeader = true)
    (hterm : (((init configs voters).moment acts j).nodes n).term =
      (((init configs voters).moment acts k).nodes p).term) : n = p := by
  obtain ⟨hs, ht⟩ := tracked_run configs voters (orderly_respects hmode hord) (max j k)
  have hj := leader_of_isLeader (ht.kept j (le_max_left _ _)).sim hn
  have hk := leader_of_isLeader (ht.kept k (le_max_right _ _)).sim hp
  rw [hterm] at hj
  rcases le_total j k with hjk | hkj
  · have := (ht.le j k hjk (le_max_right _ _)).leader _ _ hj
    rw [hk] at this
    exact (Option.some.inj this).symm
  · have := (ht.le k j hkj (le_max_left _ _)).leader _ _ hk
    rw [hj] at this
    exact Option.some.inj this

/-- The settings of `quickConfig`, in joint-consensus mode. -/
def jointConfig (n : NodeId) : Config :=
  { quickConfig n with membershipMode := .jointConsensus }

def pairMembers : Members where
  voters := OrdSet.ofList [0, 1]
  learners := OrdSet.empty
  disjoint := fun id hid => absurd hid (OrdSet.not_mem_empty id)

/-- Node 0 starts alone and takes in node 1 through a joint configuration. -/
def growRun : List Action :=
  [.tick 0, .propose 0 ⟨[7]⟩, .proposeConfigChange 0 (.setMembers pairMembers), .deliver 0,
    .deliver 1, .deliver 2, .deliver 3, .deliver 4, .deliver 5]

theorem one_leader_per_term_growRun :
    (((init jointConfig [0]).moment growRun 1).nodes 0).isLeader = true ∧
      (((init jointConfig [0]).moment growRun 9).nodes 0).isLeader = true ∧ (0 : NodeId) = 0 :=
  ⟨by decide +kernel, by decide +kernel,
    one_leader_per_term_reconfig jointConfig [0] .jointConsensus (fun _ => rfl) growRun
      (by decide +kernel) 1 9 0 0 (by decide +kernel) (by decide +kernel) (by decide +kernel)⟩

/-- Leaders of terms 1 and 2 each remove another voter without having committed
anything. In term 3 their configurations have quorums that do not meet. -/
def splitRun : List Action :=
  [.tick 0, .deliver 0, .deliver 1, .deliver 3, .deliver 4,
    .proposeConfigChange 0 (.removeVoter 3), .tick 1, .deliver 11, .deliver 12, .deliver 13,
    .deliver 14, .proposeConfigChange 1 (.removeVoter 0), .deliver 10, .tick 0, .restart 1,
    .tick 1, .deliver 21, .deliver 23, .deliver 24, .deliver 25]

/-- Two leaders of term 3. -/
theorem splitRun_two_leaders :
    (((init quickConfig [0, 1, 2, 3]).run splitRun).nodes 0).isLeader = true ∧
      (((init quickConfig [0, 1, 2, 3]).run splitRun).nodes 1).isLeader = true ∧
      (((init quickConfig [0, 1, 2, 3]).run splitRun).nodes 0).term = 3 ∧
      (((init quickConfig [0, 1, 2, 3]).run splitRun).nodes 1).term = 3 := by
  decide +kernel

/-- The configurations a node has gone through, the initial one first. -/
def configHistory (s : Cluster) (n : NodeId) : List Configuration :=
  (s.nodes n).core.persistent.bootstrapConfig ::
    (s.nodes n).log.entries.filterMap (fun e => e.payload.asConfig)

/-- In an orderly run of nodes in one mode, each configuration in a node's log is a
legal step from the one before. -/
theorem config_history_legal (configs : NodeId → Config) (voters : List NodeId)
    (mode : MembershipMode) (hmode : ∀ n, (configs n).membershipMode = mode) (acts : List Action)
    (hord : (init configs voters).Orderly acts) (n : NodeId) :
    (((init configs voters).run acts).configHistory n).IsChain (Legal mode) := by
  obtain ⟨hs, ht⟩ := tracked_run configs voters (orderly_respects hmode hord) acts.length
  have hk := ht.kept acts.length le_rfl
  rw [moment, List.take_length] at hk
  have hboot : (((init configs voters).run acts).nodes n).core.persistent.bootstrapConfig =
      (scheme (Configuration.ofVoters voters)).boot := (hk.formed.views n).boot_eq
  rw [configHistory, hboot]
  refine History.isChain_configs _ ?_
  intro P e c hP hc
  exact (hk.chained.entry hk.sim.inv (coherent_log hk.sim n) hP hc).1.2

theorem config_history_legal_growRun :
    ((init jointConfig [0]).run growRun).configHistory 1 =
        [.ofVoters [0], .joint (OrdSet.ofList [0]) (OrdSet.ofList [0, 1]) OrdSet.empty,
          .ofVoters [0, 1]] ∧
      (((init jointConfig [0]).run growRun).configHistory 1).IsChain (Legal .jointConsensus) :=
  ⟨by decide +kernel, config_history_legal jointConfig [0] .jointConsensus (fun _ => rfl) growRun
    (by decide +kernel) 1⟩

/-- After `growRun` both nodes restart, and node 1 commits a new command. Its commit
index moves over the old joint configuration, whose target is appended again. -/
def regrowRun : List Action :=
  growRun ++ [.restart 0, .restart 1, .tick 1, .deliver 6, .deliver 7, .propose 1 ⟨[8]⟩,
    .deliver 9, .deliver 10]

theorem regrowRun_configHistory :
    ((init jointConfig [0]).run regrowRun).configHistory 1 =
      [.ofVoters [0], .joint (OrdSet.ofList [0]) (OrdSet.ofList [0, 1]) OrdSet.empty,
        .ofVoters [0, 1], .ofVoters [0, 1]] := by
  decide +kernel

/-- The last step of that history is none of the legal ones. -/
theorem regrowRun_illegal :
    ¬ (((init jointConfig [0]).run regrowRun).configHistory 1).IsChain (Legal .jointConsensus) := by
  rw [regrowRun_configHistory]
  intro h
  simp only [List.isChain_cons_cons] at h
  exact h.2.2.1.ne rfl

end Cluster
end BasisDB.Raft
