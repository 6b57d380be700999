import BasisDB.LogReconfig
import BasisDB.RaftLog

/-! Quorums of configurations, and why those of a configuration and of a legal
successor of it always share a node. -/
namespace BasisDB.Raft
open ReplicatedLog

/-- A step of the configuration history: an accepted change, or the end of a
joint configuration. -/
def Legal (mode : MembershipMode) (c c' : Configuration) : Prop :=
  (∃ change : ConfigChange, change.validate c mode = .ok () ∧ c' = change.apply c mode) ∨
    c.transitionTarget = some c'

/-- The raft log as a replicated log: its terms, its configurations and their quorums. -/
def scheme (boot : Configuration) : Scheme NodeId Entry Configuration where
  term := Entry.term
  conf := fun e => e.payload.asConfig
  boot := boot
  quorum := fun c A => ∃ p : NodeId → Bool, c.hasQuorum p = true ∧ ∀ v, p v = true → v ∈ A

namespace Configuration

/-- Majorities of two sets that differ in at most one node share a node. -/
theorem majority_meet (V W : OrdSet NodeId) (p q : NodeId → Bool)
    (hd : (W.toFinset \ V.toFinset).card + (V.toFinset \ W.toFinset).card ≤ 1)
    (hp : majority V p = true) (hq : majority W q = true) : ∃ v, p v = true ∧ q v = true := by
  simp only [majority, decide_eq_true_eq, ← OrdSet.card_filter_toFinset, ← OrdSet.card_toFinset]
    at hp hq
  have h1 := Finset.card_union_add_card_inter V.toFinset W.toFinset
  have h2 := Finset.card_sdiff_add_card_inter W.toFinset V.toFinset
  have h3 := Finset.card_sdiff_add_card_inter V.toFinset W.toFinset
  rw [Finset.inter_comm] at h2
  have hsubV : V.toFinset.filter (fun a => p a = true) ⊆ V.toFinset ∪ W.toFinset :=
    (Finset.filter_subset _ _).trans Finset.subset_union_left
  have hsubW : W.toFinset.filter (fun a => q a = true) ⊆ V.toFinset ∪ W.toFinset :=
    (Finset.filter_subset _ _).trans Finset.subset_union_right
  obtain ⟨v, hv⟩ := Finset.inter_nonempty_of_card_lt_card_add_card hsubV hsubW (by omega)
  obtain ⟨hv1, hv2⟩ := Finset.mem_inter.mp hv
  exact ⟨v, (Finset.mem_filter.mp hv1).2, (Finset.mem_filter.mp hv2).2⟩

theorem majority_self (V : OrdSet NodeId) (p q : NodeId → Bool) (hp : majority V p = true)
    (hq : majority V q = true) : ∃ v, p v = true ∧ q v = true :=
  majority_meet V V p q (by simp) hp hq

/-- Two quorums of one configuration share a node. -/
theorem hasQuorum_self (c : Configuration) (p q : NodeId → Bool) (hp : c.hasQuorum p = true)
    (hq : c.hasQuorum q = true) : ∃ v, p v = true ∧ q v = true := by
  cases c with
  | simple voters learners => exact majority_self voters p q hp hq
  | joint old new learners =>
    simp only [hasQuorum, Bool.and_eq_true] at hp hq
    exact majority_self old p q hp.1 hq.1

/-- The voters of a changed simple configuration differ in at most one node, or
the change is a joint configuration that contains the old voters. -/
theorem apply_voters {mode : MembershipMode} {voters learners : OrdSet NodeId}
    {change : ConfigChange} (hv : change.validate (.simple voters learners) mode = .ok ()) :
    (∃ voters' learners', change.apply (.simple voters learners) mode = .simple voters' learners' ∧
      (voters'.toFinset \ voters.toFinset).card + (voters.toFinset \ voters'.toFinset).card ≤ 1) ∨
    ∃ new learners', change.apply (.simple voters learners) mode = .joint voters new learners' := by
  cases change with
  | addVoter id =>
    refine Or.inl ⟨voters.insert id, learners.remove id, rfl, ?_⟩
    have h1 : (voters.insert id).toFinset \ voters.toFinset ⊆ {id} := by
      intro x hx
      simp only [Finset.mem_sdiff, OrdSet.mem_toFinset, OrdSet.mem_insert] at hx
      exact Finset.mem_singleton.mpr (hx.1.resolve_right hx.2)
    have h2 : voters.toFinset \ (voters.insert id).toFinset = ∅ := by
      ext x
      simp only [Finset.mem_sdiff, OrdSet.mem_toFinset, OrdSet.mem_insert, Finset.notMem_empty]
      tauto
    have := Finset.card_le_card h1
    rw [h2, Finset.card_empty]
    simpa using this
  | removeVoter id =>
    refine Or.inl ⟨voters.remove id, learners, rfl, ?_⟩
    have h1 : voters.toFinset \ (voters.remove id).toFinset ⊆ {id} := by
      intro x hx
      simp only [Finset.mem_sdiff, OrdSet.mem_toFinset, OrdSet.mem_remove] at hx
      rw [Finset.mem_singleton]
      by_contra hne
      exact hx.2 ⟨hx.1, hne⟩
    have h2 : (voters.remove id).toFinset \ voters.toFinset = ∅ := by
      ext x
      simp only [Finset.mem_sdiff, OrdSet.mem_toFinset, OrdSet.mem_remove, Finset.notMem_empty]
      tauto
    have := Finset.card_le_card h1
    rw [h2, Finset.card_empty]
    simpa using this
  | addLearner id => exact Or.inl ⟨_, _, rfl, by simp [ConfigChange.baseSets]⟩
  | removeLearner id => exact Or.inl ⟨_, _, rfl, by simp [ConfigChange.baseSets]⟩
  | setMembers members =>
    by_cases hj : mode = .jointConsensus ∧ voters ≠ members.voters
    · exact Or.inr ⟨members.voters, members.learners, if_pos hj⟩
    · refine Or.inl ⟨members.voters, members.learners, if_neg hj, ?_⟩
      by_cases hsame : voters = members.voters
      · simp [hsame]
      · -- only the single-server mode is left, and it checks the difference
        have hmode : mode = .singleServer := by
          cases mode with
          | singleServer => rfl
          | jointConsensus => exact absurd ⟨rfl, hsame⟩ hj
        simp only [ConfigChange.validate, ConfigChange.validateMembers, hmode] at hv
        split_ifs at hv with h1 h2 h3
        simp only [true_and, not_lt] at h2
        have hcard (V W : OrdSet NodeId) : (V.toFinset \ W.toFinset).card =
            (V.toList.filter (fun id => !W.contains id)).length := by
          rw [← OrdSet.card_filter_toFinset]
          congr 1
          ext x
          simp
        rw [hcard, hcard]
        exact h2

theorem legal_meet {mode : MembershipMode} {c c' : Configuration} (h : Legal mode c c')
    (p q : NodeId → Bool) (hp : c.hasQuorum p = true) (hq : c'.hasQuorum q = true) :
    ∃ v, p v = true ∧ q v = true := by
  rcases h with ⟨change, hv, rfl⟩ | h
  · cases c with
    | joint old new learners => simp [ConfigChange.validate] at hv
    | simple voters learners =>
      rcases apply_voters hv with ⟨voters', learners', happ, hd⟩ | ⟨new, learners', happ⟩
      · rw [happ] at hq
        exact majority_meet voters voters' p q hd hp hq
      · rw [happ, hasQuorum, Bool.and_eq_true] at hq
        exact majority_self voters p q hp hq.1
  · cases c with
    | simple voters learners => simp [transitionTarget] at h
    | joint old new learners =>
      rw [transitionTarget, Option.some.injEq] at h
      subst h
      rw [hasQuorum, Bool.and_eq_true] at hp
      exact majority_self new p q hp.2 hq

end Configuration

/-- Quorums along the configuration history overlap. -/
theorem legal_overlapping (boot : Configuration) (mode : MembershipMode) :
    History.Overlapping (scheme boot) (Legal mode) where
  self := by
    rintro c A B ⟨p, hp, hpA⟩ ⟨q, hq, hqB⟩
    obtain ⟨v, hv, hv'⟩ := c.hasQuorum_self p q hp hq
    exact ⟨v, hpA v hv, hqB v hv'⟩
  next := by
    rintro c d A B hcd ⟨p, hp, hpA⟩ ⟨q, hq, hqB⟩
    obtain ⟨v, hv, hv'⟩ := Configuration.legal_meet hcd p q hp hq
    exact ⟨v, hpA v hv, hqB v hv'⟩

end BasisDB.Raft
