import Mathlib

/-! Logs of a replicated state machine, as lists of entries that carry a term.
A log is coherent with the leaders' logs when each of its prefixes is a prefix
of the log of the leader that created the prefix's last entry. -/
namespace ReplicatedLog

/-- What the theory reads off an entry, the configuration before any entry, and
the quorums of a configuration. -/
structure Scheme (N E C : Type*) where
  term : E → ℕ
  conf : E → Option C
  boot : C
  quorum : C → Set N → Prop

variable {N E C : Type*} (σ : Scheme N E C)

/-- Term of the last entry, zero for the empty log. -/
def lastTerm (L : List E) : ℕ := (L.getLast?.map σ.term).getD 0

/-- `L` is at least as up to date as `V`. -/
def UpToDate (L V : List E) : Prop :=
  lastTerm σ V < lastTerm σ L ∨ (lastTerm σ V = lastTerm σ L ∧ V.length ≤ L.length)

/-- Terms never decrease along the log. -/
def Ordered (L : List E) : Prop := L.Pairwise (fun a b => σ.term a ≤ σ.term b)

/-- Every nonempty prefix of `L` is a prefix of the log of its last entry's leader. -/
def Coherent (lead : ℕ → List E) (L : List E) : Prop :=
  ∀ P e, P ++ [e] <+: L → P ++ [e] <+: lead (σ.term e)

/-- The configuration in force after a log: its latest one, else the initial one. -/
def config (L : List E) : C := ((L.filterMap σ.conf).getLast?).getD σ.boot

variable {σ}

theorem take_succ_isPrefix (L : List E) (i : ℕ) (h : i < L.length) :
    L.take i ++ [L[i]] <+: L := by
  rw [List.take_concat_get' L i h]
  exact List.take_prefix _ _

theorem prefix_of_longer {L M : List E} {D : List E} (hL : L <+: D) (hM : M <+: D)
    (hlen : L.length ≤ M.length) : L <+: M := List.prefix_of_prefix_length_le hL hM hlen

theorem take_isPrefix_of_isPrefix {L M : List E} {i : ℕ} (h : L <+: M) (hi : i ≤ L.length) :
    M.take i = L.take i := by
  obtain ⟨R, rfl⟩ := h
  exact List.take_append_of_le_length hi

@[simp] theorem lastTerm_nil : lastTerm σ [] = 0 := rfl

@[simp] theorem lastTerm_concat (P : List E) (e : E) : lastTerm σ (P ++ [e]) = σ.term e := by
  simp [lastTerm]

theorem Ordered.of_isPrefix {L M : List E} (h : Ordered σ M) (hp : L <+: M) : Ordered σ L :=
  List.Pairwise.sublist hp.sublist h

theorem Ordered.le_last {P : List E} {e x : E} (h : Ordered σ (P ++ [e])) (hx : x ∈ P ++ [e]) :
    σ.term x ≤ σ.term e := by
  rcases List.mem_append.mp hx with hx | hx
  · exact (List.pairwise_append.mp h).2.2 x hx e (List.mem_singleton.mpr rfl)
  · rw [List.mem_singleton.mp hx]

theorem Ordered.concat {P : List E} {e : E} (h : Ordered σ P) (he : ∀ x ∈ P, σ.term x ≤ σ.term e) :
    Ordered σ (P ++ [e]) := by
  refine List.pairwise_append.mpr ⟨h, List.pairwise_singleton _ _, ?_⟩
  intro x hx y hy
  rw [List.mem_singleton.mp hy]
  exact he x hx

theorem coherent_nil (lead : ℕ → List E) : Coherent σ lead [] := by
  intro P e h
  exact absurd (List.prefix_nil.mp h) (List.append_ne_nil_of_right_ne_nil _ (List.cons_ne_nil _ _))

theorem Coherent.of_isPrefix {lead : ℕ → List E} {L M : List E} (h : Coherent σ lead M)
    (hp : L <+: M) : Coherent σ lead L := fun P e hP => h P e (hP.trans hp)

theorem Coherent.mono {lead lead' : ℕ → List E} {L : List E} (h : Coherent σ lead L)
    (hle : ∀ t, lead t <+: lead' t) : Coherent σ lead' L := fun P e hP => (h P e hP).trans (hle _)

theorem Coherent.concat {lead : ℕ → List E} {L : List E} {e : E} (h : Coherent σ lead L)
    (he : L ++ [e] <+: lead (σ.term e)) : Coherent σ lead (L ++ [e]) := by
  intro P x hP
  rcases List.prefix_concat_iff.mp hP with heq | hP
  · obtain ⟨rfl, hx⟩ := List.append_inj' heq rfl
    cases hx
    exact he
  · exact h P x hP

theorem Coherent.self {lead : ℕ → List E} {P : List E} {e : E} (h : Coherent σ lead (P ++ [e])) :
    P ++ [e] <+: lead (σ.term e) := h P e (List.prefix_refl _)

theorem Coherent.ordered {lead : ℕ → List E} {L : List E} (h : Coherent σ lead L)
    (hs : ∀ t, Ordered σ (lead t)) : Ordered σ L := by
  rcases List.eq_nil_or_concat' L with rfl | ⟨P, e, rfl⟩
  · exact List.Pairwise.nil
  · exact (hs _).of_isPrefix h.self

/-- Log matching: in coherent logs, equal terms at equal lengths mean equal prefixes. -/
theorem Coherent.matching {lead : ℕ → List E} {L M P P' : List E} {e e' : E}
    (hL : Coherent σ lead L) (hM : Coherent σ lead M) (hP : P ++ [e] <+: L) (hP' : P' ++ [e'] <+: M)
    (hlen : P.length = P'.length) (ht : σ.term e = σ.term e') : P ++ [e] = P' ++ [e'] := by
  have h1 := hL P e hP
  have h2 := hM P' e' hP'
  rw [← ht] at h2
  have hl : (P ++ [e]).length = (P' ++ [e']).length := by simp [hlen]
  exact (prefix_of_longer h1 h2 hl.le).eq_of_length hl

@[simp] theorem config_nil : config σ [] = σ.boot := rfl

theorem config_concat_none {P : List E} {e : E} (h : σ.conf e = none) :
    config σ (P ++ [e]) = config σ P := by
  simp [config, h]

theorem config_concat_some {P : List E} {e : E} {c : C} (h : σ.conf e = some c) :
    config σ (P ++ [e]) = c := by
  simp [config, h]

theorem config_append_plain {P R : List E} (h : ∀ e ∈ R, σ.conf e = none) :
    config σ (P ++ R) = config σ P := by
  have hR : R.filterMap σ.conf = [] := List.filterMap_eq_nil_iff.mpr h
  simp [config, hR]

end ReplicatedLog
