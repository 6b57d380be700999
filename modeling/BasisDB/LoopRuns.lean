import Mathlib

/-! Loops without a bound: a body that either goes on with a new state or returns. Which
states the loop passes, when it returns, and why a decreasing measure makes it do so. -/
namespace LoopRuns

variable {σ ρ : Type*} (body : σ → σ ⊕ ρ)

/-- Started in this state, the loop returns this result. -/
inductive Returns : σ → ρ → Prop
  | stop {s : σ} {r : ρ} (h : body s = .inr r) : Returns s r
  | again {s t : σ} {r : ρ} (h : body s = .inl t) (hr : Returns t r) : Returns s r

/-- The states in which the loop, started in the first one, begins a round. -/
inductive Head (s : σ) : σ → Prop
  | start : Head s s
  | again {t u : σ} (ht : Head s t) (h : body t = .inl u) : Head s u

variable {body}

theorem Head.trans {s t u : σ} (h : Head body s t) (h' : Head body t u) : Head body s u := by
  induction h' with
  | start => exact h
  | again _ hb ih => exact ih.again hb

/-- The invariant rule of a loop. -/
theorem Head.invariant {P : σ → Prop} (hkeep : ∀ s t, body s = .inl t → P s → P t) {s t : σ}
    (h : Head body s t) (hs : P s) : P t := by
  induction h with
  | start => exact hs
  | again _ hb ih => exact hkeep _ _ hb ih

/-- What a loop returns, it returns in its last round. -/
theorem Returns.last {s : σ} {r : ρ} (h : Returns body s r) :
    ∃ t, Head body s t ∧ body t = .inr r := by
  induction h with
  | stop hb => exact ⟨_, Head.start, hb⟩
  | again hb _ ih =>
    obtain ⟨t, hhead, hlast⟩ := ih
    exact ⟨t, (Head.start.again hb).trans hhead, hlast⟩

theorem Returns.unique {s : σ} {r r' : ρ} (h : Returns body s r) (h' : Returns body s r') :
    r = r' := by
  induction h with
  | stop hb =>
    cases h' with
    | stop hb' => exact Sum.inr.inj (hb.symm.trans hb')
    | again hb' _ => cases hb.symm.trans hb'
  | again hb _ ih =>
    cases h' with
    | stop hb' => cases hb.symm.trans hb'
    | again hb' hr' =>
      obtain rfl := Sum.inl.inj (hb.symm.trans hb')
      exact ih hr'

/-- A loop returns if every further round lowers a measure. -/
theorem returns_of_measure (m : σ → ℕ) (hlower : ∀ s t, body s = .inl t → m t < m s) (s : σ) :
    ∃ r, Returns body s r := by
  induction hm : m s using Nat.strong_induction_on generalizing s with
  | _ n ih =>
    cases hb : body s with
    | inr r => exact ⟨r, .stop hb⟩
    | inl t =>
      obtain ⟨r, hr⟩ := ih (m t) (hm ▸ hlower s t hb) t rfl
      exact ⟨r, .again hb hr⟩

end LoopRuns
