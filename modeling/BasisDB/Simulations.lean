import Mathlib.Data.List.Basic
import Mathlib.Data.List.Infix

/-! Two machines that are driven by actions, the first of which is carried out by the second:
every action of the first stands for a list of actions of the second. -/
namespace Simulations

variable {σ τ α β : Type*} (step : σ → α → σ) (step' : τ → β → τ) (lower : σ → τ → α → List β)

/-- The actions of the second machine that a run of the first one stands for. -/
def lowered : σ → τ → List α → List β
  | _, _, [] => []
  | s, t, a :: acts =>
    lower s t a ++ lowered (step s a) ((lower s t a).foldl step' t) acts

variable {step step' lower} {s : σ} {t : τ} {acts : List α}

theorem lowered_append (as bs : List α) :
    lowered step step' lower s t (as ++ bs) =
      lowered step step' lower s t as ++
        lowered step step' lower (as.foldl step s)
          ((lowered step step' lower s t as).foldl step' t) bs := by
  induction as generalizing s t with
  | nil => rfl
  | cons a as ih =>
    rw [List.cons_append, lowered, lowered, ih, List.append_assoc, List.foldl_append,
      List.foldl_cons]

theorem lowered_take_isPrefix (k : ℕ) :
    lowered step step' lower s t (acts.take k) <+: lowered step step' lower s t acts := by
  have hsplit : lowered step step' lower s t acts = _ :=
    (congrArg _ (List.take_append_drop k acts).symm).trans (lowered_append _ _)
  rw [hsplit]
  exact List.prefix_append _ _

/-- What holds between the two machines at the start, and is kept by every permitted action,
holds at the end of a permitted run. -/
theorem related_run {R : σ → τ → Prop} {ok : σ → α → Prop}
    (hstep : ∀ s t a, R s t → ok s a → R (step s a) ((lower s t a).foldl step' t))
    (hstart : R s t) (hok : ∀ k a, acts[k]? = some a → ok ((acts.take k).foldl step s) a) :
    R (acts.foldl step s) ((lowered step step' lower s t acts).foldl step' t) := by
  induction acts generalizing s t with
  | nil => exact hstart
  | cons a acts ih =>
    rw [lowered, List.foldl_append, List.foldl_cons]
    apply ih (hstep s t a hstart (hok 0 a rfl))
    intro k b hb
    exact hok (k + 1) b hb

/-- Every action of the second machine stands for part of an action of the first. -/
theorem lowered_getElem? {i : ℕ} {b : β}
    (h : (lowered step step' lower s t acts)[i]? = some b) :
    ∃ k a j, acts[k]? = some a ∧
      i = (lowered step step' lower s t (acts.take k)).length + j ∧
      (lower ((acts.take k).foldl step s)
        ((lowered step step' lower s t (acts.take k)).foldl step' t) a)[j]? = some b := by
  induction acts generalizing s t i with
  | nil => cases h
  | cons a acts ih =>
    rw [lowered] at h
    rcases Nat.lt_or_ge i (lower s t a).length with hlt | hge
    · rw [List.getElem?_append_left hlt] at h
      exact ⟨0, a, i, rfl, (Nat.zero_add i).symm, h⟩
    · rw [List.getElem?_append_right hge] at h
      obtain ⟨k, a', j, ha', hi, hb⟩ := ih h
      refine ⟨k + 1, a', j, ha', ?_, ?_⟩
      · rw [List.take_succ_cons, lowered, List.length_append]
        omega
      · rw [List.take_succ_cons, lowered, List.foldl_append, List.foldl_cons]
        exact hb

section Fallible
variable {ε : Type*} {attempt : σ → α → Except ε σ} {s : σ} {acts : List α}

theorem foldlM_take_succ {k : ℕ} {a : α} {t t' : σ} (ha : acts[k]? = some a)
    (hrun : (acts.take k).foldlM attempt s = .ok t) (htry : attempt t a = .ok t') :
    (acts.take (k + 1)).foldlM attempt s = .ok t' := by
  rw [List.take_add_one, ha, Option.toList_some, List.foldlM_append, hrun]
  simp only [bind, Except.bind, List.foldlM_cons, List.foldlM_nil, htry]
  rfl

/-- A machine whose steps may fail: when every step from a state that is as it should be succeeds
and leaves such a state, so does the whole run. -/
theorem foldlM_invariant {P : List α → σ → Prop} (hstart : P [] s)
    (hstep : ∀ k a t, acts[k]? = some a → (acts.take k).foldlM attempt s = .ok t →
      P (acts.take k) t → ∃ t', attempt t a = .ok t' ∧ P (acts.take k ++ [a]) t') (k : ℕ)
    (hk : k ≤ acts.length) : ∃ t, (acts.take k).foldlM attempt s = .ok t ∧ P (acts.take k) t := by
  -- induction on how many of the actions have been taken
  induction k with
  | zero => exact ⟨s, rfl, hstart⟩
  | succ k ih =>
    obtain ⟨t, hrun, ht⟩ := ih (Nat.le_of_succ_le hk)
    have ha : acts[k]? = some acts[k] := List.getElem?_eq_getElem hk
    obtain ⟨t', htry, ht'⟩ := hstep k acts[k] t ha hrun ht
    refine ⟨t', foldlM_take_succ ha hrun htry, ?_⟩
    rwa [List.take_add_one, ha, Option.toList_some]

/-- The moments of such a run, with what each step does. -/
theorem foldlM_moments {P : σ → Prop} {R : σ → α → σ → Prop} (hstart : P s)
    (hstep : ∀ k a t, acts[k]? = some a → (acts.take k).foldlM attempt s = .ok t → P t →
      ∃ t', attempt t a = .ok t' ∧ P t' ∧ R t a t') :
    ∃ moment : ℕ → σ, moment 0 = s ∧
      (∀ k ≤ acts.length, (acts.take k).foldlM attempt s = .ok (moment k)) ∧
      ∀ k a, acts[k]? = some a → R (moment k) a (moment (k + 1)) := by
  have hruns := @foldlM_invariant _ _ _ attempt s acts (fun _ t => P t) hstart
    (fun k a t ha hrun ht => by
      obtain ⟨t', htry, ht', -⟩ := hstep k a t ha hrun ht
      exact ⟨t', htry, ht'⟩)
  have hall (k : ℕ) : ∃ t, k ≤ acts.length → (acts.take k).foldlM attempt s = .ok t ∧ P t := by
    by_cases hk : k ≤ acts.length
    · obtain ⟨t, ht⟩ := hruns k hk
      exact ⟨t, fun _ => ht⟩
    · exact ⟨s, fun h => absurd h hk⟩
  choose moment hmoment using hall
  refine ⟨moment, ?_, fun k hk => (hmoment k hk).1, fun k a ha => ?_⟩
  · exact (Except.ok.inj (hmoment 0 (Nat.zero_le _)).1).symm
  · have hlt := (List.getElem?_eq_some_iff.mp ha).1
    obtain ⟨hrun, ht⟩ := hmoment k hlt.le
    obtain ⟨t', htry, -, hrel⟩ := hstep k a _ ha hrun ht
    have hnext := (hmoment (k + 1) hlt).1
    rw [foldlM_take_succ ha hrun htry] at hnext
    rw [← Except.ok.inj hnext]
    exact hrel

end Fallible
end Simulations
