import Mathlib

/-! Deterministic state machines: a command maps a state to the next state and a
result. Runs over command lists, the invariant rule, and what removing a command
without effect leaves alone. -/
namespace CommandRuns

variable {σ κ ρ : Type*} (apply : σ → κ → σ × ρ)

/-- The state after a list of commands. -/
def exec (s : σ) (cs : List κ) : σ := cs.foldl (fun s c => (apply s c).1) s

/-- The results of a list of commands, one for each position. -/
def results : σ → List κ → List ρ
  | _, [] => []
  | s, c :: cs => (apply s c).2 :: results (apply s c).1 cs

@[simp] theorem exec_nil (s : σ) : exec apply s [] = s := rfl

@[simp] theorem exec_cons (s : σ) (c : κ) (cs : List κ) :
    exec apply s (c :: cs) = exec apply (apply s c).1 cs := rfl

theorem exec_append (s : σ) (cs ds : List κ) :
    exec apply s (cs ++ ds) = exec apply (exec apply s cs) ds := List.foldl_append

theorem exec_take_succ {s : σ} {cs : List κ} {i : ℕ} {c : κ} (h : cs[i]? = some c) :
    exec apply s (cs.take (i + 1)) = (apply (exec apply s (cs.take i)) c).1 := by
  rw [List.take_add_one, h, exec_append]
  rfl

theorem results_append (s : σ) (cs ds : List κ) :
    results apply s (cs ++ ds) = results apply s cs ++ results apply (exec apply s cs) ds := by
  induction cs generalizing s with
  | nil => rfl
  | cons c cs ih => exact congrArg _ (ih _)

@[simp] theorem length_results (s : σ) (cs : List κ) :
    (results apply s cs).length = cs.length := by
  induction cs generalizing s with
  | nil => rfl
  | cons c cs ih => exact congrArg Nat.succ (ih _)

theorem results_getElem? (s : σ) (cs : List κ) (i : ℕ) :
    (results apply s cs)[i]? = cs[i]?.map (fun c => (apply (exec apply s (cs.take i)) c).2) := by
  induction cs generalizing s i with
  | nil => rfl
  | cons c cs ih =>
    cases i with
    | zero => rfl
    | succ i => exact ih _ i

/-- A property that every command keeps holds after every run. -/
theorem exec_invariant {P : σ → Prop} (hstep : ∀ s c, P s → P (apply s c).1) {s : σ}
    (hs : P s) (cs : List κ) : P (exec apply s cs) := by
  induction cs generalizing s with
  | nil => exact hs
  | cons c cs ih => exact ih (hstep s c hs)

/-- The invariant rule between two positions of a run: `P` may be kept only by the commands
that stand between them. -/
theorem exec_between {P : σ → Prop} {s : σ} {cs : List κ} {i j : ℕ} (hij : i ≤ j)
    (hstep : ∀ k c, i ≤ k → k < j → cs[k]? = some c → P (exec apply s (cs.take k)) →
      P (apply (exec apply s (cs.take k)) c).1)
    (hi : P (exec apply s (cs.take i))) : P (exec apply s (cs.take j)) := by
  induction j, hij using Nat.le_induction with
  | base => exact hi
  | succ j hij ih =>
    have hj := ih (fun k c hik hkj => hstep k c hik (Nat.lt_succ_of_lt hkj))
    cases hc : cs[j]? with
    | none =>
      have hlen : cs.length ≤ j := List.getElem?_eq_none_iff.mp hc
      rwa [List.take_of_length_le (by omega), ← List.take_of_length_le hlen]
    | some c =>
      rw [exec_take_succ apply hc]
      exact hstep j c hij (Nat.lt_succ_self j) hc hj

private theorem split_at {cs : List κ} {i : ℕ} {c : κ} (hc : cs[i]? = some c) :
    cs = cs.take i ++ c :: cs.drop (i + 1) := by
  obtain ⟨hi, rfl⟩ := List.getElem?_eq_some_iff.mp hc
  rw [List.getElem_cons_drop, List.take_append_drop]

section Unchanged
variable {apply} {s : σ} {cs : List κ} {i : ℕ} {c : κ} (hc : cs[i]? = some c)
  (hsame : (apply (exec apply s (cs.take i)) c).1 = exec apply s (cs.take i))
include hc hsame

/-- Removing a command that changes no state leaves the final state as it is. -/
theorem exec_eraseIdx : exec apply s (cs.eraseIdx i) = exec apply s cs := by
  conv_rhs => rw [split_at hc, exec_append, exec_cons, hsame]
  rw [List.eraseIdx_eq_take_drop_succ, exec_append]

/-- Removing a command that changes no state only removes its own result. -/
theorem results_eraseIdx :
    results apply s (cs.eraseIdx i) = (results apply s cs).eraseIdx i := by
  have hi : i < cs.length := (List.getElem?_eq_some_iff.mp hc).1
  have hlen : (results apply s (cs.take i)).length = i := by
    rw [length_results, List.length_take_of_le hi.le]
  conv_rhs => rw [split_at hc, results_append, results, hsame]
  rw [List.eraseIdx_eq_take_drop_succ, results_append,
    List.eraseIdx_append_of_length_le hlen.le, hlen, Nat.sub_self, List.eraseIdx_cons_zero]

end Unchanged
end CommandRuns
