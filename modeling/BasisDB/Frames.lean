import Mathlib

/-! Frames laid out one after another in a byte string: where each one starts, and which
of them a cut of the string leaves whole. -/
namespace Frames

variable {ρ β : Type*} (enc : ρ → List β)

/-- The encodings of some frames, in order. -/
def bytes (rs : List ρ) : List β := rs.flatMap enc

/-- The frames with the position each one starts at, the first at `o`. -/
def placed : ℕ → List ρ → List (ℕ × ρ)
  | _, [] => []
  | o, r :: rs => (o, r) :: placed (o + (enc r).length) rs

/-- The longest run of first frames that lies within the first `n` bytes. -/
def whole : ℕ → List ρ → List ρ
  | _, [] => []
  | n, r :: rs => if (enc r).length ≤ n then r :: whole (n - (enc r).length) rs else []

@[simp] theorem bytes_nil : bytes enc [] = [] := rfl

@[simp] theorem bytes_cons (r : ρ) (rs : List ρ) : bytes enc (r :: rs) = enc r ++ bytes enc rs :=
  rfl

theorem bytes_append (rs qs : List ρ) : bytes enc (rs ++ qs) = bytes enc rs ++ bytes enc qs :=
  List.flatMap_append

theorem placed_append (o : ℕ) (rs qs : List ρ) :
    placed enc o (rs ++ qs) = placed enc o rs ++ placed enc (o + (bytes enc rs).length) qs := by
  induction rs generalizing o with
  | nil => rfl
  | cons r rs ih =>
    rw [List.cons_append, placed, ih, placed, bytes_cons, List.length_append, Nat.add_assoc,
      List.cons_append]

theorem length_placed (o : ℕ) (rs : List ρ) : (placed enc o rs).length = rs.length := by
  induction rs generalizing o with
  | nil => rfl
  | cons r rs ih => rw [placed, List.length_cons, ih, List.length_cons]

theorem placed_take (o k : ℕ) (rs : List ρ) :
    placed enc o (rs.take k) = (placed enc o rs).take k := by
  induction rs generalizing o k with
  | nil => simp [placed]
  | cons r rs ih =>
    cases k with
    | zero => rfl
    | succ k => rw [List.take_succ_cons, placed, placed, List.take_succ_cons, ih]

theorem le_of_mem_placed {o p : ℕ} {r : ρ} {rs : List ρ} (h : (p, r) ∈ placed enc o rs) :
    o ≤ p := by
  induction rs generalizing o with
  | nil => cases h
  | cons q rs ih =>
    rcases List.mem_cons.mp h with heq | hmem
    · exact (Prod.mk.inj heq).1.ge
    · exact (Nat.le_add_right _ _).trans (ih hmem)

/-- Frames that are not empty start at increasing positions. -/
theorem placed_increasing (hpos : ∀ r, enc r ≠ []) (o : ℕ) (rs : List ρ) :
    (placed enc o rs).Pairwise (fun a b => a.1 < b.1) := by
  induction rs generalizing o with
  | nil => exact List.Pairwise.nil
  | cons r rs ih =>
    refine List.Pairwise.cons ?_ (ih _)
    rintro ⟨p, q⟩ hmem
    have hle : o + (enc r).length ≤ p := le_of_mem_placed enc hmem
    have hlen : 0 < (enc r).length := List.length_pos_iff.mpr (hpos r)
    show o < p
    omega

theorem whole_isPrefix (n : ℕ) (rs : List ρ) : whole enc n rs <+: rs := by
  induction rs generalizing n with
  | nil => exact List.prefix_rfl
  | cons r rs ih =>
    unfold whole
    split_ifs
    · exact (List.prefix_cons_inj r).mpr (ih _)
    · exact List.nil_prefix

theorem whole_of_le {n : ℕ} {rs : List ρ} (h : (bytes enc rs).length ≤ n) :
    whole enc n rs = rs := by
  induction rs generalizing n with
  | nil => rfl
  | cons r rs ih =>
    rw [bytes_cons, List.length_append] at h
    have hr : (enc r).length ≤ n := by omega
    rw [whole, if_pos hr, ih (by omega)]

/-- Frames that all lie within the first `n` bytes are followed by the whole ones behind them. -/
theorem whole_append {n : ℕ} {rs qs : List ρ} (h : (bytes enc rs).length ≤ n) :
    whole enc n (rs ++ qs) = rs ++ whole enc (n - (bytes enc rs).length) qs := by
  induction rs generalizing n with
  | nil => rfl
  | cons r rs ih =>
    rw [bytes_cons, List.length_append] at h ⊢
    have hr : (enc r).length ≤ n := by omega
    rw [List.cons_append, whole, if_pos hr, ih (by omega), Nat.sub_sub, List.cons_append]

/-- A cut behind some first frames leaves them. -/
theorem whole_take (hpos : ∀ r, enc r ≠ []) (k : ℕ) (rs : List ρ) :
    whole enc (bytes enc (rs.take k)).length rs = rs.take k := by
  have hrest : whole enc 0 (rs.drop k) = [] := by
    cases rs.drop k with
    | nil => rfl
    | cons r rs =>
      have hlen : 0 < (enc r).length := List.length_pos_iff.mpr (hpos r)
      rw [whole, if_neg (by omega)]
  have hwhole := @whole_append _ _ enc _ (rs.take k) (rs.drop k) le_rfl
  rwa [List.take_append_drop, Nat.sub_self, hrest, List.append_nil] at hwhole

/-- Of at most one frame a cut leaves all or nothing. -/
theorem whole_singleton_or {r : ρ} {rs : List ρ} (h : rs = [] ∨ rs = [r]) (n : ℕ) :
    whole enc n rs = [] ∨ rs = [r] ∧ whole enc n rs = [r] := by
  rcases h with rfl | rfl
  · exact Or.inl rfl
  · unfold whole
    split_ifs
    · exact Or.inr ⟨rfl, rfl⟩
    · exact Or.inl rfl

/-- The whole frames are at the start of what a cut leaves. -/
theorem take_bytes_whole (n : ℕ) (rs : List ρ) :
    ((bytes enc rs).take n).take (bytes enc (whole enc n rs)).length =
      bytes enc (whole enc n rs) := by
  induction rs generalizing n with
  | nil => simp [whole]
  | cons r rs ih =>
    by_cases hr : (enc r).length ≤ n
    · have hcut : (bytes enc (r :: rs)).take n =
          enc r ++ (bytes enc rs).take (n - (enc r).length) := by
        rw [bytes_cons, List.take_append, List.take_of_length_le hr]
      rw [whole, if_pos hr, hcut, bytes_cons, List.length_append, List.take_length_add_append, ih]
    · rw [whole, if_neg hr]
      simp

/-- The whole frames as those whose end the cut does not reach. -/
theorem placed_whole (o n : ℕ) (rs : List ρ) : placed enc o (whole enc n rs) =
    (placed enc o rs).takeWhile (fun a => decide (a.1 + (enc a.2).length ≤ o + n)) := by
  induction rs generalizing o n with
  | nil => rfl
  | cons r rs ih =>
    by_cases hr : (enc r).length ≤ n
    · have hn : o + (enc r).length + (n - (enc r).length) = o + n := by omega
      rw [whole, if_pos hr, placed, placed, List.takeWhile_cons_of_pos (by simpa using hr), ih, hn]
    · rw [whole, if_neg hr, placed, placed, List.takeWhile_cons_of_neg (by simpa using hr)]

end Frames
