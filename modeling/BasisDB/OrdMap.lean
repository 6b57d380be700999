import Mathlib

/-! Finite maps kept as association lists with strictly increasing keys: the
observable behaviour of a balanced-tree map, with its iteration order. -/

/-- A finite map, stored as its bindings in increasing order of their keys. -/
@[ext] structure OrdMap (κ : Type*) (ν : Type*) [LinearOrder κ] where
  toList : List (κ × ν)
  sorted : toList.Pairwise (fun a b => a.1 < b.1)

namespace OrdMap
variable {κ ν : Type*} [LinearOrder κ]

instance [DecidableEq ν] : DecidableEq (OrdMap κ ν) := fun s t =>
  decidable_of_iff (s.toList = t.toList)
    ⟨fun h => by cases s; cases t; cases h; rfl, fun h => congrArg toList h⟩

def empty : OrdMap κ ν := ⟨[], List.Pairwise.nil⟩

/-- The value bound to a key in an association list. -/
def getList (k : κ) : List (κ × ν) → Option ν
  | [] => none
  | b :: bs => if b.1 = k then some b.2 else getList k bs

/-- Binding a key in an increasing association list, replacing an older value. -/
def insertList (k : κ) (v : ν) : List (κ × ν) → List (κ × ν)
  | [] => [(k, v)]
  | b :: bs =>
    if k < b.1 then (k, v) :: b :: bs
    else if k = b.1 then (k, v) :: bs
    else b :: insertList k v bs

theorem key_of_mem_insertList (k : κ) (v : ν) (b : κ × ν) (bs : List (κ × ν))
    (h : b ∈ insertList k v bs) : b.1 = k ∨ b ∈ bs := by
  induction bs with
  | nil =>
    rw [insertList, List.mem_singleton] at h
    exact Or.inl (congrArg Prod.fst h)
  | cons c cs ih =>
    unfold insertList at h
    split_ifs at h with hlt heq
    · rcases List.mem_cons.mp h with rfl | h
      · exact Or.inl rfl
      · exact Or.inr h
    · rcases List.mem_cons.mp h with rfl | h
      · exact Or.inl rfl
      · exact Or.inr (List.mem_cons_of_mem _ h)
    · rcases List.mem_cons.mp h with rfl | h
      · exact Or.inr List.mem_cons_self
      · exact (ih h).imp_right (List.mem_cons_of_mem _)

theorem insertList_sorted (k : κ) (v : ν) (bs : List (κ × ν))
    (h : bs.Pairwise (fun a b => a.1 < b.1)) :
    (insertList k v bs).Pairwise (fun a b => a.1 < b.1) := by
  induction bs with
  | nil => exact List.pairwise_singleton _ _
  | cons c cs ih =>
    obtain ⟨hc, hcs⟩ := List.pairwise_cons.mp h
    unfold insertList
    split_ifs with hlt heq
    · refine List.pairwise_cons.mpr ⟨?_, h⟩
      intro x hx
      rcases List.mem_cons.mp hx with rfl | hx
      · exact hlt
      · exact hlt.trans (hc x hx)
    · refine List.pairwise_cons.mpr ⟨?_, hcs⟩
      intro x hx
      exact heq ▸ hc x hx
    · refine List.pairwise_cons.mpr ⟨?_, ih hcs⟩
      intro x hx
      rcases key_of_mem_insertList k v x cs hx with hx | hx
      · exact hx ▸ lt_of_le_of_ne (not_lt.mp hlt) (Ne.symm heq)
      · exact hc x hx

def get (m : OrdMap κ ν) (k : κ) : Option ν := getList k m.toList

def insert (m : OrdMap κ ν) (k : κ) (v : ν) : OrdMap κ ν :=
  ⟨insertList k v m.toList, insertList_sorted k v _ m.sorted⟩

def remove (m : OrdMap κ ν) (k : κ) : OrdMap κ ν :=
  ⟨m.toList.filter (fun b => decide (b.1 ≠ k)), m.sorted.filter _⟩

/-- The bindings up to a key. -/
def upTo (m : OrdMap κ ν) (k : κ) : OrdMap κ ν :=
  ⟨m.toList.filter (fun b => decide (b.1 ≤ k)), m.sorted.filter _⟩

/-- `range(k..)`: the bindings from a key on. -/
def rangeFrom (m : OrdMap κ ν) (k : κ) : List (κ × ν) :=
  m.toList.filter (fun b => decide (k ≤ b.1))

/-- `entry(k).or_insert(v)`: bind `k` to `v` unless it is bound already. -/
def orInsert (m : OrdMap κ ν) (k : κ) (v : ν) : OrdMap κ ν :=
  if (m.get k).isSome then m else m.insert k v

theorem getList_insertList (k j : κ) (v : ν) (bs : List (κ × ν)) :
    getList j (insertList k v bs) = if k = j then some v else getList j bs := by
  induction bs with
  | nil => rfl
  | cons c cs ih =>
    unfold insertList
    by_cases hlt : k < c.1
    · rw [if_pos hlt]
      rfl
    · rw [if_neg hlt]
      by_cases heq : k = c.1
      · rw [if_pos heq]
        subst heq
        by_cases hkj : c.1 = j <;> simp [getList, hkj]
      · rw [if_neg heq]
        by_cases hcj : c.1 = j
        · have hkj : k ≠ j := fun h => heq (h.trans hcj.symm)
          simp [getList, hcj, hkj]
        · simp [getList, hcj, ih]

@[simp] theorem get_empty (k : κ) : (empty : OrdMap κ ν).get k = none := rfl

theorem get_insert (m : OrdMap κ ν) (k j : κ) (v : ν) :
    (m.insert k v).get j = if k = j then some v else m.get j :=
  getList_insertList k j v m.toList

@[simp] theorem get_insert_self (m : OrdMap κ ν) (k : κ) (v : ν) :
    (m.insert k v).get k = some v := by simp [get_insert]

theorem get_insert_ne (m : OrdMap κ ν) {k j : κ} (v : ν) (h : k ≠ j) :
    (m.insert k v).get j = m.get j := by simp [get_insert, h]

theorem get_orInsert (m : OrdMap κ ν) (k j : κ) (v : ν) :
    (m.orInsert k v).get j = if k = j then some ((m.get j).getD v) else m.get j := by
  unfold orInsert
  split_ifs with hs hkj hkj
  · subst hkj
    obtain ⟨w, hw⟩ := Option.isSome_iff_exists.mp hs
    simp [hw]
  · rfl
  · subst hkj
    simp [Option.not_isSome_iff_eq_none.mp hs]
  · exact get_insert_ne m v hkj

theorem getList_filter (k j : κ) (bs : List (κ × ν)) :
    getList j (bs.filter (fun b => decide (b.1 ≠ k))) = if k = j then none else getList j bs := by
  induction bs with
  | nil => simp [getList]
  | cons c cs ih =>
    by_cases hck : c.1 = k
    · rw [List.filter_cons_of_neg (by simpa using hck), ih]
      split_ifs with hkj
      · rfl
      · have hcj : c.1 ≠ j := fun h => hkj (hck.symm.trans h)
        simp [getList, hcj]
    · rw [List.filter_cons_of_pos (by simpa using hck)]
      unfold getList
      rw [ih]
      split_ifs with hcj hkj
      · exact absurd (hcj.trans hkj.symm) hck
      all_goals rfl

theorem get_remove (m : OrdMap κ ν) (k j : κ) :
    (m.remove k).get j = if k = j then none else m.get j := getList_filter k j m.toList

theorem length_insertList_le (k : κ) (v : ν) (bs : List (κ × ν)) :
    (insertList k v bs).length ≤ bs.length + 1 := by
  induction bs with
  | nil => exact le_rfl
  | cons c cs ih =>
    unfold insertList
    split_ifs
    · exact le_rfl
    · exact Nat.le_succ _
    · exact Nat.succ_le_succ ih

theorem length_insert_le (m : OrdMap κ ν) (k : κ) (v : ν) :
    (m.insert k v).toList.length ≤ m.toList.length + 1 := length_insertList_le k v m.toList

theorem length_remove_le (m : OrdMap κ ν) (k : κ) :
    (m.remove k).toList.length ≤ m.toList.length := List.length_filter_le _ _

theorem getList_eq_some_iff (k : κ) (v : ν) (bs : List (κ × ν))
    (h : bs.Pairwise (fun a b => a.1 < b.1)) : getList k bs = some v ↔ (k, v) ∈ bs := by
  induction bs with
  | nil => simp [getList]
  | cons c cs ih =>
    obtain ⟨hc, hcs⟩ := List.pairwise_cons.mp h
    unfold getList
    split_ifs with hk
    · -- the key stands first, and nowhere else
      subst hk
      have hnot : (c.1, v) ∉ cs := fun hmem => lt_irrefl c.1 (hc (c.1, v) hmem)
      rw [List.mem_cons, Option.some.injEq, or_iff_left hnot]
      exact ⟨fun hv => by rw [← hv], fun hv => (congrArg Prod.snd hv).symm⟩
    · rw [ih hcs, List.mem_cons, or_iff_right]
      exact fun hv => hk (congrArg Prod.fst hv).symm

theorem get_eq_some_iff (m : OrdMap κ ν) (k : κ) (v : ν) :
    m.get k = some v ↔ (k, v) ∈ m.toList := getList_eq_some_iff k v m.toList m.sorted

/-- The keys as they are, every value changed by `f`. -/
def mapValues (f : ν → ν) (m : OrdMap κ ν) : OrdMap κ ν :=
  ⟨m.toList.map (fun b => (b.1, f b.2)), List.pairwise_map.mpr m.sorted⟩

theorem getList_mapValues (f : ν → ν) (k : κ) (bs : List (κ × ν)) :
    getList k (bs.map (fun b => (b.1, f b.2))) = (getList k bs).map f := by
  induction bs with
  | nil => rfl
  | cons c cs ih =>
    simp only [List.map_cons, getList]
    split_ifs
    · rfl
    · exact ih

theorem get_mapValues (f : ν → ν) (m : OrdMap κ ν) (k : κ) :
    (m.mapValues f).get k = (m.get k).map f := getList_mapValues f k m.toList

section Numbered
variable {m : OrdMap ℕ ν} {vs : List ν}

/-- Values bound to consecutive numbers. -/
def numbered : ℕ → List ν → List (ℕ × ν)
  | _, [] => []
  | k, v :: vs => (k, v) :: numbered (k + 1) vs

/-- A map whose keys are the positions of a list. -/
def IsNumbered (m : OrdMap ℕ ν) (vs : List ν) : Prop := m.toList = numbered 0 vs

theorem keys_numbered (k : ℕ) (vs : List ν) :
    (numbered k vs).map Prod.fst = List.range' k vs.length := by
  induction vs generalizing k with
  | nil => rfl
  | cons v vs ih => exact congrArg (k :: ·) (ih (k + 1))

theorem getList_numbered (k i : ℕ) (vs : List ν) : getList (k + i) (numbered k vs) = vs[i]? := by
  induction vs generalizing k i with
  | nil => rfl
  | cons v vs ih =>
    cases i with
    | zero => simp [numbered, getList]
    | succ i =>
      have hne : k ≠ k + (i + 1) := by omega
      have hshift : k + (i + 1) = k + 1 + i := by omega
      rw [numbered, getList, if_neg hne, hshift, ih, List.getElem?_cons_succ]

/-- Binding a position replaces its value, binding the next position appends one. -/
theorem insertList_numbered (k i : ℕ) (v : ν) (vs : List ν) (hi : i ≤ vs.length) :
    insertList (k + i) v (numbered k vs) =
      numbered k (if i = vs.length then vs ++ [v] else vs.set i v) := by
  induction vs generalizing k i with
  | nil =>
    obtain rfl : i = 0 := Nat.le_zero.mp hi
    rfl
  | cons u us ih =>
    cases i with
    | zero => simp [numbered, insertList]
    | succ i =>
      have hlt : ¬ k + (i + 1) < k := by omega
      have hne : k + (i + 1) ≠ k := by omega
      have hshift : k + (i + 1) = k + 1 + i := by omega
      rw [numbered, insertList, if_neg hlt, if_neg hne, hshift, ih _ _ (Nat.le_of_succ_le_succ hi)]
      by_cases hend : i = us.length
      · simp [hend, numbered]
      · simp [hend, numbered]

theorem eq_numbered {k : ℕ} {bs : List (ℕ × ν)}
    (h : bs.map Prod.fst = List.range' k bs.length) : bs = numbered k (bs.map Prod.snd) := by
  induction bs generalizing k with
  | nil => rfl
  | cons b bs ih =>
    rw [List.map_cons, List.length_cons, List.range'_succ, List.cons.injEq] at h
    rw [List.map_cons, numbered, ← ih h.2, ← h.1]

/-- Keys that count up from zero number the values. -/
theorem isNumbered_of_keys (h : m.toList.map Prod.fst = List.range' 0 m.toList.length) :
    m.IsNumbered (m.toList.map Prod.snd) := eq_numbered h

theorem IsNumbered.get (h : m.IsNumbered vs) (i : ℕ) : m.get i = vs[i]? := by
  have hget := getList_numbered 0 i vs
  rwa [Nat.zero_add, ← h] at hget

theorem IsNumbered.get_from_zero (h : m.IsNumbered vs) (i : ℕ) : m.get (0 + i) = vs[i]? := by
  rw [Nat.zero_add]
  exact h.get i

/-- Values from some number on, without the first one. -/
theorem get_from_succ {k : ℕ} {v : ν} (h : ∀ i, m.get (k + i) = (v :: vs)[i]?) (i : ℕ) :
    m.get (k + 1 + i) = vs[i]? := by
  have hi := h (i + 1)
  rwa [List.getElem?_cons_succ, Nat.add_comm i, ← Nat.add_assoc] at hi

theorem IsNumbered.insert (h : m.IsNumbered vs) {i : ℕ} (hi : i ≤ vs.length) (v : ν) :
    (m.insert i v).IsNumbered (if i = vs.length then vs ++ [v] else vs.set i v) := by
  have hins := insertList_numbered 0 i v vs hi
  rwa [Nat.zero_add, ← h] at hins

theorem filter_numbered (k i : ℕ) (vs : List ν) :
    (numbered k vs).filter (fun b => decide (b.1 < k + i)) = numbered k (vs.take i) := by
  induction vs generalizing k i with
  | nil => simp [numbered]
  | cons v vs ih =>
    cases i with
    | zero =>
      have hnone : ∀ b ∈ numbered k (v :: vs), ¬ b.1 < k + 0 := by
        intro b hb
        have hkey := List.mem_map_of_mem (f := Prod.fst) hb
        rw [keys_numbered, List.mem_range'_1] at hkey
        omega
      simpa [numbered, List.filter_eq_nil_iff] using hnone
    | succ i =>
      have hshift : k + (i + 1) = k + 1 + i := by omega
      rw [numbered, List.filter_cons_of_pos (by simp), hshift, ih, List.take_succ_cons, numbered]

theorem IsNumbered.upTo (h : m.IsNumbered vs) (i : ℕ) :
    (m.upTo i).IsNumbered (vs.take (i + 1)) := by
  have hfilter := filter_numbered 0 (i + 1) vs
  rw [Nat.zero_add, ← h] at hfilter
  simp only [Nat.lt_succ_iff] at hfilter
  exact hfilter

end Numbered
end OrdMap
