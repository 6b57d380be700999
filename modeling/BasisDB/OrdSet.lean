import Mathlib

/-! Finite sets kept as strictly increasing lists: the observable behaviour of a
balanced-tree set, with its iteration order. -/

/-- A finite set, stored as the strictly increasing list of its elements. -/
structure OrdSet (α : Type*) [LinearOrder α] where
  toList : List α
  sorted : toList.Pairwise (· < ·)

namespace OrdSet
variable {α : Type*} [LinearOrder α]

instance : DecidableEq (OrdSet α) := fun s t =>
  decidable_of_iff (s.toList = t.toList)
    ⟨fun h => by cases s; cases t; cases h; rfl, fun h => congrArg toList h⟩

instance : Membership α (OrdSet α) := ⟨fun s a => a ∈ s.toList⟩

instance (a : α) (s : OrdSet α) : Decidable (a ∈ s) := inferInstanceAs (Decidable (a ∈ s.toList))

theorem mem_def (a : α) (s : OrdSet α) : a ∈ s ↔ a ∈ s.toList := Iff.rfl

def empty : OrdSet α := ⟨[], List.Pairwise.nil⟩

def singleton (a : α) : OrdSet α := ⟨[a], List.pairwise_singleton _ _⟩

def contains (s : OrdSet α) (a : α) : Bool := decide (a ∈ s)

def len (s : OrdSet α) : ℕ := s.toList.length

def isEmpty (s : OrdSet α) : Bool := s.toList.isEmpty

/-- Insertion into an increasing list, leaving it alone when the element is present. -/
def insertList (a : α) : List α → List α
  | [] => [a]
  | b :: bs => if a < b then a :: b :: bs else if a = b then b :: bs else b :: insertList a bs

theorem mem_insertList (a b : α) (bs : List α) : b ∈ insertList a bs ↔ b = a ∨ b ∈ bs := by
  induction bs with
  | nil => simp [insertList]
  | cons c cs ih =>
    unfold insertList
    split_ifs with hlt heq
    · simp
    · subst heq
      simp
    · simp only [List.mem_cons, ih]
      tauto

theorem insertList_sorted (a : α) (bs : List α) (h : bs.Pairwise (· < ·)) :
    (insertList a bs).Pairwise (· < ·) := by
  induction bs with
  | nil => exact List.pairwise_singleton _ _
  | cons c cs ih =>
    obtain ⟨hc, hcs⟩ := List.pairwise_cons.mp h
    unfold insertList
    split_ifs with hlt heq
    · refine List.pairwise_cons.mpr ⟨?_, h⟩
      intro x hx
      rcases List.mem_cons.mp hx with rfl | hx
      · exact hlt
      · exact hlt.trans (hc x hx)
    · exact h
    · refine List.pairwise_cons.mpr ⟨?_, ih hcs⟩
      intro x hx
      rcases (mem_insertList a x cs).mp hx with rfl | hx
      · exact lt_of_le_of_ne (not_lt.mp hlt) (Ne.symm heq)
      · exact hc x hx

def insert (a : α) (s : OrdSet α) : OrdSet α := ⟨insertList a s.toList, insertList_sorted a _ s.sorted⟩

def remove (a : α) (s : OrdSet α) : OrdSet α :=
  ⟨s.toList.filter (fun b => decide (b ≠ a)), s.sorted.filter _⟩

def ofList (l : List α) : OrdSet α := l.foldl (fun s a => s.insert a) empty

@[simp] theorem mem_insert (a b : α) (s : OrdSet α) : b ∈ s.insert a ↔ b = a ∨ b ∈ s :=
  mem_insertList a b s.toList

@[simp] theorem mem_remove (a b : α) (s : OrdSet α) : b ∈ s.remove a ↔ b ∈ s ∧ b ≠ a := by
  simp [mem_def, remove]

@[simp] theorem not_mem_empty (a : α) : a ∉ (empty : OrdSet α) := List.not_mem_nil

@[simp] theorem mem_singleton (a b : α) : b ∈ singleton a ↔ b = a := List.mem_singleton

@[simp] theorem contains_iff (s : OrdSet α) (a : α) : s.contains a = true ↔ a ∈ s := by
  simp [contains]

@[simp] theorem contains_eq_false (s : OrdSet α) (a : α) : s.contains a = false ↔ a ∉ s := by
  simp [contains]

theorem mem_foldl_insert (a : α) (l : List α) (s : OrdSet α) :
    a ∈ l.foldl (fun s b => s.insert b) s ↔ a ∈ l ∨ a ∈ s := by
  induction l generalizing s with
  | nil => simp
  | cons b bs ih =>
    rw [List.foldl_cons, ih, mem_insert, List.mem_cons]
    tauto

@[simp] theorem mem_ofList (a : α) (l : List α) : a ∈ ofList l ↔ a ∈ l := by
  simp [ofList, mem_foldl_insert]

theorem isEmpty_eq_false (s : OrdSet α) : s.isEmpty = false ↔ ∃ a, a ∈ s := by
  rw [isEmpty, List.isEmpty_eq_false_iff_exists_mem]
  rfl

theorem nodup (s : OrdSet α) : s.toList.Nodup := s.sorted.imp (fun h => ne_of_lt h)

/-- A set with a member that is not its only one has another. -/
theorem exists_mem_ne {s : OrdSet α} {a : α} (ha : a ∈ s) (hlen : s.len ≠ 1) :
    ∃ b ∈ s, b ≠ a := by
  by_contra hno
  push Not at hno
  have hall : s.toList = List.replicate s.len a := List.eq_replicate_of_mem hno
  have hle := List.nodup_iff_count_le_one.mp s.nodup a
  have hpos : 0 < s.len := List.length_pos_of_mem ha
  rw [hall, List.count_replicate_self] at hle
  omega

/-- The set as a `Finset`, to count with. -/
def toFinset (s : OrdSet α) : Finset α := s.toList.toFinset

@[simp] theorem mem_toFinset (s : OrdSet α) (a : α) : a ∈ s.toFinset ↔ a ∈ s := List.mem_toFinset

theorem card_toFinset (s : OrdSet α) : s.toFinset.card = s.len :=
  List.toFinset_card_of_nodup s.nodup

theorem card_filter_toFinset (s : OrdSet α) (p : α → Bool) :
    (s.toFinset.filter (fun a => p a = true)).card = (s.toList.filter p).length := by
  rw [toFinset, ← List.toFinset_filter]
  exact List.toFinset_card_of_nodup (s.nodup.filter _)

end OrdSet
