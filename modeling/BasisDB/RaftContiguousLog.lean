import BasisDB.RaftLog

/-! Logs whose entries are numbered on from their snapshot: the accessors of the log read
off the list of entries, for any compacted part and any terms. -/
namespace BasisDB.Raft.Log

variable {log log' : Log}

/-- Entry `i` of the vector has index `snapshotIndex + i + 1`. -/
def Contiguous (log : Log) : Prop :=
  ∀ i e, log.entries[i]? = some e → e.index = log.snapshotIndex + i + 1

/-- An equal index and term in two logs means an equal log up to there. -/
def Matching (log log' : Log) : Prop :=
  ∀ i e e', log.get i = some e → log'.get i = some e' → e.term = e'.term →
    ∀ j ≤ i, log.get j = log'.get j

theorem Contiguous.empty : Contiguous Log.empty := by
  intro i e h
  simp [Log.empty] at h

theorem Contiguous.lastIndex_eq (h : log.Contiguous) :
    log.lastIndex = log.snapshotIndex + log.entries.length := by
  unfold lastIndex
  rcases List.eq_nil_or_concat' log.entries with hnil | ⟨es, e, hes⟩
  · simp [hnil]
  · have hlast : log.entries[es.length]? = some e := by simp [hes]
    have hindex := h _ _ hlast
    simp only [hes, List.getLast?_append, List.getLast?_singleton, Option.some_or,
      List.length_append, List.length_singleton, hindex]
    omega

theorem get_above {j : ℕ} (hj : log.snapshotIndex < j) :
    log.get j = log.entries[j - log.snapshotIndex - 1]? := by
  have hzero : ¬ (j = 0 ∨ j ≤ log.snapshotIndex) := by omega
  have hle : ¬ j ≤ log.snapshotIndex := by omega
  rw [get, if_neg hzero, toVecIndex, if_neg hle, Option.bind_some]

theorem termAt_above {j : ℕ} (hj : log.snapshotIndex < j) :
    log.termAt j = ((log.get j).map Entry.term).getD 0 := by
  have hlow : ¬ (j = 0 ∨ j < log.snapshotIndex) := by omega
  have heq : j ≠ log.snapshotIndex := by omega
  have hle : ¬ j ≤ log.snapshotIndex := by omega
  rw [get_above hj, termAt, if_neg hlow, if_neg heq, toVecIndex, if_neg hle, Option.bind_some]
  cases log.entries[j - log.snapshotIndex - 1]? <;> rfl

theorem get_index (h : log.Contiguous) {j : ℕ} {e : Entry} (he : log.get j = some e) :
    log.snapshotIndex < j ∧ j ≤ log.lastIndex ∧ e.index = j := by
  have hj : log.snapshotIndex < j := by
    by_contra hle
    have hlow : j = 0 ∨ j ≤ log.snapshotIndex := by omega
    simp [get, hlow] at he
  rw [get_above hj] at he
  have hlt := (List.getElem?_eq_some_iff.mp he).1
  have hindex := h _ _ he
  rw [h.lastIndex_eq]
  omega

theorem get_isSome (h : log.Contiguous) {j : ℕ} (hj : log.snapshotIndex < j)
    (hlast : j ≤ log.lastIndex) : ∃ e, log.get j = some e := by
  rw [h.lastIndex_eq] at hlast
  rw [get_above hj]
  exact ⟨_, List.getElem?_eq_getElem (by omega)⟩

/-- Truncation keeps the entries up to the index and the snapshot. -/
theorem truncateAfter_eq (log : Log) (j : ℕ) :
    log.truncateAfter j = { log with entries := log.entries.take (j - log.snapshotIndex) } := by
  unfold truncateAfter toVecIndex
  by_cases hj : j ≤ log.snapshotIndex
  · have hsub : j - log.snapshotIndex = 0 := by omega
    simp [hj, hsub]
  · have hsub : j - log.snapshotIndex - 1 + 1 = j - log.snapshotIndex := by omega
    simp [hj, hsub]

theorem Contiguous.truncateAfter (h : log.Contiguous) (j : ℕ) :
    (log.truncateAfter j).Contiguous := by
  intro i e he
  rw [truncateAfter_eq] at he ⊢
  have hi : i < (log.entries.take (j - log.snapshotIndex)).length :=
    (List.getElem?_eq_some_iff.mp he).1
  rw [List.length_take] at hi
  rw [List.getElem?_take_of_lt (by omega)] at he
  exact h i e he

theorem Contiguous.append (h : log.Contiguous) {entry : Entry}
    (hentry : entry.index = log.lastIndex + 1) : (log.append entry).Contiguous := by
  intro i e he
  unfold Log.append at he ⊢
  rw [h.lastIndex_eq] at hentry
  rcases Nat.lt_trichotomy i log.entries.length with hi | hi | hi
  · rw [List.getElem?_append_left hi] at he
    exact h i e he
  · subst hi
    obtain rfl : entry = e := by simpa using he
    exact hentry
  · rw [List.getElem?_eq_none (by simp; omega)] at he
    cases he

theorem Contiguous.slice_eq (h : log.Contiguous) {start stop : ℕ}
    (hstart : log.snapshotIndex < start) :
    log.slice start stop =
      (log.entries.take (stop - log.snapshotIndex)).drop (start - log.snapshotIndex - 1) := by
  have hmax : max start (log.snapshotIndex + 1) = start := by omega
  have hvec : ¬ start ≤ log.snapshotIndex := by omega
  have hlast := h.lastIndex_eq
  unfold slice
  simp only [hmax, toVecIndex, if_neg hvec]
  by_cases hnone : stop < start ∨ log.entries = []
  · rw [if_pos hnone]
    refine (List.drop_eq_nil_of_le ?_).symm
    rw [List.length_take]
    rcases hnone with hlt | hnil
    · omega
    · simp [hnil]
  · rw [if_neg hnone]
    have hpos : 0 < log.entries.length := by
      rw [List.length_pos_iff]
      exact fun hnil => hnone (Or.inr hnil)
    have hstop : ¬ min stop log.lastIndex ≤ log.snapshotIndex := by omega
    have hend : min stop log.lastIndex - log.snapshotIndex - 1 + 1 =
        min (stop - log.snapshotIndex) log.entries.length := by
      rcases le_total stop log.lastIndex with hle | hle
      · rw [min_eq_left hle] at hstop ⊢
        omega
      · rw [min_eq_right hle] at hstop ⊢
        omega
    simp only [if_neg hstop, hend]
    split_ifs with hempty
    · refine (List.drop_eq_nil_of_le ?_).symm
      rw [List.length_take]
      rcases hempty with hle | hle
      · exact (min_le_right _ _).trans hle
      · exact hle
    · rw [← List.take_eq_take_min]

end BasisDB.Raft.Log
