import BasisDB.RaftContiguousLog
import BasisDB.RaftFormed
import BasisDB.RaftRepairLog

/-! A log with a compacted part, read against the sender's entries: as long as the compacted
part is a part of them, the append loop treats the log as if nothing had been compacted. -/
namespace BasisDB.Raft

namespace Log

/-- The entries of a log whose compacted part is the beginning of `L`. -/
def whole (log : Log) (L : List Entry) : List Entry := L.take log.snapshotIndex ++ log.entries

def uncompacted (log : Log) (L : List Entry) : Log :=
  { entries := log.whole L, snapshotIndex := 0, snapshotTerm := 0, snapshotConfig := none }

/-- The snapshot of the log stands inside `L`, with the term that `L` has there, and the
entries go on from it. -/
structure CompactedFrom (log : Log) (L : List Entry) : Prop where
  within : log.snapshotIndex ≤ L.length
  term : 0 < log.snapshotIndex → log.snapshotTerm = termOf L log.snapshotIndex
  numbered : Numbered log.snapshotIndex log.entries

namespace CompactedFrom
variable {log : Log} {L : List Entry}

theorem length_take (h : log.CompactedFrom L) :
    (L.take log.snapshotIndex).length = log.snapshotIndex := by
  rw [List.length_take]
  have := h.within
  omega

theorem length_whole (h : log.CompactedFrom L) :
    (log.whole L).length = log.snapshotIndex + log.entries.length := by
  rw [whole, List.length_append, h.length_take]

theorem take_isPrefix (log : Log) (L : List Entry) : L.take log.snapshotIndex <+: log.whole L :=
  List.prefix_append _ _

theorem plain (h : log.CompactedFrom L) (hL : Numbered 0 L) : (log.uncompacted L).Plain := by
  refine ⟨rfl, rfl, rfl, ?_⟩
  have hnum := h.numbered
  rw [uncompacted, whole, numbered_append, h.length_take, Nat.zero_add]
  exact ⟨hL.of_isPrefix (List.take_prefix _ _), hnum⟩

theorem lastIndex_eq (h : log.CompactedFrom L) : log.lastIndex = (log.whole L).length := by
  rw [h.length_whole, lastIndex]
  rcases List.eq_nil_or_concat' log.entries with hnil | ⟨es, e, hes⟩
  · simp [hnil]
  · have hindex := (hes ▸ h.numbered).last.1
    simp only [hes, List.getLast?_append, List.getLast?_singleton, Option.some_or, hindex,
      List.length_append, List.length_singleton]
    omega

theorem lastIndex_uncompacted (h : log.CompactedFrom L) (hL : Numbered 0 L) :
    (log.uncompacted L).lastIndex = log.lastIndex := by
  rw [(h.plain hL).lastIndex, h.lastIndex_eq]
  rfl

/-- From the snapshot on, the terms are those of the whole log. -/
theorem termAt_of_le (h : log.CompactedFrom L) {i : ℕ} (hi : log.snapshotIndex ≤ i) :
    log.termAt i = termOf (log.whole L) i := by
  rcases Nat.eq_zero_or_pos i with hzero | hpos
  · simp [Log.termAt, termOf, hzero]
  have hlow : ¬ (i = 0 ∨ i < log.snapshotIndex) := by omega
  rw [Log.termAt, if_neg hlow]
  by_cases heq : i = log.snapshotIndex
  · have hsplit : termOf (log.whole L) i = termOf (L.take log.snapshotIndex) i :=
      termOf_of_le (by rw [h.length_take]; omega)
    have hown : termOf (L.take log.snapshotIndex ++ L.drop log.snapshotIndex) i =
        termOf (L.take log.snapshotIndex) i := termOf_of_le (by rw [h.length_take]; omega)
    rw [List.take_append_drop] at hown
    rw [if_pos heq, h.term (by omega), ← heq, hsplit, ← hown]
  · rw [if_neg heq, toVecIndex, if_neg (by omega), Option.bind_some, termOf, if_neg (by omega),
      whole, List.getElem?_append_right (by rw [h.length_take]; omega), h.length_take]
    have hpos' : i - 1 - log.snapshotIndex = i - log.snapshotIndex - 1 := by omega
    rw [hpos']
    cases log.entries[i - log.snapshotIndex - 1]? <;> rfl

theorem termAt_of_lt {i : ℕ} (hi : i < log.snapshotIndex) : log.termAt i = 0 := by
  rw [Log.termAt, if_pos (Or.inr hi)]

theorem termAt_uncompacted (h : log.CompactedFrom L) (hL : Numbered 0 L) {i : ℕ}
    (hi : log.snapshotIndex ≤ i) : (log.uncompacted L).termAt i = log.termAt i := by
  rw [(h.plain hL).termAt_eq, h.termAt_of_le hi]
  rfl

theorem truncateAfter (h : log.CompactedFrom L) (i : ℕ) :
    (log.truncateAfter i).CompactedFrom L := by
  rw [truncateAfter_eq]
  exact ⟨h.within, h.term, h.numbered.of_isPrefix (List.take_prefix _ _)⟩

theorem truncateAfter_uncompacted (h : log.CompactedFrom L) (hL : Numbered 0 L) {i : ℕ}
    (hi : log.snapshotIndex ≤ i) :
    (log.truncateAfter i).uncompacted L = (log.uncompacted L).truncateAfter i := by
  rw [truncateAfter_eq, (h.plain hL).truncateAfter]
  have hentries : L.take log.snapshotIndex ++ log.entries.take (i - log.snapshotIndex) =
      (log.whole L).take i := by
    rw [whole, List.take_append, h.length_take]
    congr 1
    rw [List.take_take, min_eq_right hi]
  simp only [uncompacted, ← hentries]
  rfl

end CompactedFrom

theorem append_uncompacted (log : Log) (L : List Entry) (e : Entry) :
    (log.append e).uncompacted L = (log.uncompacted L).append e := by
  simp [uncompacted, whole, Log.append]

end Log

namespace Follower
open Log
variable {log : Log} {L : List Entry}

/-- The second half of a round of the loop. -/
theorem appendPast_uncompacted (h : log.CompactedFrom L) (hL : Numbered 0 L) {e : Entry} {k : ℕ}
    (hindex : e.index = k + 1) (hpos : 0 < e.term) (hk : k ≤ log.lastIndex) :
    (if log.lastIndex < e.index then log.append e else log).CompactedFrom L ∧
    (if log.lastIndex < e.index then log.append e else log).uncompacted L =
      (if (log.uncompacted L).lastIndex < e.index then (log.uncompacted L).append e
        else log.uncompacted L) ∧
    k + 1 ≤ (if log.lastIndex < e.index then log.append e else log).lastIndex := by
  rw [h.lastIndex_uncompacted hL]
  by_cases hlt : log.lastIndex < e.index
  · simp only [if_pos hlt]
    have hend : e.index = log.snapshotIndex + log.entries.length + 1 := by
      rw [h.lastIndex_eq, h.length_whole] at hk hlt
      omega
    have hafter : (log.append e).CompactedFrom L := by
      refine ⟨h.within, h.term, ?_⟩
      exact (numbered_append _ _ _).mpr ⟨h.numbered, hend, hpos, trivial⟩
    refine ⟨hafter, append_uncompacted log L e, ?_⟩
    rw [hafter.lastIndex_eq, hafter.length_whole]
    simp only [Log.append, List.length_append, List.length_singleton]
    omega
  · simp only [if_neg hlt]
    exact ⟨h, trivial, by omega⟩

/-- One round of the loop does the same to the log and to its uncompacted form. -/
theorem appendEntry_uncompacted (h : log.CompactedFrom L) (hL : Numbered 0 L) {e : Entry} {k : ℕ}
    (he : L[k]? = some e) (hk : k ≤ log.lastIndex) (flag flag' : Bool) :
    (appendEntry (log, flag) e).1.CompactedFrom L ∧
    (appendEntry (log, flag) e).1.uncompacted L = (appendEntry (log.uncompacted L, flag') e).1 ∧
    k + 1 ≤ (appendEntry (log, flag) e).1.lastIndex := by
  have hindex : e.index = k + 1 := by
    have := hL.index_of_getElem? he
    omega
  have hpos : 0 < e.term := hL.pos e (List.mem_of_getElem? he)
  have hfst (acc : Log × Bool) : (appendEntry acc e).1 =
      if (if acc.1.termAt e.index ≠ 0 ∧ acc.1.termAt e.index ≠ e.term then
          acc.1.truncateAfter (e.index - 1) else acc.1).lastIndex < e.index then
        (if acc.1.termAt e.index ≠ 0 ∧ acc.1.termAt e.index ≠ e.term then
          acc.1.truncateAfter (e.index - 1) else acc.1).append e
      else if acc.1.termAt e.index ≠ 0 ∧ acc.1.termAt e.index ≠ e.term then
        acc.1.truncateAfter (e.index - 1) else acc.1 := by
    simp only [appendEntry]
    split_ifs <;> rfl
  rw [hfst, hfst]
  dsimp only
  by_cases hle : log.snapshotIndex ≤ k
  · -- above the snapshot both logs read the same terms
    have hterm : (log.uncompacted L).termAt e.index = log.termAt e.index :=
      h.termAt_uncompacted hL (by omega)
    rw [hterm]
    by_cases hconflict : log.termAt e.index ≠ 0 ∧ log.termAt e.index ≠ e.term
    · have hback : e.index - 1 = k := by omega
      simp only [if_pos hconflict, hback]
      have hcut := h.truncateAfter k
      have hlen : k ≤ (log.truncateAfter k).lastIndex := by
        rw [h.lastIndex_eq, h.length_whole] at hk
        rw [hcut.lastIndex_eq, hcut.length_whole, truncateAfter_eq]
        simp only [List.length_take]
        omega
      rw [← h.truncateAfter_uncompacted hL hle]
      exact appendPast_uncompacted hcut hL hindex hpos hlen
    · simp only [if_neg hconflict]
      exact appendPast_uncompacted h hL hindex hpos hk
  · -- a compacted entry: neither log finds a conflict, and both reach past it
    have hown : (log.uncompacted L).termAt e.index = e.term := by
      have hget : (log.whole L)[k]? = some e := by
        rw [whole, List.getElem?_append_left (by rw [h.length_take]; omega),
          List.getElem?_take_of_lt (by omega), he]
      rw [(h.plain hL).termAt_eq, hindex, termOf, if_neg (Nat.succ_ne_zero k), Nat.add_sub_cancel]
      show ((log.whole L)[k]?.map Entry.term).getD 0 = e.term
      rw [hget]
      rfl
    have hlow : log.termAt e.index = 0 ∨ log.termAt e.index = e.term := by
      rcases Nat.lt_or_ge e.index log.snapshotIndex with hlt | hge
      · exact Or.inl (CompactedFrom.termAt_of_lt hlt)
      · right
        rw [← h.termAt_uncompacted hL hge, hown]
    have hno : ¬(log.termAt e.index ≠ 0 ∧ log.termAt e.index ≠ e.term) := by tauto
    have hno' : ¬((log.uncompacted L).termAt e.index ≠ 0 ∧
        (log.uncompacted L).termAt e.index ≠ e.term) := by tauto
    simp only [if_neg hno, if_neg hno']
    exact appendPast_uncompacted h hL hindex hpos hk

theorem appendEntries_uncompacted (hL : Numbered 0 L) {es : List Entry} {k : ℕ}
    (hes : es <+: L.drop k) (h : log.CompactedFrom L) (hk : k ≤ log.lastIndex) (flag flag' : Bool) :
    (es.foldl appendEntry (log, flag)).1.CompactedFrom L ∧
    (es.foldl appendEntry (log, flag)).1.uncompacted L =
      (es.foldl appendEntry (log.uncompacted L, flag')).1 := by
  induction es generalizing log k flag flag' with
  | nil => exact ⟨h, rfl⟩
  | cons e es ih =>
    have hget : L[k]? = some e := by
      have := getElem?_of_isPrefix (P := []) (List.IsPrefix.trans ⟨es, rfl⟩ hes)
      simpa using this
    obtain ⟨hlt, hcons⟩ := List.getElem?_eq_some_iff.mp hget
    have hrest : es <+: L.drop (k + 1) := by
      rw [List.drop_eq_getElem_cons hlt, hcons] at hes
      exact (List.cons_prefix_cons.mp hes).2
    obtain ⟨hafter, heq, hk'⟩ := appendEntry_uncompacted h hL hget hk flag flag'
    rw [List.foldl_cons, List.foldl_cons]
    have := ih hrest hafter hk' (appendEntry (log, flag) e).2
      (appendEntry (log.uncompacted L, flag') e).2
    rw [heq] at this
    exact this

end Follower
end BasisDB.Raft
