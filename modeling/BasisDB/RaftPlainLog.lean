import BasisDB.RaftContiguousLog
import BasisDB.RaftFollower
import BasisDB.RaftQuorum

/-! Logs without a snapshot: entry `i` stands at position `i - 1`, and the
accessors and the append loop can be read off the list of entries. -/
namespace BasisDB.Raft
open ReplicatedLog

/-- Consecutive indices after `k`, and terms that are not zero. -/
def Numbered : ℕ → List Entry → Prop
  | _, [] => True
  | k, e :: es => e.index = k + 1 ∧ 0 < e.term ∧ Numbered (k + 1) es

theorem numbered_append (k : ℕ) (es fs : List Entry) :
    Numbered k (es ++ fs) ↔ Numbered k es ∧ Numbered (k + es.length) fs := by
  induction es generalizing k with
  | nil => simp [Numbered]
  | cons e es ih =>
    rw [List.cons_append, Numbered, Numbered, ih, List.length_cons]
    have hk : k + 1 + es.length = k + (es.length + 1) := by omega
    rw [hk]
    tauto

theorem Numbered.of_isPrefix {k : ℕ} {es fs : List Entry} (h : Numbered k fs) (hp : es <+: fs) :
    Numbered k es := by
  obtain ⟨rest, rfl⟩ := hp
  exact ((numbered_append k es rest).mp h).1

theorem Numbered.last {k : ℕ} {es : List Entry} {e : Entry} (h : Numbered k (es ++ [e])) :
    e.index = k + es.length + 1 ∧ 0 < e.term := by
  have := ((numbered_append k es [e]).mp h).2
  exact ⟨this.1, this.2.1⟩

theorem Numbered.pos {k : ℕ} {es : List Entry} (h : Numbered k es) : ∀ e ∈ es, 0 < e.term := by
  induction es generalizing k with
  | nil => exact fun e he => absurd he List.not_mem_nil
  | cons x es ih =>
    intro e he
    rcases List.mem_cons.mp he with rfl | he
    · exact h.2.1
    · exact ih h.2.2 e he

theorem prefix_of_getElem? {L : List Entry} {i : ℕ} {e : Entry} (h : L[i]? = some e) :
    L.take i ++ [e] <+: L ∧ (L.take i).length = i := by
  obtain ⟨hi, rfl⟩ := List.getElem?_eq_some_iff.mp h
  refine ⟨take_succ_isPrefix L i hi, ?_⟩
  rw [List.length_take]
  omega

theorem Numbered.index_of_getElem? {k : ℕ} {es : List Entry} (h : Numbered k es) {i : ℕ} {e : Entry}
    (he : es[i]? = some e) : e.index = k + i + 1 := by
  obtain ⟨hp, hl⟩ := prefix_of_getElem? he
  have := (h.of_isPrefix hp).last.1
  rw [hl] at this
  exact this

theorem getElem?_of_isPrefix {L P : List Entry} {e : Entry} (h : P ++ [e] <+: L) :
    L[P.length]? = some e := by
  obtain ⟨R, rfl⟩ := h
  simp

namespace Log

structure Plain (log : Log) : Prop where
  snapshotIndex : log.snapshotIndex = 0
  snapshotTerm : log.snapshotTerm = 0
  snapshotConfig : log.snapshotConfig = none
  numbered : Numbered 0 log.entries

namespace Plain
variable {log : Log}

theorem empty : Plain Log.empty := ⟨rfl, rfl, rfl, trivial⟩

theorem eq_of_entries {log' : Log} (h : log.Plain) (h' : log'.Plain)
    (he : log.entries = log'.entries) : log = log' := by
  obtain ⟨h1, h2, h3, -⟩ := h
  obtain ⟨h1', h2', h3', -⟩ := h'
  cases log
  cases log'
  simp_all

theorem contiguous (h : log.Plain) : log.Contiguous := by
  intro i e he
  rw [h.snapshotIndex]
  exact h.numbered.index_of_getElem? he

theorem lastIndex (h : log.Plain) : log.lastIndex = log.entries.length := by
  rw [h.contiguous.lastIndex_eq, h.snapshotIndex, Nat.zero_add]

theorem lastTerm (h : log.Plain) (boot : Configuration) :
    log.lastTerm = ReplicatedLog.lastTerm (scheme boot) log.entries := by
  unfold Log.lastTerm
  rcases List.eq_nil_or_concat' log.entries with hn | ⟨P, e, hP⟩
  · simp [hn, h.snapshotTerm]
  · rw [hP, lastTerm_concat]
    simp [scheme]

theorem get_succ (h : log.Plain) (i : ℕ) : log.get (i + 1) = log.entries[i]? := by
  have hpos : log.snapshotIndex < i + 1 := by
    rw [h.snapshotIndex]
    exact Nat.succ_pos i
  rw [get_above hpos, h.snapshotIndex, Nat.sub_zero, Nat.add_sub_cancel]

/-- Logs with a common beginning agree on it. -/
theorem get_eq_of_prefix {log' : Log} (h : log.Plain) (h' : log'.Plain) {P : List Entry}
    (hP : P <+: log.entries) (hP' : P <+: log'.entries) {j : ℕ} (hj : j ≤ P.length) :
    log.get j = log'.get j := by
  cases j with
  | zero => simp [Log.get]
  | succ j =>
    obtain ⟨R, hR⟩ := hP
    obtain ⟨R', hR'⟩ := hP'
    rw [h.get_succ, h'.get_succ, ← hR, ← hR', List.getElem?_append_left (by omega),
      List.getElem?_append_left (by omega)]

theorem termAt_succ (h : log.Plain) (i : ℕ) :
    log.termAt (i + 1) = ((log.entries[i]?).map Entry.term).getD 0 := by
  have hpos : log.snapshotIndex < i + 1 := by
    rw [h.snapshotIndex]
    exact Nat.succ_pos i
  rw [termAt_above hpos, h.get_succ]

theorem termAt_zero : log.termAt 0 = 0 := by simp [Log.termAt]

theorem termAt_prefix (h : log.Plain) {P : List Entry} {e : Entry} (hP : P ++ [e] <+: log.entries) :
    log.termAt (P.length + 1) = e.term := by
  rw [h.termAt_succ, getElem?_of_isPrefix hP]
  rfl

theorem termAt_beyond (h : log.Plain) {i : ℕ} (hi : log.entries.length < i) : log.termAt i = 0 := by
  obtain ⟨j, rfl⟩ : ∃ j, i = j + 1 := ⟨i - 1, by omega⟩
  rw [h.termAt_succ, List.getElem?_eq_none (by omega)]
  rfl

/-- A term that is not zero belongs to an entry of the log. -/
theorem entry_of_termAt (h : log.Plain) {i : ℕ} (hi : log.termAt i ≠ 0) :
    ∃ P e, P ++ [e] <+: log.entries ∧ P.length + 1 = i ∧ e.term = log.termAt i := by
  obtain ⟨j, rfl⟩ : ∃ j, i = j + 1 := by
    cases i with
    | zero => exact absurd termAt_zero hi
    | succ j => exact ⟨j, rfl⟩
  cases he : log.entries[j]? with
  | none => rw [h.termAt_succ, he] at hi; exact absurd rfl hi
  | some e =>
    obtain ⟨hp, hl⟩ := prefix_of_getElem? he
    exact ⟨_, e, hp, by rw [hl], by rw [h.termAt_succ, he]; rfl⟩

theorem append (h : log.Plain) {e : Entry} (hi : e.index = log.entries.length + 1)
    (ht : 0 < e.term) : (log.append e).Plain where
  snapshotIndex := h.snapshotIndex
  snapshotTerm := h.snapshotTerm
  snapshotConfig := h.snapshotConfig
  numbered := (numbered_append 0 _ _).mpr ⟨h.numbered, by simpa [Numbered] using ⟨hi, ht⟩⟩

theorem truncateAfter (h : log.Plain) (i : ℕ) :
    log.truncateAfter i = { log with entries := log.entries.take i } := by
  rw [truncateAfter_eq, h.snapshotIndex, Nat.sub_zero]

theorem take (h : log.Plain) (i : ℕ) : Plain { log with entries := log.entries.take i } where
  snapshotIndex := h.snapshotIndex
  snapshotTerm := h.snapshotTerm
  snapshotConfig := h.snapshotConfig
  numbered := h.numbered.of_isPrefix (List.take_prefix _ _)

/-- The latest configuration of the whole log is the one in force. -/
theorem configAt_last (h : log.Plain) (boot : Configuration) :
    (log.configAt log.lastIndex).getD boot = config (scheme boot) log.entries := by
  rw [h.lastIndex]
  unfold Log.configAt
  cases hn : log.entries.length with
  | zero =>
    rw [List.length_eq_zero_iff.mp hn]
    simp [h.snapshotConfig, h.snapshotIndex, scheme]
  | succ k =>
    have hfind (L : List Entry) : L.reverse.findSome? (fun e => e.payload.asConfig) =
        (L.filterMap (fun e => e.payload.asConfig)).getLast? := by
      rw [← List.head?_filterMap, List.filterMap_reverse, List.head?_reverse]
    have hstop : log.entries.take (min (k + 1) (k + 1)) = log.entries := by
      rw [min_self, ← hn, List.take_length]
    simp only [h.snapshotIndex, Log.toVecIndex]
    simp only [nonpos_iff_eq_zero, Nat.add_eq_zero_iff, one_ne_zero, and_false, if_false,
      Nat.add_sub_cancel, Nat.sub_zero, hstop, hfind, h.snapshotConfig]
    simp only [config, scheme]
    cases (log.entries.filterMap (fun e => e.payload.asConfig)).getLast? <;> rfl

/-- What a leader sends: a segment of its log, or nothing when it starts past the end. -/
theorem slice_eq (h : log.Plain) (start stop : ℕ) (hs : 0 < start) :
    log.slice start stop = (log.entries.take stop).drop (start - 1) := by
  have hstart : log.snapshotIndex < start := by
    rw [h.snapshotIndex]
    exact hs
  rw [h.contiguous.slice_eq hstart, h.snapshotIndex, Nat.sub_zero, Nat.sub_zero]

end Plain
end Log

namespace Follower
open Log

/-- At the end of the log the loop only appends. -/
theorem appendEntries_at_end {log : Log} (h : log.Plain) (flag : Bool) {es : List Entry}
    (hes : Numbered log.entries.length es) :
    (es.foldl appendEntry (log, flag)).1 = { log with entries := log.entries ++ es } := by
  induction es generalizing log flag with
  | nil => simp
  | cons e es ih =>
    obtain ⟨hi, ht, hrest⟩ := hes
    have hstep : appendEntry (log, flag) e = (log.append e, true) := by
      have hx : log.termAt e.index = 0 := h.termAt_beyond (by omega)
      have hlt : log.entries.length < e.index := by omega
      simp [appendEntry, hx, h.lastIndex, hlt]
    have hlen : (log.append e).entries.length = log.entries.length + 1 := by simp [Log.append]
    rw [List.foldl_cons, hstep, ih (h.append hi ht) true (hlen ▸ hrest)]
    simp [Log.append]

/-- Entries of one position and term in both lists have the same history. -/
def Matching (L M : List Entry) : Prop :=
  ∀ P x Q y, P ++ [x] <+: L → Q ++ [y] <+: M → P.length = Q.length → x.term = y.term →
    P ++ [x] = Q ++ [y]

/-- The append loop, when the log agrees with the sender up to `P`: a log that
holds all entries stays as it is, and any other one becomes what the sender sent. -/
theorem appendEntries_eq {log : Log} (h : log.Plain) {P es : List Entry} (hP : P <+: log.entries)
    (hes : Numbered P.length es) (hm : Matching (P ++ es) log.entries) (flag : Bool) :
    ((es.foldl appendEntry (log, flag)).1.entries = log.entries ∧ P ++ es <+: log.entries) ∨
    ((es.foldl appendEntry (log, flag)).1.entries = P ++ es ∧ ¬P ++ es <+: log.entries) := by
  induction es generalizing P flag with
  | nil => exact Or.inl ⟨rfl, by simpa using hP⟩
  | cons e es ih =>
    obtain ⟨hi, ht, hrest⟩ := hes
    obtain ⟨R, hR⟩ := hP
    rw [List.foldl_cons]
    have hassoc : P ++ e :: es = P ++ [e] ++ es := by simp
    have hlen : (P ++ [e]).length = P.length + 1 := by simp
    rw [hassoc] at hm ⊢
    cases R with
    | nil =>
      rw [List.append_nil] at hR
      right
      refine ⟨?_, ?_⟩
      · have hes' : Numbered log.entries.length (e :: es) := hR ▸ ⟨hi, ht, hrest⟩
        have := appendEntries_at_end h flag hes'
        rw [List.foldl_cons] at this
        rw [this]
        simp [hR]
      · intro hp
        have := hp.length_le
        rw [← hR, List.length_append, hlen] at this
        omega
    | cons y R =>
      have hPy : P ++ [y] <+: log.entries := ⟨R, by rw [← hR]; simp⟩
      have hterm : log.termAt e.index = y.term := by rw [hi, h.termAt_prefix hPy]
      have hlast : P.length + 1 ≤ log.lastIndex := by
        rw [h.lastIndex, ← hR, List.length_append, List.length_cons]
        omega
      by_cases hey : y.term = e.term
      · -- the entry is there already
        have hstep : appendEntry (log, flag) e = (log, flag) := by
          have hnot : ¬log.lastIndex < e.index := by omega
          simp [appendEntry, hterm, hey, hnot]
        have hPe : P ++ [e] <+: log.entries := by
          have heq := hm P e P y (List.prefix_append _ _) hPy rfl hey.symm
          rw [heq]
          exact hPy
        rw [hstep]
        exact ih hPe (hlen ▸ hrest) hm flag
      · -- a conflict: cut the log back to `P` and append from there
        right
        have hy0 : y.term ≠ 0 := (h.numbered.pos y (hPy.subset (by simp))).ne'
        have hcut : log.truncateAfter (e.index - 1) = { log with entries := P } := by
          rw [h.truncateAfter, hi, Nat.add_sub_cancel, ← hR, List.take_left]
        have hplain : Plain { log with entries := P } := by
          have := h.take P.length
          rwa [← hR, List.take_left] at this
        have hstep : appendEntry (log, flag) e = ({ log with entries := P ++ [e] }, true) := by
          have hlt : Log.lastIndex { log with entries := P } < e.index := by
            rw [hplain.lastIndex, hi]
            exact Nat.lt_succ_self _
          simp [appendEntry, hterm, hy0, hey, hcut, hlt, Log.append]
        have hplain' : Plain { log with entries := P ++ [e] } := hplain.append hi ht
        refine ⟨?_, ?_⟩
        · rw [hstep, appendEntries_at_end hplain' true (hlen ▸ hrest)]
        · intro hp
          have hp' : P ++ [e] <+: log.entries := (List.prefix_append _ _).trans hp
          have := getElem?_of_isPrefix hp'
          rw [getElem?_of_isPrefix hPy, Option.some.injEq] at this
          exact hey (congrArg Entry.term this)

/-- The loop leaves the snapshot fields alone. -/
theorem appendEntries_snapshot (acc : Log × Bool) (es : List Entry) :
    (es.foldl appendEntry acc).1.snapshotIndex = acc.1.snapshotIndex ∧
    (es.foldl appendEntry acc).1.snapshotTerm = acc.1.snapshotTerm ∧
    (es.foldl appendEntry acc).1.snapshotConfig = acc.1.snapshotConfig := by
  have htr (log : Log) (i : ℕ) : (log.truncateAfter i).snapshotIndex = log.snapshotIndex ∧
      (log.truncateAfter i).snapshotTerm = log.snapshotTerm ∧
      (log.truncateAfter i).snapshotConfig = log.snapshotConfig := by
    unfold Log.truncateAfter
    split_ifs
    · exact ⟨rfl, rfl, rfl⟩
    · split <;> exact ⟨rfl, rfl, rfl⟩
  induction es generalizing acc with
  | nil => exact ⟨rfl, rfl, rfl⟩
  | cons e es ih =>
    rw [List.foldl_cons]
    obtain ⟨h1, h2, h3⟩ := ih (appendEntry acc e)
    rw [h1, h2, h3]
    simp only [appendEntry]
    split_ifs <;> simp [Log.append, htr]

/-- A loop that appended nothing changed nothing: every truncation is followed by
an append. -/
theorem appendEntries_unflagged {log : Log} (h : log.Plain) (es : List Entry) :
    (es.foldl appendEntry (log, false)).2 = false → (es.foldl appendEntry (log, false)).1 = log := by
  have hflag (acc : Log × Bool) (es : List Entry) (hacc : acc.2 = true) :
      (es.foldl appendEntry acc).2 = true := by
    induction es generalizing acc with
    | nil => exact hacc
    | cons e es ih =>
      refine ih _ ?_
      simp only [appendEntry]
      split_ifs <;> simp [hacc]
  induction es with
  | nil => exact fun _ => rfl
  | cons e es ih =>
    intro hf
    rw [List.foldl_cons] at hf ⊢
    have hstep : appendEntry (log, false) e = (log, false) := by
      have hunflagged : (appendEntry (log, false) e).2 = false := by
        by_contra hne
        rw [hflag _ es (Bool.eq_true_of_not_eq_false hne)] at hf
        cases hf
      by_cases hc : log.termAt e.index ≠ 0 ∧ log.termAt e.index ≠ e.term
      · -- the cut log ends before the entry, so the flag would be set
        obtain ⟨Q, x, hQ, hl, -⟩ := h.entry_of_termAt hc.1
        have hlt : (log.truncateAfter (e.index - 1)).lastIndex < e.index := by
          rw [h.truncateAfter, (h.take _).lastIndex, List.length_take]
          omega
        simp [appendEntry, hc, hlt] at hunflagged
      · by_cases hlt : log.lastIndex < e.index
        · simp only [appendEntry, if_neg hc, if_pos hlt] at hunflagged
          cases hunflagged
        · simp only [appendEntry, if_neg hc, if_neg hlt]
    rw [hstep] at hf ⊢
    exact ih hf

end Follower
end BasisDB.Raft
