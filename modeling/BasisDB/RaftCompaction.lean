import BasisDB.RaftContiguousLog

/-! Compaction as an operation on logs: it leaves every accessor as it was above the new
snapshot, and it commutes with the other mutations. A log that is compacted now and then is
therefore a compaction of the log that never was. -/
namespace BasisDB.Raft.Log

variable {log : Log} {s j : ℕ}

/-- `truncate_prefix(i, term_at(i))`. -/
def compact (log : Log) (index : ℕ) : Log := log.truncatePrefix index (log.termAt index)

/-- The latest configuration among some entries. -/
def lastConfigOf (es : List Entry) : Option Configuration :=
  es.reverse.findSome? (fun e => e.payload.asConfig)

theorem lastConfigOf_append (es fs : List Entry) :
    lastConfigOf (es ++ fs) = (lastConfigOf fs).or (lastConfigOf es) := by
  rw [lastConfigOf, List.reverse_append, List.findSome?_append]
  rfl

theorem configAt_eq (log : Log) (j : ℕ) :
    log.configAt j =
      (lastConfigOf (log.entries.take (j - log.snapshotIndex))).or log.snapshotConfig := by
  by_cases hj : j ≤ log.snapshotIndex
  · have hsub : j - log.snapshotIndex = 0 := by omega
    rw [configAt, if_pos hj, hsub]
    rfl
  · have hsub : j - log.snapshotIndex - 1 + 1 = j - log.snapshotIndex := by omega
    rw [configAt, if_neg hj]
    simp only [toVecIndex, if_neg hj, hsub]
    rw [← List.take_eq_take_min, lastConfigOf]
    cases (log.entries.take (j - log.snapshotIndex)).reverse.findSome?
      (fun e => e.payload.asConfig) <;> rfl

theorem compact_eq (hs : log.snapshotIndex < s) : log.compact s =
    { entries := log.entries.drop (s - log.snapshotIndex)
      snapshotIndex := s
      snapshotTerm := log.termAt s
      snapshotConfig := log.configAt s } := by
  rw [compact, truncatePrefix, if_neg (by omega)]

/-- Apart from the entries that stay, compaction depends only on the entries up to the new
snapshot. -/
theorem compact_of_take {log' : Log} (hs : log.snapshotIndex < s)
    (hsnap : log'.snapshotIndex = log.snapshotIndex)
    (hconfig : log'.snapshotConfig = log.snapshotConfig)
    (htake : log'.entries.take (s - log.snapshotIndex) =
      log.entries.take (s - log.snapshotIndex)) :
    log'.compact s =
      { log.compact s with entries := log'.entries.drop (s - log.snapshotIndex) } := by
  have hs' : log'.snapshotIndex < s := hsnap ▸ hs
  have hlast (es : List Entry) : es[s - log.snapshotIndex - 1]? =
      (es.take (s - log.snapshotIndex))[s - log.snapshotIndex - 1]? :=
    (List.getElem?_take_of_lt (by omega)).symm
  have hterm : log'.termAt s = log.termAt s := by
    rw [termAt_above hs, termAt_above hs', get_above hs, get_above hs', hsnap, hlast, htake,
      ← hlast]
  have hconfigAt : log'.configAt s = log.configAt s := by
    rw [configAt_eq, configAt_eq, hsnap, htake, hconfig]
  rw [compact_eq hs, compact_eq hs', hterm, hconfigAt, hsnap]

theorem compact_self (log : Log) : log.compact log.snapshotIndex = log := by
  rw [compact, truncatePrefix, if_pos le_rfl]

section Accessors
variable (hs : log.snapshotIndex ≤ s)
include hs

theorem compact_snapshotIndex : (log.compact s).snapshotIndex = s := by
  rcases hs.eq_or_lt with rfl | hlt
  · rw [compact_self]
  · rw [compact_eq hlt]

theorem compact_entries : (log.compact s).entries = log.entries.drop (s - log.snapshotIndex) := by
  rcases hs.eq_or_lt with rfl | hlt
  · rw [compact_self, Nat.sub_self, List.drop_zero]
  · rw [compact_eq hlt]

theorem Contiguous.compact (h : log.Contiguous) : (log.compact s).Contiguous := by
  intro i e he
  rw [compact_entries hs, List.getElem?_drop] at he
  rw [compact_snapshotIndex hs, h _ e he]
  omega

theorem compact_lastIndex (h : log.Contiguous) (hlast : s ≤ log.lastIndex) :
    (log.compact s).lastIndex = log.lastIndex := by
  rw [h.lastIndex_eq] at hlast
  rw [(h.compact hs).lastIndex_eq, h.lastIndex_eq, compact_snapshotIndex hs, compact_entries hs,
    List.length_drop]
  omega

theorem compact_get (hj : s < j) : (log.compact s).get j = log.get j := by
  have hpos : s - log.snapshotIndex + (j - s - 1) = j - log.snapshotIndex - 1 := by omega
  rw [get_above (by rw [compact_snapshotIndex hs]; exact hj), get_above (by omega),
    compact_entries hs, compact_snapshotIndex hs, List.getElem?_drop, hpos]

theorem compact_termAt (hj : s ≤ j) : (log.compact s).termAt j = log.termAt j := by
  rcases hs.eq_or_lt with rfl | hlt
  · rw [compact_self]
  rcases hj.eq_or_lt with rfl | hj
  · -- at the snapshot itself the term was written down
    have hlow : ¬ (s = 0 ∨ s < s) := by omega
    rw [compact_eq hlt]
    nth_rewrite 1 [termAt]
    simp only [if_neg hlow, if_true]
  · rw [termAt_above (by rw [compact_snapshotIndex hs]; exact hj), compact_get hs hj,
      termAt_above (by omega)]

theorem compact_lastTerm (h : log.Contiguous) (hlast : s ≤ log.lastIndex) :
    (log.compact s).lastTerm = log.lastTerm := by
  rcases hs.eq_or_lt with rfl | hlt
  · rw [compact_self]
  rw [h.lastIndex_eq] at hlast
  rw [lastTerm, lastTerm, compact_entries hs]
  rcases hlast.eq_or_lt with heq | hkeep
  · -- everything is compacted: the last entry is the one at the snapshot
    have hnil : log.entries.drop (s - log.snapshotIndex) = [] := by
      apply List.drop_eq_nil_of_le
      omega
    have hlastEntry : log.entries.getLast? = log.get s := by
      rw [get_above hlt, List.getLast?_eq_getElem?]
      congr 1
      omega
    obtain ⟨e, he⟩ : ∃ e, log.get s = some e := by
      apply get_isSome h hlt
      rw [h.lastIndex_eq]
      omega
    have hterm : (log.compact s).snapshotTerm = log.termAt s := by rw [compact_eq hlt]
    rw [hnil, hlastEntry, he, hterm, termAt_above hlt, he]
    rfl
  · have hdrop : (log.entries.drop (s - log.snapshotIndex)).getLast? = log.entries.getLast? := by
      rw [List.getLast?_drop, if_neg (by omega)]
    have hne : log.entries ≠ [] := by
      rw [← List.length_pos_iff]
      omega
    rw [hdrop, List.getLast?_eq_getLast_of_ne_nil hne]

theorem compact_configAt (hj : s ≤ j) : (log.compact s).configAt j = log.configAt j := by
  rcases hs.eq_or_lt with rfl | hlt
  · rw [compact_self]
  have hsplit : log.entries.take (j - log.snapshotIndex) =
      log.entries.take (s - log.snapshotIndex) ++
        (log.entries.drop (s - log.snapshotIndex)).take (j - s) := by
    have hlen : j - log.snapshotIndex = s - log.snapshotIndex + (j - s) := by omega
    rw [hlen, List.take_add]
  calc (log.compact s).configAt j
      = (lastConfigOf ((log.entries.drop (s - log.snapshotIndex)).take (j - s))).or
          (log.configAt s) := by
        rw [configAt_eq, compact_eq hlt]
    _ = (lastConfigOf (log.entries.take (j - log.snapshotIndex))).or log.snapshotConfig := by
        rw [configAt_eq log s, hsplit, lastConfigOf_append, Option.or_assoc]
    _ = log.configAt j := (configAt_eq log j).symm

theorem compact_pendingConfigIndex (h : log.Contiguous) {c : ℕ} (hc : s ≤ c) :
    (log.compact s).pendingConfigIndex c = log.pendingConfigIndex c := by
  have hlow : (log.entries.take (s - log.snapshotIndex)).reverse.find?
      (fun e => e.payload.isConfig && decide (c < e.index)) = none := by
    rw [List.find?_eq_none]
    intro e he hlater
    rw [List.mem_reverse] at he
    obtain ⟨i, hi⟩ := List.mem_iff_getElem?.mp he
    have hlt := (List.getElem?_eq_some_iff.mp hi).1
    rw [List.length_take] at hlt
    rw [List.getElem?_take_of_lt (by omega)] at hi
    have hindex := h i e hi
    simp only [Bool.and_eq_true, decide_eq_true_eq] at hlater
    omega
  have hsplit := List.take_append_drop (s - log.snapshotIndex) log.entries
  rw [pendingConfigIndex, pendingConfigIndex, compact_entries hs]
  nth_rewrite 2 [← hsplit]
  rw [List.reverse_append, List.find?_append, hlow, Option.or_none]

end Accessors

/-- A slice never reaches into the compacted part. -/
theorem slice_clamp (log : Log) (start stop : ℕ) :
    log.slice start stop = log.slice (max start (log.snapshotIndex + 1)) stop := by
  have hmax : max (max start (log.snapshotIndex + 1)) (log.snapshotIndex + 1) =
      max start (log.snapshotIndex + 1) := by omega
  rw [slice, slice, hmax]

theorem compact_slice (h : log.Contiguous) (hs : log.snapshotIndex ≤ s) (start stop : ℕ) :
    (log.compact s).slice start stop = log.slice (max start (s + 1)) stop := by
  have hstart : s < max start (s + 1) := by omega
  have hdrop : s - log.snapshotIndex + (max start (s + 1) - s - 1) =
      max start (s + 1) - log.snapshotIndex - 1 := by omega
  rw [slice_clamp, compact_snapshotIndex hs,
    (h.compact hs).slice_eq (by rw [compact_snapshotIndex hs]; exact hstart),
    h.slice_eq (by omega), compact_snapshotIndex hs, compact_entries hs, List.take_drop,
    List.drop_drop, hdrop]
  -- what is cut off the end lies behind the snapshot or is empty on both sides
  rcases Nat.lt_or_ge stop s with hlt | hge
  · rw [List.drop_eq_nil_of_le, List.drop_eq_nil_of_le]
    · rw [List.length_take]
      omega
    · rw [List.length_take]
      omega
  · have hlen : s - log.snapshotIndex + (stop - s) = stop - log.snapshotIndex := by omega
    rw [hlen]

/-- The entries above an index, among those of a slice. -/
theorem slice_filter (h : log.Contiguous) (s start stop : ℕ) :
    (log.slice start stop).filter (fun e => decide (s < e.index)) =
      log.slice (max start (s + 1)) stop := by
  let m := max start (log.snapshotIndex + 1) - log.snapshotIndex - 1
  let k := s - log.snapshotIndex - m
  let es := log.entries.take (stop - log.snapshotIndex)
  have hget (i : ℕ) (e : Entry) (he : es[i]? = some e) : e.index = log.snapshotIndex + i + 1 := by
    have hi := (List.getElem?_eq_some_iff.mp he).1
    simp only [es, List.length_take] at hi
    simp only [es] at he
    rw [List.getElem?_take_of_lt (by omega)] at he
    exact h i e he
  have hleft : log.slice start stop = es.drop m := by
    rw [slice_clamp, h.slice_eq (by omega)]
  have hright : log.slice (max start (s + 1)) stop = es.drop (m + k) := by
    have hstart : max (max start (s + 1)) (log.snapshotIndex + 1) - log.snapshotIndex - 1 =
        m + k := by omega
    rw [slice_clamp, h.slice_eq (by omega), hstart]
  -- the slice up to `s`, and the slice above it
  have hlow : ((es.drop m).take k).filter (fun e => decide (s < e.index)) = [] := by
    apply List.filter_eq_nil_iff.mpr
    intro e he hlater
    obtain ⟨i, hi⟩ := List.mem_iff_getElem?.mp he
    have hik := (List.getElem?_eq_some_iff.mp hi).1
    rw [List.length_take] at hik
    rw [List.getElem?_take_of_lt (by omega), List.getElem?_drop] at hi
    have hindex := hget _ e hi
    have hs := of_decide_eq_true hlater
    omega
  have hhigh : (es.drop (m + k)).filter (fun e => decide (s < e.index)) = es.drop (m + k) := by
    apply List.filter_eq_self.mpr
    intro e he
    obtain ⟨i, hi⟩ := List.mem_iff_getElem?.mp he
    rw [List.getElem?_drop] at hi
    have hindex := hget _ e hi
    apply decide_eq_true
    omega
  rw [hleft, hright, ← List.take_append_drop k (es.drop m), List.filter_append, hlow,
    List.drop_drop, List.nil_append, hhigh]

section Mutations
variable (hs : log.snapshotIndex ≤ s)
include hs

theorem append_compact (h : log.Contiguous) (hlast : s ≤ log.lastIndex) (e : Entry) :
    (log.compact s).append e = (log.append e).compact s := by
  rcases hs.eq_or_lt with rfl | hlt
  · have hself := compact_self (log.append e)
    rw [compact_self]
    exact hself.symm
  rw [h.lastIndex_eq] at hlast
  have hkeep : s - log.snapshotIndex ≤ log.entries.length := by omega
  have htake : (log.append e).entries.take (s - log.snapshotIndex) =
      log.entries.take (s - log.snapshotIndex) := List.take_append_of_le_length hkeep
  have hsnap : (log.append e).snapshotIndex = log.snapshotIndex := rfl
  rw [compact_of_take hlt hsnap rfl htake, compact_eq hlt]
  simp only [append]
  rw [List.drop_append_of_le_length hkeep]

theorem truncateAfter_compact {i : ℕ} (hi : s ≤ i) :
    (log.compact s).truncateAfter i = (log.truncateAfter i).compact s := by
  have hsnap : (log.truncateAfter i).snapshotIndex = log.snapshotIndex := by rw [truncateAfter_eq]
  rcases hs.eq_or_lt with rfl | hlt
  · have hself := compact_self (log.truncateAfter i)
    rw [hsnap] at hself
    rw [compact_self, hself]
  have htake : (log.truncateAfter i).entries.take (s - log.snapshotIndex) =
      log.entries.take (s - log.snapshotIndex) := by
    rw [truncateAfter_eq]
    simp only
    rw [List.take_take, min_eq_left (by omega)]
  have hconfig : (log.truncateAfter i).snapshotConfig = log.snapshotConfig := by
    rw [truncateAfter_eq]
  have hlen : i - log.snapshotIndex - (s - log.snapshotIndex) = i - s := by omega
  rw [compact_of_take hlt hsnap hconfig htake, truncateAfter_eq, truncateAfter_eq, compact_eq hlt]
  simp only
  rw [List.drop_take, hlen]

theorem compact_compact {i : ℕ} (hi : s ≤ i) : (log.compact s).compact i = log.compact i := by
  rcases hi.eq_or_lt with rfl | hlt
  · have hself := compact_self (log.compact s)
    rwa [compact_snapshotIndex hs] at hself
  have hlt' : (log.compact s).snapshotIndex < i := by
    rw [compact_snapshotIndex hs]
    exact hlt
  have hdrop : s - log.snapshotIndex + (i - s) = i - log.snapshotIndex := by omega
  rw [compact_eq hlt', compact_eq (show log.snapshotIndex < i by omega), compact_termAt hs hlt.le,
    compact_configAt hs hlt.le, compact_entries hs, compact_snapshotIndex hs, List.drop_drop,
    hdrop]

end Mutations

/-- What a node does to its log; an appended entry takes the next index. -/
inductive Op where
  | append (term : ℕ) (payload : EntryPayload)
  | truncateAfter (index : ℕ)
  | truncatePrefix (index : ℕ)

def Op.run (log : Log) : Op → Log
  | .append term payload => log.append ⟨term, log.lastIndex + 1, payload⟩
  | .truncateAfter index => log.truncateAfter index
  | .truncatePrefix index => log.truncatePrefix index (log.termAt index)

/-- The same operation on a log that is never compacted. -/
def Op.runPlain (log : Log) : Op → Log
  | .append term payload => log.append ⟨term, log.lastIndex + 1, payload⟩
  | .truncateAfter index => log.truncateAfter index
  | .truncatePrefix _ => log

/-- Entries are only cut off at or above the snapshot, and only entries that exist are
compacted. -/
def Op.Permitted (log : Log) : Op → Prop
  | .append _ _ => True
  | .truncateAfter index => log.snapshotIndex ≤ index
  | .truncatePrefix index => log.snapshotIndex < index ∧ index ≤ log.lastIndex

instance Op.decidablePermitted (log : Log) : (op : Op) → Decidable (op.Permitted log)
  | .append _ _ => inferInstanceAs (Decidable True)
  | .truncateAfter index => inferInstanceAs (Decidable (log.snapshotIndex ≤ index))
  | .truncatePrefix index =>
    inferInstanceAs (Decidable (log.snapshotIndex < index ∧ index ≤ log.lastIndex))

def PermitsAll : Log → List Op → Prop
  | _, [] => True
  | log, op :: ops => op.Permitted log ∧ (op.run log).PermitsAll ops

instance decidablePermitsAll : (log : Log) → (ops : List Op) → Decidable (log.PermitsAll ops)
  | _, [] => inferInstanceAs (Decidable True)
  | log, op :: ops =>
    haveI := decidablePermitsAll (op.run log) ops
    inferInstanceAs (Decidable (op.Permitted log ∧ (op.run log).PermitsAll ops))

/-- `log` is the plain log `ref` with a beginning of it compacted. -/
structure CompactionOf (log ref : Log) : Prop where
  plain : ref.snapshotIndex = 0
  contiguous : ref.Contiguous
  within : log.snapshotIndex ≤ ref.lastIndex
  eq : log = ref.compact log.snapshotIndex

namespace CompactionOf
variable {ref : Log}

theorem empty : CompactionOf Log.empty Log.empty :=
  ⟨rfl, Contiguous.empty, le_rfl, (compact_self Log.empty).symm⟩

section
variable (h : log.CompactionOf ref)
include h

theorem base_le (s : ℕ) : ref.snapshotIndex ≤ s := by
  rw [h.plain]
  exact Nat.zero_le s

theorem lastIndex_eq : log.lastIndex = ref.lastIndex := by
  rw [h.eq]
  exact compact_lastIndex (h.base_le _) h.contiguous h.within

/-- Every permitted operation keeps the relation. -/
theorem run {op : Op} (hop : op.Permitted log) : (op.run log).CompactionOf (op.runPlain ref) := by
  have hbase := h.base_le log.snapshotIndex
  cases op with
  | append term payload =>
    have hcont : (ref.append ⟨term, ref.lastIndex + 1, payload⟩).Contiguous :=
      h.contiguous.append rfl
    have hsame : log.append ⟨term, log.lastIndex + 1, payload⟩ =
        (ref.append ⟨term, ref.lastIndex + 1, payload⟩).compact log.snapshotIndex := by
      rw [← append_compact hbase h.contiguous h.within, ← h.eq, h.lastIndex_eq]
    refine ⟨h.plain, hcont, ?_, hsame⟩
    have hlen := h.within
    rw [h.contiguous.lastIndex_eq] at hlen
    show log.snapshotIndex ≤ (ref.append ⟨term, ref.lastIndex + 1, payload⟩).lastIndex
    rw [hcont.lastIndex_eq]
    simp only [Log.append, List.length_append, List.length_singleton]
    omega
  | truncateAfter index =>
    have hindex : log.snapshotIndex ≤ index := hop
    have hcont : (ref.truncateAfter index).Contiguous := h.contiguous.truncateAfter index
    have hsnap : (log.truncateAfter index).snapshotIndex = log.snapshotIndex := by
      rw [truncateAfter_eq]
    have hsame : log.truncateAfter index =
        (ref.truncateAfter index).compact log.snapshotIndex := by
      rw [← truncateAfter_compact hbase hindex, ← h.eq]
    refine ⟨?_, hcont, ?_, ?_⟩
    · show (ref.truncateAfter index).snapshotIndex = 0
      rw [truncateAfter_eq]
      exact h.plain
    · have hlen := h.within
      rw [h.contiguous.lastIndex_eq] at hlen
      show (log.truncateAfter index).snapshotIndex ≤ (ref.truncateAfter index).lastIndex
      rw [hcont.lastIndex_eq, hsnap, truncateAfter_eq]
      simp only [List.length_take]
      omega
    · show log.truncateAfter index =
        (ref.truncateAfter index).compact (log.truncateAfter index).snapshotIndex
      rw [hsnap]
      exact hsame
  | truncatePrefix index =>
    obtain ⟨hlow, hhigh⟩ : log.snapshotIndex < index ∧ index ≤ log.lastIndex := hop
    have hsnap : (log.compact index).snapshotIndex = index := compact_snapshotIndex hlow.le
    refine ⟨h.plain, h.contiguous, ?_, ?_⟩
    · show (log.compact index).snapshotIndex ≤ ref.lastIndex
      rw [hsnap, ← h.lastIndex_eq]
      exact hhigh
    · show log.compact index = ref.compact (log.compact index).snapshotIndex
      rw [hsnap]
      nth_rewrite 1 [h.eq]
      exact compact_compact hbase hlow.le

theorem runAll {ops : List Op} (hops : log.PermitsAll ops) :
    (ops.foldl Op.run log).CompactionOf (ops.foldl Op.runPlain ref) := by
  induction ops generalizing log ref with
  | nil => exact h
  | cons op ops ih => exact ih (h.run hops.1) hops.2

end
end CompactionOf

/-- A log that was compacted on the way answers, above its snapshot, what the log that was
never compacted answers. -/
theorem compacted_log_refines_plain {ops : List Op} (hops : Log.empty.PermitsAll ops) :
    let log := ops.foldl Op.run Log.empty
    let ref := ops.foldl Op.runPlain Log.empty
    log.Contiguous ∧ ref.snapshotIndex = 0 ∧ log.lastIndex = ref.lastIndex ∧
    log.lastTerm = ref.lastTerm ∧
    (∀ j, log.snapshotIndex < j → log.get j = ref.get j) ∧
    (∀ a b, log.slice a b =
      (ref.slice a b).filter (fun e => decide (log.snapshotIndex < e.index))) ∧
    (∀ j, log.snapshotIndex ≤ j → log.termAt j = ref.termAt j) ∧
    (∀ j, log.snapshotIndex ≤ j → log.configAt j = ref.configAt j) ∧
    ∀ c, log.snapshotIndex ≤ c → log.pendingConfigIndex c = ref.pendingConfigIndex c := by
  intro log ref
  have h : log.CompactionOf ref := CompactionOf.empty.runAll hops
  have hbase := h.base_le log.snapshotIndex
  have hcont := h.contiguous
  -- each accessor of `log` is that of `ref.compact log.snapshotIndex`
  refine ⟨?_, h.plain, h.lastIndex_eq, ?_, ?_, ?_, ?_, ?_, ?_⟩
  · rw [h.eq]
    exact hcont.compact hbase
  · rw [h.eq]
    exact compact_lastTerm hbase hcont h.within
  · intro j hj
    rw [h.eq]
    exact compact_get hbase hj
  · intro a b
    rw [slice_filter hcont, ← compact_slice hcont hbase, ← h.eq]
  · intro j hj
    rw [h.eq]
    exact compact_termAt hbase hj
  · intro j hj
    rw [h.eq]
    exact compact_configAt hbase hj
  · intro c hc
    rw [h.eq]
    exact compact_pendingConfigIndex hbase hcont hc

/-- Three entries, the second a configuration; two are compacted, the third is replaced. -/
def compactedOnTheWay : List Op :=
  [.append 1 (.command ⟨[1]⟩), .append 1 (.config (.ofVoters [0, 1])),
    .append 1 (.command ⟨[2]⟩), .truncatePrefix 2, .truncateAfter 2, .append 2 (.command ⟨[3]⟩)]

theorem compacted_log_refines_plain_onTheWay :
    let log := compactedOnTheWay.foldl Op.run Log.empty
    let ref := compactedOnTheWay.foldl Op.runPlain Log.empty
    log.snapshotIndex = 2 ∧ log.entries.length = 1 ∧ ref.entries.length = 3 ∧
      log.get 3 = ref.get 3 ∧ log.configAt 3 = ref.configAt 3 := by
  have hops : Log.empty.PermitsAll compactedOnTheWay := by decide
  obtain ⟨-, -, -, -, hget, -, -, hconfig, -⟩ := compacted_log_refines_plain hops
  exact ⟨by decide, by decide, by decide, hget 3 (by decide), hconfig 3 (by decide)⟩

end BasisDB.Raft.Log
