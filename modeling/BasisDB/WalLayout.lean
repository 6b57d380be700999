import BasisDB.Wal

/-! What the log's files look like: every segment is the encoding of some records, laid out
from offset zero. Scanning and streaming such files gives the records back, and a cut file
gives the records that are whole. -/
namespace BasisDB.Storage

open Frames

section Layout
variable (crc32 : List UInt8 → UInt32)

/-- Records that one segment can hold. -/
structure SegmentFits (segmentSize : ℕ) (rs : List Record) : Prop where
  payload_le : ∀ r ∈ rs, r.payload.length ≤ u32Max
  len_le : (bytes (recordBytes crc32) rs).length ≤ segmentSize

/-- The records of a segment with their positions. -/
def storedAt (segmentId : ℕ) (rs : List Record) : List StoredRecord :=
  (placed (recordBytes crc32) 0 rs).map (fun a => ⟨⟨segmentId, a.1⟩, a.2⟩)

/-- The records of consecutive segments with their positions. -/
def stored : ℕ → List (List Record) → List StoredRecord
  | _, [] => []
  | k, rs :: segs => storedAt crc32 k rs ++ stored (k + 1) segs

variable {crc32} {segmentId segmentSize : ℕ}

theorem recordBytes_ne_nil (r : Record) : recordBytes crc32 r ≠ [] := by
  rw [← List.length_pos_iff, length_recordBytes, headerLen]
  omega

/-- Scanning the first `n` bytes of a segment finds the end of its last whole record, and
calls the file clean exactly when nothing stands after it. -/
theorem scanFrom_cut (h64 : segmentSize ≤ u64Max) {rs : List Record} {offset n : ℕ}
    (hpayload : ∀ r ∈ rs, r.payload.length ≤ u32Max)
    (hsize : offset + (bytes (recordBytes crc32) rs).length ≤ segmentSize) :
    scanFrom crc32 segmentId segmentSize
        (offset + ((bytes (recordBytes crc32) rs).take n).length) offset
        ((bytes (recordBytes crc32) rs).take n) =
      .ok (if ((bytes (recordBytes crc32) rs).take n).length =
            (bytes (recordBytes crc32) (whole (recordBytes crc32) n rs)).length
        then .clean (offset + (bytes (recordBytes crc32) (whole (recordBytes crc32) n rs)).length)
        else .incompleteTail
          (offset + (bytes (recordBytes crc32) (whole (recordBytes crc32) n rs)).length)) := by
  induction rs generalizing offset n with
  | nil =>
    rw [bytes_nil, List.take_nil, scanFrom_eof readOne_nil]
    rfl
  | cons r rs ih =>
    have hr : r.payload.length ≤ u32Max := hpayload r List.mem_cons_self
    have hrest : ∀ q ∈ rs, q.payload.length ≤ u32Max := fun q hq =>
      hpayload q (List.mem_cons_of_mem _ hq)
    rw [bytes_cons, List.length_append] at hsize
    by_cases hwhole : (recordBytes crc32 r).length ≤ n
    · -- the first record is whole: the scan goes on behind it
      have hcut : (bytes (recordBytes crc32) (r :: rs)).take n = recordBytes crc32 r ++
          (bytes (recordBytes crc32) rs).take (n - (recordBytes crc32 r).length) := by
        rw [bytes_cons, List.take_append, List.take_of_length_le hwhole]
      have hfits : offset + (recordBytes crc32 r).length ≤ segmentSize := by omega
      have hphys : offset + (recordBytes crc32 r).length ≤ offset + ((recordBytes crc32 r).length +
          ((bytes (recordBytes crc32) rs).take (n - (recordBytes crc32 r).length)).length) := by
        omega
      have hread : readOne crc32 (recordBytes crc32 r ++
            (bytes (recordBytes crc32) rs).take (n - (recordBytes crc32 r).length))
          ⟨segmentId, offset⟩ segmentSize _ =
          .ok (.record r (offset + (recordBytes crc32 r).length), _) :=
        readOne_recordBytes hr h64 hfits hphys
      have hbehind : offset + (recordBytes crc32 r).length +
          (bytes (recordBytes crc32) rs).length ≤ segmentSize := by omega
      have hnext := ih (n := n - (recordBytes crc32 r).length) hrest hbehind
      rw [whole, if_pos hwhole, hcut, List.length_append, scanFrom_record hread, ← Nat.add_assoc,
        hnext, bytes_cons, List.length_append]
      simp only [Nat.add_left_cancel_iff, Nat.add_assoc]
    · have hlt : n < (recordBytes crc32 r).length := not_le.mp hwhole
      have hcut : (bytes (recordBytes crc32) (r :: rs)).take n = (recordBytes crc32 r).take n := by
        rw [bytes_cons, List.take_append_of_le_length hlt.le]
      have hlen : ((recordBytes crc32 r).take n).length = n := by
        rw [List.length_take, min_eq_left hlt.le]
      rw [whole, if_neg hwhole, hcut, hlen, bytes_nil, List.length_nil, Nat.add_zero]
      rcases Nat.eq_zero_or_pos n with rfl | hpos
      · rw [List.take_zero, scanFrom_eof readOne_nil, if_pos rfl]
      · have hfits : offset + (recordBytes crc32 r).length ≤ segmentSize := by omega
        obtain ⟨rest, hread⟩ : ∃ rest, readOne crc32 ((recordBytes crc32 r).take n)
            ⟨segmentId, offset⟩ segmentSize (offset + n) = .ok (.incomplete, rest) :=
          readOne_cut hr h64 hfits hpos hlt
        rw [scanFrom_incomplete hread, if_neg hpos.ne']

/-- Streaming a segment gives its records with their positions. -/
theorem drain_bytes (h64 : segmentSize ≤ u64Max) {rs : List Record} {offset : ℕ}
    (hpayload : ∀ r ∈ rs, r.payload.length ≤ u32Max)
    (hsize : offset + (bytes (recordBytes crc32) rs).length ≤ segmentSize) :
    SegmentReader.drain crc32 ⟨segmentId, segmentSize,
        offset + (bytes (recordBytes crc32) rs).length, offset, bytes (recordBytes crc32) rs⟩ =
      ((placed (recordBytes crc32) offset rs).map (fun a => ⟨⟨segmentId, a.1⟩, a.2⟩), none) := by
  induction rs generalizing offset with
  | nil =>
    apply SegmentReader.drain_none
    simp only [SegmentReader.nextRecord, bytes_nil, readOne_nil]
    rfl
  | cons r rs ih =>
    have hr : r.payload.length ≤ u32Max := hpayload r List.mem_cons_self
    have hrest : ∀ q ∈ rs, q.payload.length ≤ u32Max := fun q hq =>
      hpayload q (List.mem_cons_of_mem _ hq)
    rw [bytes_cons, List.length_append] at hsize ⊢
    have hfits : offset + (recordBytes crc32 r).length ≤ segmentSize := by omega
    have hphys : offset + (recordBytes crc32 r).length ≤
        offset + ((recordBytes crc32 r).length + (bytes (recordBytes crc32) rs).length) := by omega
    have hread : readOne crc32 (recordBytes crc32 r ++ bytes (recordBytes crc32) rs)
        ⟨segmentId, offset⟩ segmentSize _ =
        .ok (.record r (offset + (recordBytes crc32 r).length), _) :=
      readOne_recordBytes hr h64 hfits hphys
    have hbehind : offset + (recordBytes crc32 r).length +
        (bytes (recordBytes crc32) rs).length ≤ segmentSize := by omega
    have hnext := ih hrest hbehind
    rw [Nat.add_assoc] at hnext
    have hstep : SegmentReader.nextRecord crc32 ⟨segmentId, segmentSize,
        offset + ((recordBytes crc32 r).length + (bytes (recordBytes crc32) rs).length), offset,
        recordBytes crc32 r ++ bytes (recordBytes crc32) rs⟩ =
        .ok (some ⟨⟨segmentId, offset⟩, r⟩, ⟨segmentId, segmentSize,
          offset + ((recordBytes crc32 r).length + (bytes (recordBytes crc32) rs).length),
          offset + (recordBytes crc32 r).length, bytes (recordBytes crc32) rs⟩) := by
      simp only [SegmentReader.nextRecord, hread]
    rw [SegmentReader.drain_some hstep, hnext]
    rfl

end Layout

section Directory
variable {crc32 : List UInt8 → UInt32} {dir : Directory} {segmentSize : ℕ}

theorem checkIds_range' (k n : ℕ) : checkIds k (List.range' k n) = .ok () := by
  induction n generalizing k with
  | zero => rfl
  | succ n ih =>
    rw [List.range'_succ, checkIds, if_neg (by simp)]
    exact ih (k + 1)

theorem segmentIds_eq {files : List (List UInt8)} (h : dir.IsNumbered files) :
    segmentIds dir = .ok (List.range' 0 files.length) := by
  unfold segmentIds
  rw [h, OrdMap.keys_numbered]
  simp only [checkIds_range', bind, Except.bind]

theorem openSegment_of_get {k : ℕ} {file : List UInt8} (h : dir.get k = some file) :
    openSegment dir k = dir := by
  rw [openSegment, OrdMap.orInsert, h]
  rfl

/-- The segment after the last one is created empty. -/
theorem openSegment_new {files : List (List UInt8)} (h : dir.IsNumbered files) {k : ℕ}
    (hk : k = files.length) : (openSegment dir k).IsNumbered (files ++ [[]]) := by
  have hnone : dir.get k = none := by
    rw [h.get, hk]
    exact List.getElem?_eq_none le_rfl
  have hinsert := h.insert hk.le ([] : List UInt8)
  rw [if_pos hk] at hinsert
  rw [openSegment, OrdMap.orInsert, hnone]
  exact hinsert

theorem addLens_eq {files : List (List UInt8)} {k total : ℕ}
    (hget : ∀ i, dir.get (k + i) = files[i]?)
    (hmax : total + (files.map List.length).sum ≤ u64Max) :
    addLens dir total (List.range' k files.length) = .ok (total + (files.map List.length).sum) := by
  induction files generalizing k total with
  | nil => rfl
  | cons file files ih =>
    have hfile : dir.get k = some file := hget 0
    have hrest : ∀ i, dir.get (k + 1 + i) = files[i]? := OrdMap.get_from_succ hget
    rw [List.map_cons, List.sum_cons] at hmax ⊢
    have hsum : checkedAdd total file.length = some (total + file.length) :=
      checkedAdd_of_le (by omega)
    rw [List.length_cons, List.range'_succ, addLens]
    simp only [segmentLen, hfile, hsum, okOr, bind, Except.bind]
    rw [ih hrest (by omega), Nat.add_assoc]

theorem totalLen_eq {files : List (List UInt8)} (h : dir.IsNumbered files)
    (hmax : (files.map List.length).sum ≤ u64Max) :
    totalLen dir = .ok (files.map List.length).sum := by
  unfold totalLen
  simp only [segmentIds_eq h, bind, Except.bind]
  rw [addLens_eq h.get_from_zero (by omega), Nat.zero_add]

/-- Streaming consecutive segments gives their records one segment after another. -/
theorem drainSegments_eq (h64 : segmentSize ≤ u64Max) {segs : List (List Record)} {k : ℕ}
    (hget : ∀ i, dir.get (k + i) = (segs.map (bytes (recordBytes crc32)))[i]?)
    (hfits : ∀ rs ∈ segs, SegmentFits crc32 segmentSize rs) :
    Wal.drainSegments crc32 dir segmentSize (List.range' k segs.length) =
      (stored crc32 k segs, none) := by
  induction segs generalizing k with
  | nil => rfl
  | cons rs segs ih =>
    have hfile : dir.get k = some (bytes (recordBytes crc32) rs) := hget 0
    have hrest : ∀ i, dir.get (k + 1 + i) = (segs.map (bytes (recordBytes crc32)))[i]? :=
      OrdMap.get_from_succ hget
    have hrs : SegmentFits crc32 segmentSize rs := hfits rs List.mem_cons_self
    have hsize : 0 + (bytes (recordBytes crc32) rs).length ≤ segmentSize := by
      rw [Nat.zero_add]
      exact hrs.len_le
    have hdrain : SegmentReader.drain crc32 ⟨k, segmentSize, _, 0, _⟩ = _ :=
      drain_bytes h64 hrs.payload_le hsize
    rw [Nat.zero_add] at hdrain
    have hmore := ih hrest (fun qs hqs => hfits qs (List.mem_cons_of_mem _ hqs))
    rw [List.length_cons, List.range'_succ, Wal.drainSegments, SegmentReader.openFile, hfile]
    simp only [hdrain, hmore]
    rfl

/-- A healthy log streams its segments in order. -/
theorem Wal.records_eq {wal : Wal} {files : List (List UInt8)} (hhealthy : wal.poisoned = false)
    (hfiles : wal.dir.IsNumbered files) :
    wal.records crc32 = .ok (Wal.drainSegments crc32 wal.dir wal.options.segmentSize.toNat
      (List.range' 0 files.length)) := by
  simp only [Wal.records, Wal.ensureHealthy, hhealthy, Bool.false_eq_true, if_false,
    segmentIds_eq hfiles, bind, Except.bind]

theorem validLen_cut (h64 : segmentSize ≤ u64Max) {rs : List Record} {k n : ℕ}
    (hfile : dir.get k = some ((bytes (recordBytes crc32) rs).take n))
    (hfits : SegmentFits crc32 segmentSize rs) :
    validLen crc32 dir k segmentSize =
      .ok (if ((bytes (recordBytes crc32) rs).take n).length =
            (bytes (recordBytes crc32) (whole (recordBytes crc32) n rs)).length
        then .clean (bytes (recordBytes crc32) (whole (recordBytes crc32) n rs)).length
        else .incompleteTail
          (bytes (recordBytes crc32) (whole (recordBytes crc32) n rs)).length) := by
  have hsize : 0 + (bytes (recordBytes crc32) rs).length ≤ segmentSize := by
    rw [Nat.zero_add]
    exact hfits.len_le
  have hscan : scanFrom crc32 k segmentSize _ 0 ((bytes (recordBytes crc32) rs).take n) = _ :=
    scanFrom_cut h64 hfits.payload_le hsize
  simp only [Nat.zero_add] at hscan
  rw [validLen, hfile]
  exact hscan

theorem validLen_whole (h64 : segmentSize ≤ u64Max) {rs : List Record} {k : ℕ}
    (hfile : dir.get k = some (bytes (recordBytes crc32) rs))
    (hfits : SegmentFits crc32 segmentSize rs) :
    validLen crc32 dir k segmentSize = .ok (.clean (bytes (recordBytes crc32) rs).length) := by
  have hfull := validLen_cut (n := (bytes (recordBytes crc32) rs).length) h64
    (by rw [List.take_length]; exact hfile) hfits
  rw [hfull, whole_of_le _ le_rfl, List.take_length, if_pos rfl]

/-- Recovery walks over the full segments and cuts the last one back to its whole records. -/
theorem recoverFrom_cut (h64 : segmentSize ≤ u64Max) {older : List (List Record)}
    {active : List Record} {k n : ℕ}
    (hget : ∀ i, dir.get (k + i) = (older.map (bytes (recordBytes crc32)) ++
      [(bytes (recordBytes crc32) active).take n])[i]?)
    (holder : ∀ rs ∈ older, SegmentFits crc32 segmentSize rs)
    (hactive : SegmentFits crc32 segmentSize active) :
    ∃ dir', recoverFrom crc32 dir segmentSize (List.range' k (older.length + 1)) =
        .ok (dir', k + older.length,
          (bytes (recordBytes crc32) (whole (recordBytes crc32) n active)).length) ∧
      (dir' = dir ∧ (bytes (recordBytes crc32) active).take n =
          bytes (recordBytes crc32) (whole (recordBytes crc32) n active) ∨
        dir' = dir.insert (k + older.length)
          (bytes (recordBytes crc32) (whole (recordBytes crc32) n active))) := by
  induction older generalizing k with
  | nil =>
    have hfile : dir.get k = some ((bytes (recordBytes crc32) active).take n) := hget 0
    have hwhole := take_bytes_whole (recordBytes crc32) n active
    rw [List.length_nil, Nat.zero_add, List.range'_one, recoverFrom]
    simp only [validLen_cut h64 hfile hactive, bind, Except.bind, Nat.add_zero]
    by_cases hclean : ((bytes (recordBytes crc32) active).take n).length =
        (bytes (recordBytes crc32) (whole (recordBytes crc32) n active)).length
    · rw [if_pos hclean]
      refine ⟨dir, rfl, Or.inl ⟨rfl, ?_⟩⟩
      rwa [← hclean, List.take_length] at hwhole
    · rw [if_neg hclean]
      refine ⟨_, ?_, Or.inr rfl⟩
      simp only [ne_eq, not_true_eq_false, if_false, truncateSegment, hfile, hwhole]
  | cons rs older ih =>
    have hfile : dir.get k = some (bytes (recordBytes crc32) rs) := hget 0
    have hrest : ∀ i, dir.get (k + 1 + i) = (older.map (bytes (recordBytes crc32)) ++
        [(bytes (recordBytes crc32) active).take n])[i]? := OrdMap.get_from_succ hget
    obtain ⟨dir', hrecover, hdir'⟩ :=
      ih hrest (fun qs hqs => holder qs (List.mem_cons_of_mem _ hqs))
    have hidx : k + 1 + older.length = k + (older.length + 1) := by omega
    rw [hidx] at hrecover hdir'
    refine ⟨dir', ?_, hdir'⟩
    rw [List.length_cons, List.range'_succ, recoverFrom]
    simp only [validLen_whole h64 hfile (holder rs List.mem_cons_self), bind, Except.bind]
    rw [if_neg (by simp [List.range'_succ]), hrecover]

end Directory
end BasisDB.Storage
