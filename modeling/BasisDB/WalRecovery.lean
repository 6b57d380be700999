import BasisDB.WalAccounts

/-! Crash recovery of the log: an open log holds the records appended to it, and opening
its directory after a cut of the last segment gives those whose bytes are all there. -/
namespace BasisDB.Storage

open Frames

namespace Wal
variable {crc32 : List UInt8 → UInt32} {wal wal' : Wal} {disk : Disk} {kind : RecordKind}
  {payload : List UInt8} {lsn : Lsn}

/-- An open log that holds these records, segment by segment. -/
structure Holds (crc32 : List UInt8 → UInt32) (wal : Wal) (older : List (List Record))
    (active : List Record) : Prop where
  files : wal.dir.IsNumbered ((older ++ [active]).map (bytes (recordBytes crc32)))
  fits : ∀ rs ∈ older ++ [active], SegmentFits crc32 wal.options.segmentSize.toNat rs
  activeId : wal.activeId = older.length
  activeLen : wal.activeLen = (bytes (recordBytes crc32) active).length
  totalLen : wal.totalLen =
    (((older ++ [active]).map (bytes (recordBytes crc32))).map List.length).sum
  total_le : wal.totalLen ≤ wal.options.maxSize.toNat
  healthy : wal.poisoned = false

variable {older : List (List Record)} {active : List Record}

theorem Holds.records (h : wal.Holds crc32 older active) :
    wal.records crc32 = .ok (stored crc32 0 (older ++ [active]), none) := by
  rw [records_eq h.healthy h.files, List.length_map,
    drainSegments_eq (uint64_le_u64Max _) h.files.get_from_zero h.fits]

theorem Holds.get_active (h : wal.Holds crc32 older active) :
    wal.dir.get wal.activeId = some (bytes (recordBytes crc32) active) := by
  rw [h.files.get, h.activeId, List.map_append, List.getElem?_append_right (by simp)]
  simp

theorem Holds.accounts (h : wal.Holds crc32 older active) :
    wal.Accounts (older.map (bytes (recordBytes crc32))) (bytes (recordBytes crc32) active) [] := by
  have hmap : (older ++ [active]).map (bytes (recordBytes crc32)) =
      older.map (bytes (recordBytes crc32)) ++ [bytes (recordBytes crc32) active] :=
    List.map_append
  refine ⟨?_, Or.inl rfl, ?_, h.activeLen, ?_, ?_, h.total_le, h.healthy⟩
  · rw [← hmap]
    exact h.files
  · rw [h.activeId, List.length_map]
  · rw [← hmap]
    exact h.totalLen
  · intro f hf
    rw [← hmap] at hf
    obtain ⟨rs, hrs, rfl⟩ := List.mem_map.mp hf
    exact (h.fits rs hrs).len_le

/-- A log with the right counters holds the records whose bytes its files are. -/
theorem Accounts.holds
    (h : wal.Accounts (older.map (bytes (recordBytes crc32))) (bytes (recordBytes crc32) active) [])
    (hpayload : ∀ rs ∈ older ++ [active], ∀ r ∈ rs, r.payload.length ≤ u32Max) :
    wal.Holds crc32 older active := by
  have hmap : (older ++ [active]).map (bytes (recordBytes crc32)) =
      older.map (bytes (recordBytes crc32)) ++ [bytes (recordBytes crc32) active] :=
    List.map_append
  refine ⟨?_, ?_, ?_, h.activeLen, ?_, h.total_le, h.healthy⟩
  · rw [hmap]
    exact h.files
  · intro rs hrs
    refine ⟨hpayload rs hrs, h.segment_le _ ?_⟩
    rw [← hmap]
    exact List.mem_map_of_mem hrs
  · rw [h.activeId, List.length_map]
  · rw [hmap]
    exact h.totalLen

/-- The next segment starts empty. -/
theorem Holds.nextSegment (h : wal.Holds crc32 older active) :
    wal.nextSegment.Holds crc32 (older ++ [active]) [] := by
  have hnext := h.accounts.nextSegment
  apply Accounts.holds
  · rw [List.map_append]
    exact hnext
  · intro rs hrs r hr
    rcases List.mem_append.mp hrs with hrs | hrs
    · exact (h.fits rs hrs).payload_le r hr
    · rw [List.mem_singleton.mp hrs] at hr
      cases hr

/-- A record that fits goes to the end of the active segment. -/
theorem Holds.push (h : wal.Holds crc32 older active) {record : Record}
    (hlen : record.payload.length ≤ u32Max)
    (hfits : wal.activeLen + (recordBytes crc32 record).length ≤ wal.options.segmentSize.toNat)
    (htotal : wal.totalLen + (recordBytes crc32 record).length ≤ wal.options.maxSize.toNat) :
    (wal.push crc32 record).Holds crc32 older (active ++ [record]) := by
  have hbytes : bytes (recordBytes crc32) (active ++ [record]) =
      bytes (recordBytes crc32) active ++ recordBytes crc32 record := by
    rw [bytes_append, bytes_cons, bytes_nil, List.append_nil]
  apply Accounts.holds
  · rw [hbytes]
    exact h.accounts.push hfits htotal
  · intro rs hrs r hr
    rcases List.mem_append.mp hrs with hrs | hrs
    · exact (h.fits rs (List.mem_append_left _ hrs)).payload_le r hr
    · rw [List.mem_singleton.mp hrs] at hr
      rcases List.mem_append.mp hr with hr | hr
      · exact (h.fits active (List.mem_append_right _ List.mem_cons_self)).payload_le r hr
      · rw [List.mem_singleton.mp hr]
        exact hlen

theorem stored_append_cons (k : ℕ) (segs : List (List Record)) (rs : List Record)
    (later : List (List Record)) :
    stored crc32 k (segs ++ rs :: later) = stored crc32 k segs ++
      (storedAt crc32 (k + segs.length) rs ++ stored crc32 (k + segs.length + 1) later) := by
  induction segs generalizing k with
  | nil => rfl
  | cons qs segs ih =>
    have hidx : k + 1 + segs.length = k + (segs.length + 1) := by omega
    rw [List.cons_append, stored, ih, stored, List.append_assoc, List.length_cons, hidx]

theorem stored_append (k : ℕ) (segs : List (List Record)) (rs : List Record) :
    stored crc32 k (segs ++ [rs]) = stored crc32 k segs ++ storedAt crc32 (k + segs.length) rs := by
  rw [stored_append_cons, stored, List.append_nil]

theorem storedAt_push (k : ℕ) (rs : List Record) (r : Record) :
    storedAt crc32 k (rs ++ [r]) =
      storedAt crc32 k rs ++ [⟨⟨k, (bytes (recordBytes crc32) rs).length⟩, r⟩] := by
  unfold storedAt
  rw [placed_append, List.map_append, Nat.zero_add]
  rfl

/-- A successful append adds its record, at the position it returns, to the records held. -/
theorem Holds.append (h : wal.Holds crc32 older active)
    (happend : wal.append crc32 disk kind payload = (wal', .ok lsn)) :
    ∃ older' active', wal'.Holds crc32 older' active' ∧ wal'.options = wal.options ∧
      stored crc32 0 (older' ++ [active']) =
        stored crc32 0 (older ++ [active]) ++ [⟨lsn, ⟨kind, payload⟩⟩] := by
  obtain ⟨hwithin, base, hbase, rfl, rfl⟩ := append_ok h.healthy h.accounts.activeLen_le happend
  have hbytes : (recordBytes crc32 ⟨kind, payload⟩).length = headerLen + payload.length :=
    length_recordBytes ⟨kind, payload⟩
  have htotal : wal.totalLen + (recordBytes crc32 ⟨kind, payload⟩).length ≤
      wal.options.maxSize.toNat := hbytes ▸ hwithin.total_le
  rcases hbase with ⟨rfl, hroom⟩ | ⟨rfl, -⟩
  · have hfits := hwithin.fits hroom
    rw [← hbytes] at hfits
    refine ⟨older, active ++ [⟨kind, payload⟩], h.push hwithin.payload_le hfits htotal, rfl, ?_⟩
    rw [stored_append, storedAt_push, stored_append, List.append_assoc, Nat.zero_add, h.activeId,
      h.activeLen]
  · have hnext := h.nextSegment
    have hfits : wal.nextSegment.activeLen + (recordBytes crc32 ⟨kind, payload⟩).length ≤
        wal.options.segmentSize.toNat := by
      show 0 + _ ≤ _
      rw [Nat.zero_add, hbytes]
      exact hwithin.record_le
    refine ⟨older ++ [active], [⟨kind, payload⟩], hnext.push hwithin.payload_le hfits htotal, rfl,
      ?_⟩
    rw [stored_append, hnext.activeId, Nat.zero_add]
    rfl

/-- Opening a directory whose last segment was cut gives a log with the whole records. -/
theorem openDir_cut {options : WalOptions} {dir : Directory} {n : ℕ}
    (hvalid : validateOptions options = .ok ())
    (hfiles : dir.IsNumbered (older.map (bytes (recordBytes crc32)) ++
      [(bytes (recordBytes crc32) active).take n]))
    (hfits : ∀ rs ∈ older ++ [active], SegmentFits crc32 options.segmentSize.toNat rs)
    (htotal : (((older ++ [active]).map (bytes (recordBytes crc32))).map List.length).sum ≤
      options.maxSize.toNat) :
    ∃ wal, openDir crc32 dir options = .ok wal ∧ wal.options = options ∧
      wal.Holds crc32 older (whole (recordBytes crc32) n active) := by
  have holder : ∀ rs ∈ older, SegmentFits crc32 options.segmentSize.toNat rs := fun rs hrs =>
    hfits rs (List.mem_append_left _ hrs)
  have hactive : SegmentFits crc32 options.segmentSize.toNat active :=
    hfits active (List.mem_append_right _ List.mem_cons_self)
  obtain ⟨dir', hrecover, hdir'⟩ :=
    recoverFrom_cut (uint64_le_u64Max _) hfiles.get_from_zero holder hactive
  rw [Nat.zero_add] at hrecover hdir'
  -- whether the tail was cut or the file was clean, the whole records are what is left
  have hfiles' : dir'.IsNumbered ((older ++ [whole (recordBytes crc32) n active]).map
      (bytes (recordBytes crc32))) := by
    rw [List.map_append, List.map_singleton]
    rcases hdir' with ⟨rfl, hsame⟩ | rfl
    · rwa [← hsame]
    · have hins := hfiles.insert (i := older.length) (by simp)
        (bytes (recordBytes crc32) (whole (recordBytes crc32) n active))
      rw [if_neg (by simp), List.set_append_right _ _ (by simp)] at hins
      simpa using hins
  obtain ⟨rest, hrest⟩ := whole_isPrefix (recordBytes crc32) n active
  have hbytes : bytes (recordBytes crc32) active =
      bytes (recordBytes crc32) (whole (recordBytes crc32) n active) ++
        bytes (recordBytes crc32) rest := by
    rw [← bytes_append, hrest]
  have hlen : (bytes (recordBytes crc32) (whole (recordBytes crc32) n active)).length ≤
      (bytes (recordBytes crc32) active).length := by
    rw [hbytes, List.length_append]
    omega
  have hsum : (((older ++ [whole (recordBytes crc32) n active]).map
      (bytes (recordBytes crc32))).map List.length).sum ≤ options.maxSize.toNat := by
    refine le_trans ?_ htotal
    simp only [List.map_append, List.map_cons, List.map_nil, List.sum_append, List.sum_cons,
      List.sum_nil]
    omega
  have hids : segmentIds dir = .ok (List.range' 0 (older.length + 1)) := by
    rw [segmentIds_eq hfiles]
    simp
  have hne : List.range' 0 (older.length + 1) ≠ [] := by simp
  have hget' : dir'.get older.length =
      some (bytes (recordBytes crc32) (whole (recordBytes crc32) n active)) := by
    rw [hfiles'.get, List.map_append, List.getElem?_append_right (by simp)]
    simp
  have hopen : openSegment dir' older.length = dir' := openSegment_of_get hget'
  refine ⟨⟨dir', options, older.length,
    (bytes (recordBytes crc32) (whole (recordBytes crc32) n active)).length,
    (((older ++ [whole (recordBytes crc32) n active]).map
      (bytes (recordBytes crc32))).map List.length).sum, false⟩, ?_, rfl,
    hfiles', ?_, rfl, rfl, rfl, hsum, rfl⟩
  · unfold openDir recover
    simp only [hvalid, hids, if_neg hne, hrecover, bind, Except.bind,
      totalLen_eq hfiles' (hsum.trans (uint64_le_u64Max _)), if_neg (not_lt.mpr hsum), hopen]
  · intro rs hrs
    rcases List.mem_append.mp hrs with hrs | hrs
    · exact holder rs hrs
    · rw [List.mem_singleton.mp hrs]
      refine ⟨fun r hr => hactive.payload_le r ?_, hlen.trans hactive.len_le⟩
      exact (whole_isPrefix _ n active).subset hr

end Wal

/-- The id of the last segment file. -/
def lastSegment (dir : Directory) : ℕ := (dir.toList.map Prod.fst).getLast?.getD 0

/-- A crash that leaves only the first `cut` bytes of the last segment file. -/
def cutLast (dir : Directory) (cut : ℕ) : Directory :=
  match dir.get (lastSegment dir) with
  | some file => dir.insert (lastSegment dir) (file.take cut)
  | none => dir

/-- The longest run of first records whose bytes are all left by such a crash. -/
def survivors (crc32 : List UInt8 → UInt32) (dir : Directory) (cut : ℕ)
    (expected : List StoredRecord) : List StoredRecord :=
  expected.takeWhile (fun s => decide (s.lsn.segmentId < lastSegment dir ∨
    s.lsn.offset + (recordBytes crc32 s.record).length ≤ cut))

/-- What is left of a log that ends with the first `cut` bytes of one of its segment files. -/
def keep (dir : Directory) (segment cut : ℕ) : Directory := cutLast (dir.upTo segment) cut

/-- The longest run of first records whose bytes are all in it. -/
def kept (crc32 : List UInt8 → UInt32) (segment cut : ℕ) (expected : List StoredRecord) :
    List StoredRecord :=
  expected.takeWhile (fun s => decide (s.lsn.segmentId < segment ∨ s.lsn.segmentId = segment ∧
    s.lsn.offset + (recordBytes crc32 s.record).length ≤ cut))

/-- Logs reached from an empty directory by successful appends and by crashes with reopening,
each with the records it should hold. -/
inductive Reaches (crc32 : List UInt8 → UInt32) (options : WalOptions) :
    Wal → List StoredRecord → Prop
  | created {wal : Wal} (h : Wal.openDir crc32 OrdMap.empty options = .ok wal) :
      Reaches crc32 options wal []
  | appended {wal wal' : Wal} {expected : List StoredRecord} {disk : Disk} {kind : RecordKind}
      {payload : List UInt8} {lsn : Lsn} (h : Reaches crc32 options wal expected)
      (happend : wal.append crc32 disk kind payload = (wal', .ok lsn)) :
      Reaches crc32 options wal' (expected ++ [⟨lsn, ⟨kind, payload⟩⟩])
  | reopened {wal wal' : Wal} {expected : List StoredRecord} {cut : ℕ}
      (h : Reaches crc32 options wal expected)
      (hopen : Wal.openDir crc32 (cutLast wal.dir cut) options = .ok wal') :
      Reaches crc32 options wal' (survivors crc32 wal.dir cut expected)

section Runs
variable {crc32 : List UInt8 → UInt32} {options : WalOptions} {wal : Wal}
  {older : List (List Record)} {active : List Record}

theorem lastSegment_numbered {dir : Directory} {files : List (List UInt8)} {file : List UInt8}
    (h : dir.IsNumbered (files ++ [file])) : lastSegment dir = files.length := by
  unfold lastSegment
  rw [h, OrdMap.keys_numbered]
  simp [List.range'_1_concat]

theorem Wal.Holds.lastSegment_eq (h : wal.Holds crc32 older active) :
    lastSegment wal.dir = older.length := by
  have hfiles := h.files
  rw [List.map_append, List.map_singleton] at hfiles
  rw [lastSegment_numbered hfiles, List.length_map]

theorem cutLast_numbered {dir : Directory} {files : List (List UInt8)} {file : List UInt8}
    (h : dir.IsNumbered (files ++ [file])) (cut : ℕ) :
    (cutLast dir cut).IsNumbered (files ++ [file.take cut]) := by
  have hget : dir.get files.length = some file := by
    rw [h.get]
    simp
  unfold cutLast
  rw [lastSegment_numbered h, hget]
  have hins := h.insert (i := files.length) (by simp) (file.take cut)
  rw [if_neg (by simp), List.set_append_right _ _ (by simp)] at hins
  simpa using hins

/-- The directory of an open log after a crash. -/
theorem Wal.Holds.cutLast (h : wal.Holds crc32 older active) (cut : ℕ) :
    (cutLast wal.dir cut).IsNumbered (older.map (bytes (recordBytes crc32)) ++
      [(bytes (recordBytes crc32) active).take cut]) := by
  have hfiles := h.files
  rw [List.map_append, List.map_singleton] at hfiles
  exact cutLast_numbered hfiles cut

theorem segmentId_of_mem_storedAt {k : ℕ} {rs : List Record} {s : StoredRecord}
    (h : s ∈ storedAt crc32 k rs) : s.lsn.segmentId = k := by
  obtain ⟨a, -, rfl⟩ := List.mem_map.mp h
  rfl

theorem segmentId_of_mem_stored {k : ℕ} {segs : List (List Record)} {s : StoredRecord}
    (h : s ∈ stored crc32 k segs) :
    k ≤ s.lsn.segmentId ∧ s.lsn.segmentId < k + segs.length := by
  induction segs generalizing k with
  | nil => cases h
  | cons rs segs ih =>
    rw [List.length_cons]
    rcases List.mem_append.mp h with hmem | hmem
    · have hid := segmentId_of_mem_storedAt hmem
      omega
    · have hid := ih hmem
      omega

/-- The positions of the records held are strictly increasing. -/
theorem stored_increasing (k : ℕ) (segs : List (List Record)) :
    (stored crc32 k segs).Pairwise (fun a b => a.lsn < b.lsn) := by
  induction segs generalizing k with
  | nil => exact List.Pairwise.nil
  | cons rs segs ih =>
    refine List.pairwise_append.mpr ⟨?_, ih _, ?_⟩
    · unfold storedAt
      rw [List.pairwise_map]
      exact (placed_increasing _ recordBytes_ne_nil 0 rs).imp (fun h => Or.inr ⟨rfl, h⟩)
    · intro a ha b hb
      have hida := segmentId_of_mem_storedAt ha
      have hidb := (segmentId_of_mem_stored hb).1
      exact Or.inl (by omega)

/-- The whole records of the cut segment are the survivors. -/
theorem stored_whole (h : wal.Holds crc32 older active) (cut : ℕ) :
    stored crc32 0 (older ++ [whole (recordBytes crc32) cut active]) =
      survivors crc32 wal.dir cut (stored crc32 0 (older ++ [active])) := by
  unfold survivors
  rw [h.lastSegment_eq, Wal.stored_append, Wal.stored_append, Nat.zero_add]
  rw [List.takeWhile_append_of_pos]
  · congr 1
    unfold storedAt
    rw [placed_whole, List.takeWhile_map]
    congr 1
    congr 1
    funext a
    simp
  · intro s hs
    have hid := (segmentId_of_mem_stored hs).2
    simp only [decide_eq_true_eq]
    exact Or.inl (by omega)

/-- The records of a log that ends in one of its segments. -/
theorem stored_kept (earlier later : List (List Record)) (rs : List Record) (cut : ℕ) :
    stored crc32 0 (earlier ++ [whole (recordBytes crc32) cut rs]) =
      kept crc32 earlier.length cut (stored crc32 0 (earlier ++ rs :: later)) := by
  have hlater : ∀ s ∈ stored crc32 (earlier.length + 1) later, earlier.length < s.lsn.segmentId :=
    fun s hs => (segmentId_of_mem_stored hs).1
  have hactive : storedAt crc32 earlier.length (whole (recordBytes crc32) cut rs) =
      (storedAt crc32 earlier.length rs).takeWhile (fun s => decide
        (s.lsn.segmentId < earlier.length ∨ s.lsn.segmentId = earlier.length ∧
          s.lsn.offset + (recordBytes crc32 s.record).length ≤ cut)) := by
    unfold storedAt
    rw [placed_whole, List.takeWhile_map]
    congr 1
    congr 1
    funext a
    simp
  unfold kept
  rw [Wal.stored_append, Wal.stored_append_cons, Nat.zero_add, List.takeWhile_append_of_pos]
  · congr 1
    rw [hactive, List.takeWhile_append]
    split_ifs with hall
    · -- all of the segment is kept, and nothing behind it
      have hself := (List.takeWhile_prefix _).eq_of_length hall
      rw [hself, List.self_eq_append_right, List.takeWhile_eq_nil_iff]
      intro hpos
      have hlt := hlater _ (List.get_mem _ ⟨0, hpos⟩)
      simp only [decide_eq_true_eq]
      omega
    · rfl
  · intro s hs
    have hid := (segmentId_of_mem_stored hs).2
    simp only [decide_eq_true_eq]
    exact Or.inl (by omega)

/-- Any number of first records is left by a log that ends somewhere. -/
theorem exists_kept (start : ℕ) (segs : List (List Record)) (hne : segs ≠ []) {k : ℕ}
    (hk : k ≤ (stored crc32 start segs).length) :
    ∃ earlier rs later cut, segs = earlier ++ rs :: later ∧
      stored crc32 start (earlier ++ [whole (recordBytes crc32) cut rs]) =
        (stored crc32 start segs).take k := by
  induction segs generalizing start k with
  | nil => exact absurd rfl hne
  | cons rs segs ih =>
    have hlen : (storedAt crc32 start rs).length = rs.length :=
      (List.length_map _).trans (length_placed _ _ rs)
    rw [stored, List.length_append, hlen] at hk
    rcases Nat.lt_or_ge rs.length k with hlt | hge
    · -- the end is in a later segment
      have hsegs : segs ≠ [] := by
        rintro rfl
        rw [stored, List.length_nil] at hk
        omega
      obtain ⟨earlier, qs, later, cut, rfl, hstored⟩ := ih (start + 1) hsegs (k := k - rs.length)
        (by omega)
      refine ⟨rs :: earlier, qs, later, cut, rfl, ?_⟩
      rw [List.cons_append, stored, hstored, stored, List.take_append, hlen,
        List.take_of_length_le (hlen.le.trans hlt.le)]
    · refine ⟨[], rs, segs, (bytes (recordBytes crc32) (rs.take k)).length, rfl, ?_⟩
      rw [whole_take _ recordBytes_ne_nil, List.nil_append, stored, stored, stored,
        List.append_nil, List.take_append_of_le_length (hlen.symm ▸ hge), storedAt, placed_take,
        List.map_take]
      rfl

theorem Wal.Holds.reopen (h : wal.Holds crc32 older active)
    (hvalid : validateOptions wal.options = .ok ()) (cut : ℕ) :
    ∃ wal', openDir crc32 (Storage.cutLast wal.dir cut) wal.options = .ok wal' ∧
      wal'.options = wal.options ∧
      wal'.Holds crc32 older (whole (recordBytes crc32) cut active) :=
  openDir_cut hvalid (h.cutLast cut) h.fits (h.totalLen ▸ h.total_le)

/-- The directory of a log that ends in one of the segments. -/
theorem Wal.Holds.keep (h : wal.Holds crc32 older active) {earlier later : List (List Record)}
    {rs : List Record} (hsegs : older ++ [active] = earlier ++ rs :: later) (cut : ℕ) :
    (keep wal.dir earlier.length cut).IsNumbered (earlier.map (bytes (recordBytes crc32)) ++
      [(bytes (recordBytes crc32) rs).take cut]) := by
  have hfiles := h.files
  rw [hsegs, List.append_cons] at hfiles
  have hup := hfiles.upTo earlier.length
  rw [List.map_append, List.take_left' (by simp), List.map_append, List.map_singleton] at hup
  exact cutLast_numbered hup cut

/-- A log that ends where it ends is all of it. -/
theorem Wal.Holds.keep_all (h : wal.Holds crc32 older active) :
    Storage.keep wal.dir (lastSegment wal.dir) wal.activeLen = wal.dir := by
  have hkeep := h.keep rfl wal.activeLen
  rw [h.activeLen, List.take_length, ← List.map_singleton, ← List.map_append] at hkeep
  rw [h.lastSegment_eq, h.activeLen]
  exact OrdMap.ext (hkeep.trans h.files.symm)

theorem kept_all (h : wal.Holds crc32 older active) :
    kept crc32 (lastSegment wal.dir) wal.activeLen (stored crc32 0 (older ++ [active])) =
      stored crc32 0 (older ++ [active]) := by
  rw [h.lastSegment_eq, ← stored_kept, h.activeLen, whole_of_le _ le_rfl]

/-- Opening a log that ends in one of the segments. -/
theorem Wal.Holds.reopen_keep (h : wal.Holds crc32 older active)
    (hvalid : validateOptions wal.options = .ok ()) {earlier later : List (List Record)}
    {rs : List Record} (hsegs : older ++ [active] = earlier ++ rs :: later) (cut : ℕ) :
    ∃ wal', openDir crc32 (Storage.keep wal.dir earlier.length cut) wal.options = .ok wal' ∧
      wal'.options = wal.options ∧
      wal'.Holds crc32 earlier (whole (recordBytes crc32) cut rs) := by
  have hfits := h.fits
  have htotal := h.totalLen ▸ h.total_le
  rw [hsegs, List.append_cons] at hfits htotal
  refine openDir_cut hvalid (h.keep hsegs cut)
    (fun qs hqs => hfits qs (List.mem_append_left _ hqs)) ?_
  rw [List.map_append, List.map_append, List.sum_append] at htotal
  exact (Nat.le_add_right _ _).trans htotal

/-- The log in a directory that was empty. -/
def Wal.created (options : WalOptions) : Wal :=
  { dir := OrdMap.empty.insert 0 [], options := options, activeId := 0, activeLen := 0,
    totalLen := 0, poisoned := false }

theorem openDir_empty (hvalid : validateOptions options = .ok ()) :
    Wal.openDir crc32 OrdMap.empty options = .ok (Wal.created options) := by
  have hscan : validLen crc32 (OrdMap.empty.insert 0 []) 0 options.segmentSize.toNat =
      .ok (.clean 0) := scanFrom_eof readOne_nil
  have hrecover : recover crc32 OrdMap.empty options.segmentSize.toNat =
      recoverFrom crc32 (OrdMap.empty.insert 0 []) options.segmentSize.toNat [0] := rfl
  have hlen : totalLen (OrdMap.empty.insert 0 []) = .ok 0 := rfl
  have hmax : ¬ options.maxSize.toNat < 0 := Nat.not_lt_zero _
  unfold Wal.openDir
  rw [hrecover, recoverFrom]
  simp only [hvalid, hscan, hlen, if_neg hmax, if_true, bind, Except.bind]
  rfl

theorem created_holds : (Wal.created options).Holds crc32 [] [] := by
  refine ⟨rfl, ?_, rfl, rfl, rfl, Nat.zero_le _, rfl⟩
  intro rs hrs
  rw [List.mem_singleton.mp hrs]
  exact ⟨by simp, Nat.zero_le _⟩

/-- Every log reached holds the records it should. -/
theorem Reaches.holds (hvalid : validateOptions options = .ok ()) {expected : List StoredRecord}
    (h : Reaches crc32 options wal expected) :
    ∃ older active, wal.Holds crc32 older active ∧ wal.options = options ∧
      stored crc32 0 (older ++ [active]) = expected := by
  induction h with
  | created hopen =>
    obtain rfl := Except.ok.inj ((openDir_empty hvalid).symm.trans hopen)
    exact ⟨[], [], created_holds, rfl, rfl⟩
  | appended h happend ih =>
    obtain ⟨older, active, hholds, hoptions, rfl⟩ := ih
    obtain ⟨older', active', hholds', hoptions', hstored⟩ := hholds.append happend
    exact ⟨older', active', hholds', hoptions'.trans hoptions, hstored⟩
  | @reopened wal wal' expected cut h hopen ih =>
    obtain ⟨older, active, hholds, rfl, rfl⟩ := ih
    obtain ⟨wal'', hwal'', hoptions, hholds'⟩ := hholds.reopen hvalid cut
    obtain rfl := Except.ok.inj (hwal''.symm.trans hopen)
    exact ⟨older, _, hholds', hoptions, stored_whole hholds cut⟩

end Runs

/-- Crash recovery: whatever was appended before, and however often the log was cut and
reopened, the log streams exactly the records it should hold, in append order and at
increasing positions, and after a cut of its last segment it opens again with the records
whose bytes are all there. -/
theorem recovery_after_crash (crc32 : List UInt8 → UInt32) (options : WalOptions)
    (hvalid : validateOptions options = .ok ()) :
    (∃ wal, Wal.openDir crc32 OrdMap.empty options = .ok wal) ∧
    ∀ wal expected, Reaches crc32 options wal expected →
      wal.records crc32 = .ok (expected, none) ∧
      expected.Pairwise (fun a b => a.lsn < b.lsn) ∧
      ∀ cut, ∃ wal', Wal.openDir crc32 (cutLast wal.dir cut) options = .ok wal' ∧
        wal'.records crc32 = .ok (survivors crc32 wal.dir cut expected, none) := by
  refine ⟨⟨_, openDir_empty hvalid⟩, ?_⟩
  intro wal expected hreaches
  obtain ⟨older, active, hholds, rfl, rfl⟩ := hreaches.holds hvalid
  refine ⟨hholds.records, stored_increasing _ _, ?_⟩
  intro cut
  obtain ⟨wal', hwal', -, hholds'⟩ := hholds.reopen hvalid cut
  refine ⟨wal', hwal', ?_⟩
  rw [hholds'.records, stored_whole hholds cut]

/-- CRC-32 with the reflected polynomial, bit by bit. -/
def crc32Ieee (bytes : List UInt8) : UInt32 :=
  let shift (crc : UInt32) : UInt32 :=
    if crc &&& 1 = 1 then (crc >>> 1) ^^^ 0xEDB88320 else crc >>> 1
  let byte (crc : UInt32) (b : UInt8) : UInt32 := shift^[8] (crc ^^^ b.toUInt32)
  bytes.foldl byte 0xFFFFFFFF ^^^ 0xFFFFFFFF

/-- The checksum's standard check value, of the digits one to nine. -/
example : crc32Ieee [0x31, 0x32, 0x33, 0x34, 0x35, 0x36, 0x37, 0x38, 0x39] = 0xCBF43926 := by
  decide +kernel

/-- Segments that take two records of three bytes each. -/
def smallOptions : WalOptions := { segmentSize := 70, maxSize := 200, syncOnAppend := false }

def smallRecord : Record := ⟨⟨2, by decide⟩, [1, 2, 3]⟩

def smallLog (n : ℕ) : Wal :=
  (fun wal : Wal => (wal.append crc32Ieee {} smallRecord.kind smallRecord.payload).1)^[n]
    (Wal.created smallOptions)

/-- The third record is alone in its segment; a cut one byte before its end loses it. -/
theorem recovery_after_crash_smallLog :
    ∃ wal', Wal.openDir crc32Ieee (cutLast (smallLog 3).dir 34) smallOptions = .ok wal' ∧
      wal'.records crc32Ieee = .ok ([⟨⟨0, 0⟩, smallRecord⟩, ⟨⟨0, 35⟩, smallRecord⟩], none) := by
  have hvalid : validateOptions smallOptions = .ok () := by decide +kernel
  obtain ⟨-, hrecovery⟩ := recovery_after_crash crc32Ieee smallOptions hvalid
  have hstep (n : ℕ) (lsn : Lsn) (hlsn : ((smallLog n).append crc32Ieee {} smallRecord.kind
      smallRecord.payload).2 = .ok lsn) : (smallLog n).append crc32Ieee {} smallRecord.kind
      smallRecord.payload = (smallLog (n + 1), .ok lsn) := by
    unfold smallLog
    rw [Function.iterate_succ_apply']
    exact Prod.ext rfl hlsn
  have hreaches : Reaches crc32Ieee smallOptions (smallLog 3)
      [⟨⟨0, 0⟩, smallRecord⟩, ⟨⟨0, 35⟩, smallRecord⟩, ⟨⟨1, 0⟩, smallRecord⟩] :=
    .appended (.appended (.appended (.created (openDir_empty hvalid))
      (hstep 0 ⟨0, 0⟩ (by decide +kernel))) (hstep 1 ⟨0, 35⟩ (by decide +kernel)))
      (hstep 2 ⟨1, 0⟩ (by decide +kernel))
  obtain ⟨wal', hopen, hrecords⟩ := (hrecovery _ _ hreaches).2.2 34
  refine ⟨wal', hopen, ?_⟩
  have hsurvivors : survivors crc32Ieee (smallLog 3).dir 34
      [⟨⟨0, 0⟩, smallRecord⟩, ⟨⟨0, 35⟩, smallRecord⟩, ⟨⟨1, 0⟩, smallRecord⟩] =
      [⟨⟨0, 0⟩, smallRecord⟩, ⟨⟨0, 35⟩, smallRecord⟩] := by
    decide +kernel
  rw [hrecords, hsurvivors]

end BasisDB.Storage
