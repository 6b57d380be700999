import BasisDB.WalRecovery

/-! What a failed append leaves on disk: the records that were there, and at most some first bytes
of the record that was to be added. After a crash that keeps what was synced, the log opens with
those records, or with the new one as well. -/
namespace BasisDB.Storage
open Frames

variable {crc32 : List UInt8 → UInt32} {older : List (List Record)} {active tail : List Record}

namespace Wal
variable {wal wal' : Wal} {disk : Disk} {kind : RecordKind} {payload : List UInt8}
  {error : WalError}

theorem sync_dir (wal : Wal) (synced : Bool) : (wal.sync synced).1.dir = wal.dir := by
  unfold sync
  split
  · rfl
  · split_ifs <;> rfl

/-- A write that fails leaves some of the record's bytes at the end of the file, or none. -/
theorem appendActive_error {base : Wal} {nextTotal : ℕ} (hpayload : payload.length ≤ u32Max)
    (h : base.appendActive crc32 disk kind payload nextTotal = (wal', .error error)) :
    wal'.dir = base.dir ∨
      ∃ n, wal'.dir = (base.write ((recordBytes crc32 ⟨kind, payload⟩).take n)).dir := by
  unfold appendActive at h
  simp only [encodeRecord_eq hpayload] at h
  cases hadd : checkedAddLen base.activeLen (recordBytes crc32 ⟨kind, payload⟩).length with
  | error e =>
    simp only [hadd, Prod.mk.injEq] at h
    exact Or.inl (congrArg Wal.dir h.1.symm)
  | ok nextLen =>
    simp only [hadd] at h
    right
    cases hwrite : disk.writeFails with
    | some written =>
      simp only [hwrite, Prod.mk.injEq] at h
      refine ⟨written, ?_⟩
      rw [← h.1]
    | none =>
      -- the record was written whole, and could not be synced
      simp only [hwrite] at h
      refine ⟨(recordBytes crc32 ⟨kind, payload⟩).length, ?_⟩
      rw [List.take_length]
      split_ifs at h with hsync
      · have hdir := sync_dir { base.write (recordBytes crc32 ⟨kind, payload⟩) with
          activeLen := nextLen, totalLen := nextTotal } disk.syncAppend
        split at h
        · rename_i broken e heq
          rw [heq] at hdir
          obtain rfl : broken = wal' := congrArg Prod.fst h
          exact hdir
        · cases h
      · cases h

/-- The files after an append that failed: as they were, with an empty segment behind them, or
with some bytes of the record in the segment that was to take it. -/
theorem append_error (hhealthy : wal.poisoned = false) (hlen : wal.activeLen ≤ wal.totalLen)
    (h : wal.append crc32 disk kind payload = (wal', .error error)) :
    wal'.dir = wal.dir ∨ wal'.dir = wal.nextSegment.dir ∨
      ∃ base n, wal.WithinLimits payload ∧
        (base = wal ∧ ¬ wal.NeedsRotation payload ∨
          base = wal.nextSegment ∧ wal.NeedsRotation payload) ∧
        wal'.dir = (base.write ((recordBytes crc32 ⟨kind, payload⟩).take n)).dir := by
  classical
  by_cases hwithin : wal.WithinLimits payload
  swap
  · obtain ⟨e, hover⟩ := @append_over crc32 wal disk kind payload hhealthy hwithin
    rw [hover] at h
    exact Or.inl (congrArg (fun out => out.1.dir) h.symm)
  have hrotate : wal.rotateIfNeeded disk (headerLen + payload.length) =
      if wal.NeedsRotation payload then wal.rotate disk else (wal, .ok ()) :=
    rotateIfNeeded_within hwithin hlen
  -- the second half of the append, on the segment that has room
  have hwrite (base : Wal) (hready : wal.rotateIfNeeded disk (headerLen + payload.length) =
        (base, .ok ()))
      (hbase : base = wal ∧ ¬ wal.NeedsRotation payload ∨
        base = wal.nextSegment ∧ wal.NeedsRotation payload) :
      wal'.dir = base.dir ∨ ∃ n, wal'.dir =
        (base.write ((recordBytes crc32 ⟨kind, payload⟩).take n)).dir := by
    rw [(append_within hhealthy hwithin).2 hready] at h
    exact appendActive_error hwithin.payload_le h
  -- the first half, when it is the one that fails
  have hrefused {broken : Wal} {e : WalError}
      (hrotation : wal.rotateIfNeeded disk (headerLen + payload.length) = (broken, .error e)) :
      wal'.dir = broken.dir := by
    rw [(append_within hhealthy hwithin).1 _ hrotation] at h
    exact congrArg (fun out => out.1.dir) h.symm
  by_cases hneeds : wal.NeedsRotation payload
  swap
  · rw [if_neg hneeds] at hrotate
    have hbase : wal = wal ∧ ¬ wal.NeedsRotation payload ∨
        wal = wal.nextSegment ∧ wal.NeedsRotation payload := Or.inl ⟨rfl, hneeds⟩
    rcases hwrite wal hrotate hbase with hdir | ⟨n, hdir⟩
    · exact Or.inl hdir
    · exact Or.inr (Or.inr ⟨wal, n, hwithin, hbase, hdir⟩)
  rw [if_pos hneeds, rotate, sync_eq hhealthy] at hrotate
  cases hsync : disk.syncActive with
  | false =>
    simp only [hsync, Bool.false_eq_true, if_false] at hrotate
    have hdir := hrefused hrotate
    exact Or.inl hdir
  | true =>
    simp only [hsync, if_true] at hrotate
    cases hnext : checkedAdd wal.activeId 1 with
    | none =>
      simp only [hnext] at hrotate
      exact Or.inl (hrefused hrotate)
    | some activeId =>
      obtain ⟨rfl, -⟩ := checkedAdd_some hnext
      simp only [hnext] at hrotate
      cases hcreate : disk.createSegment with
      | false =>
        simp only [hcreate, Bool.false_eq_true, if_false] at hrotate
        exact Or.inl (hrefused hrotate)
      | true =>
        cases hdir : disk.syncDir with
        | false =>
          -- the new segment is there, but the directory may not know it yet
          simp only [hcreate, hdir, Bool.false_eq_true, if_false, if_true] at hrotate
          have hnew := hrefused hrotate
          exact Or.inr (Or.inl hnew)
        | true =>
          simp only [hcreate, hdir, if_true] at hrotate
          have hbase : wal.nextSegment = wal ∧ ¬ wal.NeedsRotation payload ∨
              wal.nextSegment = wal.nextSegment ∧ wal.NeedsRotation payload :=
            Or.inr ⟨rfl, hneeds⟩
          rcases hwrite wal.nextSegment hrotate hbase with hdir | ⟨n, hdir⟩
          · exact Or.inr (Or.inl hdir)
          · exact Or.inr (Or.inr ⟨wal.nextSegment, n, hwithin, hbase, hdir⟩)

end Wal

/-- A directory with these segments, in the last of which bytes of `tail` may follow. -/
structure Remains (crc32 : List UInt8 → UInt32) (options : WalOptions) (dir : Directory)
    (older : List (List Record)) (active tail : List Record) (len : ℕ) : Prop where
  files : dir.IsNumbered (older.map (bytes (recordBytes crc32)) ++
    [(bytes (recordBytes crc32) (active ++ tail)).take len])
  kept : (bytes (recordBytes crc32) active).length ≤ len
  fits : ∀ rs ∈ older ++ [active ++ tail], SegmentFits crc32 options.segmentSize.toNat rs
  total_le : (((older ++ [active ++ tail]).map (bytes (recordBytes crc32))).map List.length).sum ≤
    options.maxSize.toNat

/-- An open log holds its records and nothing else. -/
theorem Wal.Holds.remains {wal : Wal} (h : wal.Holds crc32 older active) :
    Remains crc32 wal.options wal.dir older active []
      (bytes (recordBytes crc32) active).length := by
  have hactive : active ++ [] = active := List.append_nil active
  refine ⟨?_, le_rfl, ?_, ?_⟩
  · rw [hactive, List.take_length]
    have hfiles := h.files
    rwa [List.map_append] at hfiles
  · rw [hactive]
    exact h.fits
  · rw [hactive, ← h.totalLen]
    exact h.total_le

namespace Remains
variable {options : WalOptions} {dir : Directory} {len : ℕ}

theorem lastSegment_eq (h : Remains crc32 options dir older active tail len) :
    lastSegment dir = older.length := by
  rw [lastSegment_numbered h.files, List.length_map]

/-- A cut behind the records leaves them as they are. -/
theorem cut (h : Remains crc32 options dir older active tail len) {cut : ℕ}
    (hcut : (bytes (recordBytes crc32) active).length ≤ cut) :
    Remains crc32 options (cutLast dir cut) older active tail (min cut len) := by
  refine ⟨?_, le_min hcut h.kept, h.fits, h.total_le⟩
  have hfiles := cutLast_numbered h.files cut
  rwa [List.take_take] at hfiles

/-- Such a directory opens with the records, and with those of the tail that are there whole. -/
theorem openDir (h : Remains crc32 options dir older active tail len)
    (hvalid : validateOptions options = .ok ()) :
    ∃ wal, Wal.openDir crc32 dir options = .ok wal ∧ wal.options = options ∧
      wal.Holds crc32 older (active ++ whole (recordBytes crc32)
        (len - (bytes (recordBytes crc32) active).length) tail) := by
  obtain ⟨wal, hopen, hoptions, hholds⟩ := Wal.openDir_cut hvalid h.files h.fits h.total_le
  rw [whole_append _ h.kept] at hholds
  exact ⟨wal, hopen, hoptions, hholds⟩

end Remains

namespace Wal
variable {wal wal' : Wal} {disk : Disk} {kind : RecordKind} {payload : List UInt8}
  {result : Except WalError Lsn}

/-- The segments of a log stay as they are, or the log goes on to its next segment. -/
def Continues (older : List (List Record)) (active : List Record) (older' : List (List Record))
    (active' : List Record) : Prop :=
  older' = older ∧ active' = active ∨ older' = older ++ [active] ∧ active' = []

theorem stored_continues {older' : List (List Record)} {active' : List Record}
    (h : Continues older active older' active') :
    stored crc32 0 (older' ++ [active']) = stored crc32 0 (older ++ [active]) := by
  rcases h with ⟨rfl, rfl⟩ | ⟨rfl, rfl⟩
  · rfl
  · rw [stored_append]
    exact List.append_nil _

/-- Some first bytes of a record that there is room for, at the end of the active segment. -/
theorem Holds.write_remains (h : wal.Holds crc32 older active) {record : Record}
    (hpush : (wal.push crc32 record).Holds crc32 older (active ++ [record])) (n : ℕ) :
    Remains crc32 wal.options (wal.write ((recordBytes crc32 record).take n)).dir older active
      [record] ((bytes (recordBytes crc32) active).length + n) := by
  have hbytes : (bytes (recordBytes crc32) (active ++ [record])).take
      ((bytes (recordBytes crc32) active).length + n) =
        bytes (recordBytes crc32) active ++ (recordBytes crc32 record).take n := by
    rw [bytes_append, bytes_cons, bytes_nil, List.append_nil, List.take_length_add_append]
  refine ⟨?_, Nat.le_add_right _ _, hpush.fits, ?_⟩
  · have hins := h.files.insert (i := older.length) (by simp)
      (bytes (recordBytes crc32) active ++ (recordBytes crc32 record).take n)
    rw [if_neg (by simp), List.map_append, List.set_append_right _ _ (by simp)] at hins
    show (wal.dir.insert wal.activeId ((wal.dir.get wal.activeId).getD [] ++ _)).IsNumbered _
    rw [h.get_active, h.activeId, hbytes]
    simpa using hins
  · rw [← hpush.totalLen]
    exact hpush.total_le

/-- Whatever an append comes to, the records are still there, and at most bytes of the new one
besides. -/
theorem Holds.append_remains (h : wal.Holds crc32 older active)
    (happend : wal.append crc32 disk kind payload = (wal', result)) :
    ∃ older' active' tail len, Remains crc32 wal.options wal'.dir older' active' tail len ∧
      Continues older active older' active' ∧ (tail = [] ∨ tail = [⟨kind, payload⟩]) := by
  have hnext := h.nextSegment
  -- the record goes to a segment that holds what was there before, and has room
  have hpush (base : Wal) (hwithin : wal.WithinLimits payload)
      (hbase : base = wal ∧ ¬ wal.NeedsRotation payload ∨
        base = wal.nextSegment ∧ wal.NeedsRotation payload) :
      ∃ older' active', base.Holds crc32 older' active' ∧
        (base.push crc32 ⟨kind, payload⟩).Holds crc32 older' (active' ++ [⟨kind, payload⟩]) ∧
        base.options = wal.options ∧ Continues older active older' active' := by
    have hbytes : (recordBytes crc32 ⟨kind, payload⟩).length = headerLen + payload.length :=
      length_recordBytes ⟨kind, payload⟩
    have htotal : wal.totalLen + (recordBytes crc32 ⟨kind, payload⟩).length ≤
        wal.options.maxSize.toNat := hbytes ▸ hwithin.total_le
    rcases hbase with ⟨rfl, hroom⟩ | ⟨rfl, -⟩
    · have hfits := hwithin.fits hroom
      rw [← hbytes] at hfits
      exact ⟨older, active, h, h.push hwithin.payload_le hfits htotal, rfl, Or.inl ⟨rfl, rfl⟩⟩
    · have hfits : wal.nextSegment.activeLen + (recordBytes crc32 ⟨kind, payload⟩).length ≤
          wal.options.segmentSize.toNat := by
        show 0 + _ ≤ _
        rw [Nat.zero_add, hbytes]
        exact hwithin.record_le
      exact ⟨older ++ [active], [], hnext, hnext.push hwithin.payload_le hfits htotal, rfl,
        Or.inr ⟨rfl, rfl⟩⟩
  have hwritten (base : Wal) (n : ℕ) (hwithin : wal.WithinLimits payload)
      (hbase : base = wal ∧ ¬ wal.NeedsRotation payload ∨
        base = wal.nextSegment ∧ wal.NeedsRotation payload)
      (hdir : wal'.dir = (base.write ((recordBytes crc32 ⟨kind, payload⟩).take n)).dir) :
      ∃ older' active' tail len, Remains crc32 wal.options wal'.dir older' active' tail len ∧
        Continues older active older' active' ∧ (tail = [] ∨ tail = [⟨kind, payload⟩]) := by
    obtain ⟨older', active', hholds, hpushed, hoptions, hcontinues⟩ := hpush base hwithin hbase
    rw [hdir, ← hoptions]
    exact ⟨older', active', _, _, hholds.write_remains hpushed n, hcontinues, Or.inr rfl⟩
  cases result with
  | ok lsn =>
    obtain ⟨hwithin, base, hbase, -, rfl⟩ := append_ok h.healthy h.accounts.activeLen_le happend
    refine hwritten base (recordBytes crc32 ⟨kind, payload⟩).length hwithin hbase ?_
    rw [List.take_length]
    rfl
  | error e =>
    rcases append_error h.healthy h.accounts.activeLen_le happend with
      hdir | hdir | ⟨base, n, hwithin, hbase, hdir⟩
    · rw [hdir]
      exact ⟨older, active, [], _, h.remains, Or.inl ⟨rfl, rfl⟩, Or.inl rfl⟩
    · rw [hdir]
      exact ⟨older ++ [active], [], [], _, hnext.remains, Or.inr ⟨rfl, rfl⟩, Or.inl rfl⟩
    · exact hwritten base n hwithin hbase hdir

end Wal

/-- What a crash leaves: what was synced, or some of the bytes written since as well. -/
def crashed (synced dir : Directory) : Option ℕ → Directory
  | none => synced
  | some cut => cutLast dir (max cut ((synced.get (lastSegment dir)).getD []).length)

/-- A cut that keeps what was synced keeps the records that were there before the append. -/
theorem Wal.Holds.synced_le {wal : Wal} {dir : Directory} {older' : List (List Record)}
    {active' : List Record} {len : ℕ} (h : wal.Holds crc32 older active)
    (hremains : Remains crc32 wal.options dir older' active' tail len)
    (hcontinues : Wal.Continues older active older' active') :
    (bytes (recordBytes crc32) active').length ≤
      ((wal.dir.get (lastSegment dir)).getD []).length := by
  rcases hcontinues with ⟨rfl, rfl⟩ | ⟨rfl, rfl⟩
  · rw [hremains.lastSegment_eq, ← h.activeId, h.get_active]
    exact le_rfl
  · exact Nat.zero_le _

/-- After a crash the log opens with the records that were synced, or with the one behind them as
well when all of it is there. -/
theorem Wal.Holds.crash_remains {wal : Wal} {dir : Directory} {older' : List (List Record)}
    {active' : List Record} {len : ℕ} {record : Record} (h : wal.Holds crc32 older active)
    (hvalid : validateOptions wal.options = .ok ())
    (hremains : Remains crc32 wal.options dir older' active' tail len)
    (hcontinues : Wal.Continues older active older' active') (htail : tail = [] ∨ tail = [record])
    (left : Option ℕ) :
    ∃ opened older'' active'', Wal.openDir crc32 (crashed wal.dir dir left) wal.options =
      .ok opened ∧ opened.options = wal.options ∧ opened.Holds crc32 older'' active'' ∧
      (stored crc32 0 (older'' ++ [active'']) = stored crc32 0 (older ++ [active]) ∨
        tail = [record] ∧ ∃ lsn, stored crc32 0 (older'' ++ [active'']) =
          stored crc32 0 (older ++ [active]) ++ [⟨lsn, record⟩]) := by
  cases left with
  | none =>
    obtain ⟨opened, hopen, hoptions, hholds⟩ := h.remains.openDir hvalid
    have hactive (n : ℕ) : active ++ whole (recordBytes crc32) n [] = active :=
      List.append_nil active
    rw [hactive] at hholds
    exact ⟨opened, older, active, hopen, hoptions, hholds, Or.inl rfl⟩
  | some cut =>
    have hcut := (h.synced_le hremains hcontinues).trans (le_max_right cut _)
    obtain ⟨opened, hopen, hoptions, hholds⟩ := (hremains.cut hcut).openDir hvalid
    refine ⟨opened, older', _, hopen, hoptions, hholds, ?_⟩
    -- of the tail there is either nothing whole, or the whole of the new record
    rcases whole_singleton_or (recordBytes crc32) htail _ with hwhole | ⟨hrecord, hwhole⟩
    · rw [hwhole, List.append_nil]
      exact Or.inl (stored_continues hcontinues)
    · right
      rw [hwhole, stored_append, storedAt_push, ← List.append_assoc, ← stored_append,
        stored_continues hcontinues]
      exact ⟨hrecord, _, rfl⟩

/-- After a crash between two appends the log opens with its records. -/
theorem Wal.Holds.crash_idle {wal : Wal} (h : wal.Holds crc32 older active)
    (hvalid : validateOptions wal.options = .ok ()) (left : Option ℕ) :
    ∃ opened older' active', Wal.openDir crc32 (crashed wal.dir wal.dir left) wal.options =
      .ok opened ∧ opened.options = wal.options ∧ opened.Holds crc32 older' active' ∧
      stored crc32 0 (older' ++ [active']) = stored crc32 0 (older ++ [active]) := by
  obtain ⟨opened, older', active', hopen, hoptions, hholds, hstored⟩ :=
    h.crash_remains hvalid h.remains (Or.inl ⟨rfl, rfl⟩)
      (@Or.inl _ ([] = [⟨⟨1, by decide⟩, []⟩]) rfl) left
  refine ⟨opened, older', active', hopen, hoptions, hholds, ?_⟩
  rcases hstored with hsame | ⟨hnil, -⟩
  · exact hsame
  · cases hnil

/-- After a crash during an append the log opens with its records, or with the new one as well. -/
theorem Wal.Holds.crash {wal wal' : Wal} {disk : Disk} {kind : RecordKind} {payload : List UInt8}
    {result : Except WalError Lsn} (h : wal.Holds crc32 older active)
    (hvalid : validateOptions wal.options = .ok ())
    (happend : wal.append crc32 disk kind payload = (wal', result)) (left : Option ℕ) :
    ∃ opened older' active', Wal.openDir crc32 (crashed wal.dir wal'.dir left) wal.options =
      .ok opened ∧ opened.options = wal.options ∧ opened.Holds crc32 older' active' ∧
      (stored crc32 0 (older' ++ [active']) = stored crc32 0 (older ++ [active]) ∨
        ∃ lsn, stored crc32 0 (older' ++ [active']) =
          stored crc32 0 (older ++ [active]) ++ [⟨lsn, ⟨kind, payload⟩⟩]) := by
  obtain ⟨older', active', tail, len, hremains, hcontinues, htail⟩ := h.append_remains happend
  obtain ⟨opened, older'', active'', hopen, hoptions, hholds, hstored⟩ :=
    h.crash_remains hvalid hremains hcontinues htail left
  exact ⟨opened, older'', active'', hopen, hoptions, hholds, hstored.imp_right And.right⟩

end BasisDB.Storage
