import BasisDB.WalAppend

/-! An open log whose counters agree with its files, and what opening a segment, starting the
next one and writing a record do to them. -/
namespace BasisDB.Storage.Wal

variable {crc32 : List UInt8 → UInt32} {wal : Wal} {disk : Disk} {kind : RecordKind}
  {payload : List UInt8}

/-- A write goes to the end of the active file and leaves the others alone. -/
theorem write_files {older newer : List (List UInt8)} {active : List UInt8}
    (h : wal.dir.IsNumbered (older ++ active :: newer)) (hid : wal.activeId = older.length)
    (bytes : List UInt8) :
    (wal.write bytes).dir.IsNumbered (older ++ (active ++ bytes) :: newer) := by
  have hget : wal.dir.get wal.activeId = some active := by
    rw [h.get, hid, List.getElem?_append_right le_rfl, Nat.sub_self]
    rfl
  have hlt : wal.activeId < (older ++ active :: newer).length := by
    rw [hid, List.length_append, List.length_cons]
    omega
  have hinsert := h.insert hlt.le (active ++ bytes)
  rw [if_neg hlt.ne, hid, List.set_append_right _ _ le_rfl, Nat.sub_self, List.set_cons_zero,
    ← hid] at hinsert
  rw [write, hget]
  exact hinsert

/-- An open log whose counters agree with its files. Behind the active segment there may be
an empty one, created by a rotation that failed. -/
structure Accounts (wal : Wal) (older : List (List UInt8)) (active : List UInt8)
    (spare : List (List UInt8)) : Prop where
  files : wal.dir.IsNumbered (older ++ active :: spare)
  spare : spare = [] ∨ spare = [[]]
  activeId : wal.activeId = older.length
  activeLen : wal.activeLen = active.length
  totalLen : wal.totalLen = ((older ++ [active]).map List.length).sum
  segment_le : ∀ f ∈ older ++ [active], f.length ≤ wal.options.segmentSize.toNat
  total_le : wal.totalLen ≤ wal.options.maxSize.toNat
  healthy : wal.poisoned = false

variable {older : List (List UInt8)} {active : List UInt8} {spare : List (List UInt8)}

namespace Accounts
variable (h : wal.Accounts older active spare)
include h

theorem activeLen_le : wal.activeLen ≤ wal.totalLen := by
  rw [h.activeLen, h.totalLen, List.map_append, List.sum_append]
  simp

theorem openNext_eq (hspare : spare = [[]]) : openSegment wal.dir (wal.activeId + 1) = wal.dir := by
  apply openSegment_of_get
  rw [h.files.get, h.activeId, List.getElem?_append_right (by omega), Nat.add_sub_cancel_left,
    hspare]
  rfl

/-- The next segment is there, and it is empty. -/
theorem openNext_files :
    (openSegment wal.dir (wal.activeId + 1)).IsNumbered (older ++ [active] ++ [[]]) := by
  rcases h.spare with hspare | hspare
  · have hfiles := h.files
    rw [hspare] at hfiles
    apply openSegment_new hfiles
    rw [h.activeId, List.length_append]
    rfl
  · rw [h.openNext_eq hspare, List.append_assoc]
    have hfiles := h.files
    rwa [hspare] at hfiles

theorem openNext : wal.openNext.Accounts older active [[]] := by
  refine ⟨?_, Or.inr rfl, h.activeId, h.activeLen, h.totalLen, h.segment_le, h.total_le, h.healthy⟩
  have hfiles := h.openNext_files
  rwa [List.append_assoc] at hfiles

theorem nextSegment : wal.nextSegment.Accounts (older ++ [active]) [] [] := by
  refine ⟨h.openNext_files, Or.inl rfl, ?_, rfl, ?_, ?_, h.total_le, h.healthy⟩
  · show wal.activeId + 1 = _
    rw [h.activeId, List.length_append]
    rfl
  · show wal.totalLen = _
    rw [h.totalLen]
    simp
  · intro f hf
    rcases List.mem_append.mp hf with hf | hf
    · exact h.segment_le f hf
    · rw [List.mem_singleton.mp hf]
      exact Nat.zero_le _

theorem push {record : Record}
    (hfits : wal.activeLen + (recordBytes crc32 record).length ≤ wal.options.segmentSize.toNat)
    (htotal : wal.totalLen + (recordBytes crc32 record).length ≤ wal.options.maxSize.toNat) :
    (wal.push crc32 record).Accounts older (active ++ recordBytes crc32 record) spare := by
  refine ⟨write_files h.files h.activeId _, h.spare, h.activeId, ?_, ?_, ?_, htotal, h.healthy⟩
  · show wal.activeLen + _ = _
    rw [h.activeLen, List.length_append]
  · show wal.totalLen + _ = _
    rw [h.totalLen]
    simp [Nat.add_assoc]
  · intro f hf
    rcases List.mem_append.mp hf with hf | hf
    · exact h.segment_le f (List.mem_append_left _ hf)
    · rw [List.mem_singleton.mp hf, List.length_append, ← h.activeLen]
      exact hfits

/-- An append that leaves the handle healthy keeps the counters right. Only a segment that
is not empty is left behind. -/
theorem append {out : Wal × Except WalError Lsn}
    (hout : AppendOutcome crc32 wal disk kind payload out) (hhealthy : out.1.poisoned = false) :
    out.1.options = wal.options ∧ ∃ older' active' spare', out.1.Accounts older' active' spare' ∧
      ((∀ f ∈ older, f ≠ []) → ∀ f ∈ older', f ≠ []) := by
  cases hout with
  | overLimits => exact ⟨rfl, older, active, spare, h, id⟩
  | activeNotSynced => cases hhealthy
  | nextNotCreated => exact ⟨rfl, older, active, spare, h, id⟩
  | nextNotListed => exact ⟨rfl, older, active, [[]], h.openNext, id⟩
  | writeFailed _ _ _ _ _ hpoisoned => cases hpoisoned.symm.trans hhealthy
  | appended base hwithin _ _ hbase =>
    have hbytes : (recordBytes crc32 ⟨kind, payload⟩).length = headerLen + payload.length :=
      length_recordBytes ⟨kind, payload⟩
    have htotal : wal.totalLen + (recordBytes crc32 ⟨kind, payload⟩).length ≤
        wal.options.maxSize.toNat := hbytes ▸ hwithin.total_le
    rcases hbase with ⟨rfl, hroom⟩ | ⟨rfl, hneeds⟩
    · have hfits := hwithin.fits hroom
      rw [← hbytes] at hfits
      exact ⟨rfl, older, _, spare, h.push hfits htotal, id⟩
    · refine ⟨rfl, older ++ [active], _, [], h.nextSegment.push ?_ htotal, ?_⟩
      · show 0 + _ ≤ _
        rw [Nat.zero_add, hbytes]
        exact hwithin.record_le
      · intro holder f hf
        rcases List.mem_append.mp hf with hf | hf
        · exact holder f hf
        · rw [List.mem_singleton.mp hf, ← List.length_pos_iff, ← h.activeLen]
          exact Nat.pos_of_ne_zero hneeds.1

/-- Segment ids do not run out where no older segment is empty. -/
theorem activeId_lt (holder : ∀ f ∈ older, f ≠ []) (hactive : wal.activeLen ≠ 0) :
    wal.activeId < u64Max := by
  have hcount : (older.map List.length).length ≤ (older.map List.length).sum := by
    apply List.length_le_sum_of_one_le
    intro n hn
    obtain ⟨f, hf, rfl⟩ := List.mem_map.mp hn
    exact List.length_pos_iff.mpr (holder f hf)
  have htotal : wal.totalLen = (older.map List.length).sum + wal.activeLen := by
    rw [h.totalLen, h.activeLen, List.map_append, List.sum_append]
    simp
  have hid : wal.activeId = (older.map List.length).length := by
    rw [h.activeId, List.length_map]
  have hmax := uint64_le_u64Max wal.options.maxSize
  have htotal_le := h.total_le
  omega

end Accounts

end BasisDB.Storage.Wal
