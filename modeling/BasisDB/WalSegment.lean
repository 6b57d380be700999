import BasisDB.OrdMap
import BasisDB.Frames
import BasisDB.WalFormat

/-! Segment files of the log: reading one record after another, finding the valid length
of a segment, and recovery of a directory. Model of `segment.rs`. -/
namespace BasisDB.Storage

/-- The segment files of a directory by their id; the lock file is not one of them. -/
abbrev Directory := OrdMap ℕ (List UInt8)

/-- Sorted segment ids have to count up from zero. -/
def checkIds : ℕ → List ℕ → Except WalError Unit
  | _, [] => .ok ()
  | expected, found :: ids =>
    if found ≠ expected then .error (.missingSegment expected found)
    else checkIds (expected + 1) ids

def segmentIds (dir : Directory) : Except WalError (List ℕ) := do
  let ids := dir.toList.map Prod.fst
  checkIds 0 ids
  .ok ids

def segmentLen (dir : Directory) (segmentId : ℕ) : Except WalError ℕ :=
  match dir.get segmentId with
  | some file => .ok file.length
  | none => .error (.io (.segment segmentId))

def addLens (dir : Directory) : ℕ → List ℕ → Except WalError ℕ
  | total, [] => .ok total
  | total, segmentId :: ids => do
    let len ← segmentLen dir segmentId
    let total ← okOr (checkedAdd total len) (.walFull u64Max u64Max)
    addLens dir total ids

def totalLen (dir : Directory) : Except WalError ℕ := do
  let ids ← segmentIds dir
  addLens dir 0 ids

/-- `open_segment`: an append handle; the file is created when it is missing. -/
def openSegment (dir : Directory) (segmentId : ℕ) : Directory := dir.orInsert segmentId []

def truncateSegment (dir : Directory) (segmentId len : ℕ) : Except WalError Directory :=
  match dir.get segmentId with
  | some file => .ok (dir.insert segmentId (file.take len))
  | none => .error (.io (.segment segmentId))

structure SegmentReader where
  segmentId : ℕ
  segmentSize : ℕ
  physicalLen : ℕ
  offset : ℕ
  /-- What is left to read of the file. -/
  file : List UInt8

inductive SegmentScan where
  | clean (len : ℕ)
  | incompleteTail (len : ℕ)
  deriving DecidableEq, Repr

section Reading
variable (crc32 : List UInt8 → UInt32)

namespace SegmentReader

/-- `SegmentReader::open`. -/
def openFile (dir : Directory) (segmentId segmentSize : ℕ) : Except WalError SegmentReader :=
  match dir.get segmentId with
  | some file => .ok ⟨segmentId, segmentSize, file.length, 0, file⟩
  | none => .error (.io (.segment segmentId))

def nextRecord (reader : SegmentReader) :
    Except WalError (Option StoredRecord × SegmentReader) :=
  let lsn : Lsn := ⟨reader.segmentId, reader.offset⟩
  match readOne crc32 reader.file lsn reader.segmentSize reader.physicalLen with
  | .error error => .error error
  | .ok (.record record nextOffset, file) =>
    .ok (some ⟨lsn, record⟩, { reader with offset := nextOffset, file := file })
  | .ok (.eof, file) => .ok (none, { reader with file := file })
  | .ok (.incomplete, _) => .error (.corruptRecord lsn .incompleteRecord)

theorem nextRecord_decreases {crc32 : List UInt8 → UInt32} {reader next : SegmentReader}
    {stored : StoredRecord} (h : reader.nextRecord crc32 = .ok (some stored, next)) :
    next.file.length < reader.file.length := by
  unfold nextRecord at h
  dsimp only at h
  cases hread : readOne crc32 reader.file ⟨reader.segmentId, reader.offset⟩ reader.segmentSize
      reader.physicalLen with
  | error e => simp [hread] at h
  | ok out =>
    obtain ⟨one, file⟩ := out
    cases one with
    | record record nextOffset =>
      simp only [hread, Except.ok.injEq, Prod.mk.injEq] at h
      rw [← h.2]
      exact readOne_decreases hread
    | eof => simp [hread] at h
    | incomplete => simp [hread] at h

/-- What the reader yields until it ends, and the error it ends with, if any. -/
def drain (reader : SegmentReader) : List StoredRecord × Option WalError :=
  match h : reader.nextRecord crc32 with
  | .error error => ([], some error)
  | .ok (none, _) => ([], none)
  | .ok (some stored, next) =>
    have := nextRecord_decreases h
    (stored :: (next.drain).1, (next.drain).2)
termination_by reader.file.length

end SegmentReader

/-- The scan of `valid_len` from an offset on. -/
def scanFrom (segmentId segmentSize physicalLen offset : ℕ) (file : List UInt8) :
    Except WalError SegmentScan :=
  match h : readOne crc32 file ⟨segmentId, offset⟩ segmentSize physicalLen with
  | .error error => .error error
  | .ok (.record _ nextOffset, rest) =>
    have := readOne_decreases h
    scanFrom segmentId segmentSize physicalLen nextOffset rest
  | .ok (.eof, _) => .ok (.clean offset)
  | .ok (.incomplete, _) => .ok (.incompleteTail offset)
termination_by file.length

def validLen (dir : Directory) (segmentId segmentSize : ℕ) : Except WalError SegmentScan :=
  match dir.get segmentId with
  | some file => scanFrom crc32 segmentId segmentSize file.length 0 file
  | none => .error (.io (.segment segmentId))

/-- The loop of `recover` over the segments that are left; only the last one may end with an
incomplete record, which is cut off. -/
def recoverFrom (dir : Directory) (segmentSize : ℕ) :
    List ℕ → Except WalError (Directory × ℕ × ℕ)
  | [] => .error .segmentIdExhausted
  | segmentId :: ids => do
    match ← validLen crc32 dir segmentId segmentSize with
    | .clean len =>
      if ids = [] then .ok (dir, segmentId, len) else recoverFrom dir segmentSize ids
    | .incompleteTail len =>
      if ids ≠ [] then .error (.corruptRecord ⟨segmentId, len⟩ .incompleteRecord)
      else
        let dir ← truncateSegment dir segmentId len
        .ok (dir, segmentId, len)

/-- The directory after recovery, with the active segment and its length. -/
def recover (dir : Directory) (segmentSize : ℕ) : Except WalError (Directory × ℕ × ℕ) := do
  let ids ← segmentIds dir
  if ids = [] then recoverFrom crc32 (dir.insert 0 []) segmentSize [0]
  else recoverFrom crc32 dir segmentSize ids

end Reading

section Unfolding
variable {crc32 : List UInt8 → UInt32} {segmentId segmentSize physicalLen offset : ℕ}
  {file rest : List UInt8}

theorem scanFrom_record {record : Record} {nextOffset : ℕ}
    (h : readOne crc32 file ⟨segmentId, offset⟩ segmentSize physicalLen =
      .ok (.record record nextOffset, rest)) :
    scanFrom crc32 segmentId segmentSize physicalLen offset file =
      scanFrom crc32 segmentId segmentSize physicalLen nextOffset rest := by
  rw [scanFrom]
  split
  all_goals
    rename_i heq
    rewrite [h] at heq
    cases heq
  rfl

theorem scanFrom_eof
    (h : readOne crc32 file ⟨segmentId, offset⟩ segmentSize physicalLen = .ok (.eof, rest)) :
    scanFrom crc32 segmentId segmentSize physicalLen offset file = .ok (.clean offset) := by
  rw [scanFrom]
  split
  all_goals
    rename_i heq
    rewrite [h] at heq
    cases heq
  rfl

theorem scanFrom_incomplete
    (h : readOne crc32 file ⟨segmentId, offset⟩ segmentSize physicalLen =
      .ok (.incomplete, rest)) :
    scanFrom crc32 segmentId segmentSize physicalLen offset file =
      .ok (.incompleteTail offset) := by
  rw [scanFrom]
  split
  all_goals
    rename_i heq
    rewrite [h] at heq
    cases heq
  rfl

variable {reader next : SegmentReader} {stored : StoredRecord}

theorem SegmentReader.drain_some (h : reader.nextRecord crc32 = .ok (some stored, next)) :
    reader.drain crc32 = (stored :: (next.drain crc32).1, (next.drain crc32).2) := by
  rw [drain]
  split
  all_goals
    rename_i heq
    rewrite [h] at heq
    cases heq
  rfl

theorem SegmentReader.drain_none (h : reader.nextRecord crc32 = .ok (none, next)) :
    reader.drain crc32 = ([], none) := by
  rw [drain]
  split
  all_goals
    rename_i heq
    rewrite [h] at heq
    cases heq
  rfl

end Unfolding
end BasisDB.Storage
