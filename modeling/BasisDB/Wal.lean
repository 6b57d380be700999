import BasisDB.WalSegment

/-! The append-only segmented log: opening a directory, appending with rotation, and
streaming the records back. Model of `wal.rs`; the answers of the disk during a call are
an argument of the call. -/
namespace BasisDB.Storage

structure WalOptions where
  segmentSize : UInt64
  maxSize : UInt64
  syncOnAppend : Bool
  deriving DecidableEq, Repr

/-- `WalOptions::default`. -/
def WalOptions.default : WalOptions :=
  { segmentSize := 64 * 1024 * 1024, maxSize := 4 * 1024 * 1024 * 1024, syncOnAppend := false }

def validateOptions (options : WalOptions) : Except WalError Unit :=
  if options.segmentSize.toNat < headerLen ∨ options.maxSize.toNat < headerLen then
    .error (.segmentTooSmall (min options.segmentSize options.maxSize).toNat headerLen)
  else .ok ()

structure Wal where
  dir : Directory
  options : WalOptions
  activeId : ℕ
  activeLen : ℕ
  totalLen : ℕ
  poisoned : Bool

/-- How the disk answers during one call; a failed write leaves some of its bytes behind. -/
structure Disk where
  syncActive : Bool := true
  createSegment : Bool := true
  syncDir : Bool := true
  writeFails : Option ℕ := none
  syncAppend : Bool := true

namespace Wal

def ensureHealthy (wal : Wal) : Except WalError Unit :=
  if wal.poisoned then .error .poisoned else .ok ()

def sync (wal : Wal) (synced : Bool) : Wal × Except WalError Unit :=
  match wal.ensureHealthy with
  | .error error => (wal, .error error)
  | .ok () =>
    if synced then (wal, .ok ())
    else ({ wal with poisoned := true }, .error (.io (.segment wal.activeId)))

/-- Starting the next segment. -/
def rotate (wal : Wal) (disk : Disk) : Wal × Except WalError Unit :=
  match wal.sync disk.syncActive with
  | (wal, .error error) => (wal, .error error)
  | (wal, .ok ()) =>
    match checkedAdd wal.activeId 1 with
    | none => (wal, .error .segmentIdExhausted)
    | some activeId =>
      if disk.createSegment then
        let wal := { wal with dir := openSegment wal.dir activeId }
        if disk.syncDir then ({ wal with activeId := activeId, activeLen := 0 }, .ok ())
        else (wal, .error (.io .dir))
      else (wal, .error (.io (.segment activeId)))

def rotateIfNeeded (wal : Wal) (disk : Disk) (recordLen : ℕ) : Wal × Except WalError Unit :=
  let segmentSize := wal.options.segmentSize.toNat
  if segmentSize < recordLen then (wal, .error (.recordTooLarge recordLen segmentSize))
  else
    match checkedAdd wal.activeLen recordLen with
    | none => (wal, .error (.recordTooLarge u64Max segmentSize))
    | some nextLen =>
      if wal.activeLen ≠ 0 ∧ segmentSize < nextLen then wal.rotate disk else (wal, .ok ())

/-- Bytes at the end of the active file. -/
def write (wal : Wal) (bytes : List UInt8) : Wal :=
  { wal with dir := wal.dir.insert wal.activeId ((wal.dir.get wal.activeId).getD [] ++ bytes) }

def checkedAddLen (offset len : ℕ) : Except WalError ℕ :=
  okOr (checkedAdd offset len) (.recordTooLarge u64Max u64Max)

/-- The second half of `append`, on the segment that takes the record. -/
def appendActive (crc32 : List UInt8 → UInt32) (wal : Wal) (disk : Disk) (kind : RecordKind)
    (payload : List UInt8) (nextTotal : ℕ) : Wal × Except WalError Lsn :=
  match encodeRecord crc32 kind payload with
  | .error error => (wal, .error error)
  | .ok encoded =>
    match checkedAddLen wal.activeLen encoded.length with
    | .error error => (wal, .error error)
    | .ok nextLen =>
      match disk.writeFails with
      | some written =>
        ({ wal.write (encoded.take written) with poisoned := true },
          .error (.io (.segment wal.activeId)))
      | none =>
        let lsn : Lsn := ⟨wal.activeId, wal.activeLen⟩
        let wal := { wal.write encoded with activeLen := nextLen, totalLen := nextTotal }
        if wal.options.syncOnAppend then
          match wal.sync disk.syncAppend with
          | (wal, .error error) => (wal, .error error)
          | (wal, .ok ()) => (wal, .ok lsn)
        else (wal, .ok lsn)

def append (crc32 : List UInt8 → UInt32) (wal : Wal) (disk : Disk) (kind : RecordKind)
    (payload : List UInt8) : Wal × Except WalError Lsn :=
  match wal.ensureHealthy with
  | .error error => (wal, .error error)
  | .ok () =>
    match encodedLen payload.length with
    | .error error => (wal, .error error)
    | .ok recordLen =>
      match checkedAddLen wal.totalLen recordLen with
      | .error error => (wal, .error error)
      | .ok nextTotal =>
        if wal.options.maxSize.toNat < nextTotal then
          (wal, .error (.walFull nextTotal wal.options.maxSize.toNat))
        else
          match wal.rotateIfNeeded disk recordLen with
          | (wal, .error error) => (wal, .error error)
          | (wal, .ok ()) => wal.appendActive crc32 disk kind payload nextTotal

/-- `Wal::open`. -/
def openDir (crc32 : List UInt8 → UInt32) (dir : Directory) (options : WalOptions) :
    Except WalError Wal := do
  validateOptions options
  let (dir, activeId, activeLen) ← recover crc32 dir options.segmentSize.toNat
  let totalLen ← Storage.totalLen dir
  if options.maxSize.toNat < totalLen then
    .error (.walFull totalLen options.maxSize.toNat)
  else
    .ok { dir := openSegment dir activeId, options := options, activeId := activeId,
          activeLen := activeLen, totalLen := totalLen, poisoned := false }

/-- What `Records` yields over some segments, and the error it ends with, if any. -/
def drainSegments (crc32 : List UInt8 → UInt32) (dir : Directory) (segmentSize : ℕ) :
    List ℕ → List StoredRecord × Option WalError
  | [] => ([], none)
  | segmentId :: ids =>
    match SegmentReader.openFile dir segmentId segmentSize with
    | .error error => ([], some error)
    | .ok reader =>
      match reader.drain crc32 with
      | (stored, some error) => (stored, some error)
      | (stored, none) =>
        let (more, error) := drainSegments crc32 dir segmentSize ids
        (stored ++ more, error)

def records (crc32 : List UInt8 → UInt32) (wal : Wal) :
    Except WalError (List StoredRecord × Option WalError) := do
  wal.ensureHealthy
  let ids ← segmentIds wal.dir
  .ok (drainSegments crc32 wal.dir wal.options.segmentSize.toNat ids)

end Wal
end BasisDB.Storage
