import BasisDB.LittleEndian

/-! The on-disk record format: a header of 32 bytes with two checksums, then the payload.
Model of `record.rs`, `error.rs` and `format.rs`; the checksum is a parameter. -/
namespace BasisDB.Storage

open LittleEndian

structure Lsn where
  segmentId : ℕ
  offset : ℕ
  deriving DecidableEq, Repr

/-- The derived order of the struct: by segment, then by offset. -/
instance : LT Lsn :=
  ⟨fun a b => a.segmentId < b.segmentId ∨ a.segmentId = b.segmentId ∧ a.offset < b.offset⟩

inductive Corruption where
  | badMagic (found : UInt32)
  | unsupportedVersion (found : UInt16)
  | reservedRecordKind
  | headerChecksum
  | payloadChecksum
  | recordTooLarge (len segmentSize : ℕ)
  | segmentTooLarge (len segmentSize : ℕ)
  | incompleteRecord
  deriving DecidableEq, Repr

/-- A path inside the log's directory. -/
inductive WalPath where
  | dir
  | segment (segmentId : ℕ)
  deriving DecidableEq, Repr

inductive WalError where
  | io (path : WalPath)
  | reservedRecordKind
  | segmentTooSmall (segmentSize headerLen : ℕ)
  | recordTooLarge (len segmentSize : ℕ)
  | walFull (len maxSize : ℕ)
  | payloadTooLarge (len : ℕ)
  | segmentIdExhausted
  | corruptRecord (lsn : Lsn) (reason : Corruption)
  | missingSegment (expected found : ℕ)
  | poisoned
  deriving DecidableEq, Repr

/-- A record kind; kind zero is reserved. -/
structure RecordKind where
  get : UInt16
  ne_zero : get ≠ 0
  deriving DecidableEq

def RecordKind.new (value : UInt16) : Except WalError RecordKind :=
  if h : value = 0 then .error .reservedRecordKind else .ok ⟨value, h⟩

structure Record where
  kind : RecordKind
  payload : List UInt8
  deriving DecidableEq

structure StoredRecord where
  lsn : Lsn
  record : Record
  deriving DecidableEq

def magic : UInt32 := 0x4339574c
def version : UInt16 := 1
def headerLen : ℕ := 32
def headerCrcEnd : ℕ := 28

def u32Max : ℕ := 2 ^ 32 - 1
def u64Max : ℕ := 2 ^ 64 - 1

/-- `checked_add` on `u64`. -/
def checkedAdd (a b : ℕ) : Option ℕ := if a + b ≤ u64Max then some (a + b) else none

/-- `Option::ok_or`. -/
def okOr {α : Type} (o : Option α) (error : WalError) : Except WalError α :=
  match o with
  | some a => .ok a
  | none => .error error

def encodedLen (payloadLen : ℕ) : Except WalError ℕ :=
  if payloadLen ≤ u32Max then okOr (checkedAdd headerLen payloadLen) (.payloadTooLarge payloadLen)
  else .error (.payloadTooLarge payloadLen)

section Format
variable (crc32 : List UInt8 → UInt32)

/-- The header up to its own checksum; bytes 16 to 28 stay zero. -/
def headerFields (kind : RecordKind) (payload : List UInt8) : List UInt8 :=
  toBytes 4 magic.toNat ++ toBytes 2 version.toNat ++ toBytes 2 kind.get.toNat ++
    toBytes 4 payload.length ++ toBytes 4 (crc32 payload).toNat ++ List.replicate 12 0

def recordHeader (kind : RecordKind) (payload : List UInt8) : List UInt8 :=
  headerFields crc32 kind payload ++ toBytes 4 (crc32 (headerFields crc32 kind payload)).toNat

/-- The bytes of a record whose payload length fits the header. -/
def recordBytes (record : Record) : List UInt8 :=
  recordHeader crc32 record.kind record.payload ++ record.payload

def encodeRecord (kind : RecordKind) (payload : List UInt8) : Except WalError (List UInt8) := do
  let _ ← encodedLen payload.length
  if payload.length ≤ u32Max then .ok (recordBytes crc32 ⟨kind, payload⟩)
  else .error (.payloadTooLarge payload.length)

def readU16 (bytes : List UInt8) (start : ℕ) : UInt16 :=
  UInt16.ofNat (toNat ((bytes.drop start).take 2))

def readU32 (bytes : List UInt8) (start : ℕ) : UInt32 :=
  UInt32.ofNat (toNat ((bytes.drop start).take 4))

def decodeHeader (header : List UInt8) (lsn : Lsn) : Except WalError RecordKind :=
  if readU32 header 0 ≠ magic then .error (.corruptRecord lsn (.badMagic (readU32 header 0)))
  else if readU16 header 4 ≠ version then
    .error (.corruptRecord lsn (.unsupportedVersion (readU16 header 4)))
  else if crc32 (header.take headerCrcEnd) ≠ readU32 header 28 then
    .error (.corruptRecord lsn .headerChecksum)
  else
    match RecordKind.new (readU16 header 6) with
    | .ok kind => .ok kind
    | .error _ => .error (.corruptRecord lsn .reservedRecordKind)

inductive ReadExact where
  | complete
  | eof
  | incomplete
  deriving DecidableEq, Repr

/-- Reading `n` bytes from what is left of a file: the outcome, the bytes and the rest. -/
def readExactOrTail (reader : List UInt8) (n : ℕ) : ReadExact × List UInt8 × List UInt8 :=
  if n = 0 then (.complete, [], reader)
  else if reader = [] then (.eof, [], [])
  else if reader.length < n then (.incomplete, reader, [])
  else (.complete, reader.take n, reader.drop n)

inductive ReadOne where
  | record (record : Record) (nextOffset : ℕ)
  | eof
  | incomplete
  deriving DecidableEq

/-- One record from what is left of a segment file, with what is left after it. -/
def readOne (reader : List UInt8) (lsn : Lsn) (segmentSize physicalLen : ℕ) :
    Except WalError (ReadOne × List UInt8) :=
  match readExactOrTail reader headerLen with
  | (.eof, _, rest) => .ok (.eof, rest)
  | (.incomplete, _, rest) => .ok (.incomplete, rest)
  | (.complete, header, rest) => do
    let kind ← decodeHeader crc32 header lsn
    let payloadLen := (readU32 header 8).toNat
    let recordLen ← okOr (checkedAdd headerLen payloadLen)
      (.corruptRecord lsn (.recordTooLarge u64Max segmentSize))
    if segmentSize < recordLen then
      .error (.corruptRecord lsn (.recordTooLarge recordLen segmentSize))
    else
      let nextOffset ← okOr (checkedAdd lsn.offset recordLen)
        (.corruptRecord lsn (.segmentTooLarge u64Max segmentSize))
      if segmentSize < nextOffset then
        .error (.corruptRecord lsn (.segmentTooLarge nextOffset segmentSize))
      else if physicalLen < nextOffset then .ok (.incomplete, rest)
      else
        match readExactOrTail rest payloadLen with
        | (.incomplete, _, rest) => .ok (.incomplete, rest)
        | (.eof, _, rest) => .ok (.incomplete, rest)
        | (.complete, payload, rest) =>
          if crc32 payload ≠ readU32 header 12 then
            .error (.corruptRecord lsn .payloadChecksum)
          else .ok (.record ⟨kind, payload⟩ nextOffset, rest)

end Format

section Decode
variable {crc32 : List UInt8 → UInt32} {kind : RecordKind} {payload : List UInt8}

theorem ofNat_toBytes_u32 (n : UInt32) : UInt32.ofNat (toNat (toBytes 4 n.toNat)) = n := by
  have hlt : n.toNat < 256 ^ 4 := n.toNat_lt
  rw [toNat_toBytes_of_lt hlt, UInt32.ofNat_toNat]

theorem ofNat_toBytes_u16 (n : UInt16) : UInt16.ofNat (toNat (toBytes 2 n.toNat)) = n := by
  have hlt : n.toNat < 256 ^ 2 := n.toNat_lt
  rw [toNat_toBytes_of_lt hlt, UInt16.ofNat_toNat]

@[simp] theorem length_headerFields : (headerFields crc32 kind payload).length = 28 := by
  simp [headerFields]

@[simp] theorem length_recordHeader : (recordHeader crc32 kind payload).length = headerLen := by
  simp [recordHeader, headerLen]

theorem length_recordBytes (record : Record) :
    (recordBytes crc32 record).length = headerLen + record.payload.length := by
  simp [recordBytes]

theorem take_recordHeader :
    (recordHeader crc32 kind payload).take headerCrcEnd = headerFields crc32 kind payload := by
  have hlen : headerCrcEnd = (headerFields crc32 kind payload).length := by simp [headerCrcEnd]
  rw [recordHeader, hlen, List.take_left]

/-- A header written by the encoder passes every check. -/
theorem decodeHeader_recordHeader (lsn : Lsn) :
    decodeHeader crc32 (recordHeader crc32 kind payload) lsn = .ok kind := by
  have hmagic : readU32 (recordHeader crc32 kind payload) 0 = magic := by
    rw [← ofNat_toBytes_u32 magic]
    simp [readU32, recordHeader, headerFields]
  have hversion : readU16 (recordHeader crc32 kind payload) 4 = version := by
    rw [← ofNat_toBytes_u16 version]
    simp [readU16, recordHeader, headerFields]
  have hkind : readU16 (recordHeader crc32 kind payload) 6 = kind.get := by
    rw [← ofNat_toBytes_u16 kind.get]
    simp [readU16, recordHeader, headerFields, List.drop_append]
  have hcrc : readU32 (recordHeader crc32 kind payload) 28 =
      crc32 (headerFields crc32 kind payload) := by
    rw [← ofNat_toBytes_u32 (crc32 (headerFields crc32 kind payload))]
    simp [readU32, recordHeader]
  rw [decodeHeader, hmagic, hversion, hkind, hcrc, take_recordHeader, RecordKind.new,
    dif_neg kind.ne_zero]
  simp

theorem readU32_payloadLen (h : payload.length ≤ u32Max) :
    (readU32 (recordHeader crc32 kind payload) 8).toNat = payload.length := by
  have hlt : payload.length < 256 ^ 4 := by
    unfold u32Max at h
    omega
  have hread : readU32 (recordHeader crc32 kind payload) 8 = UInt32.ofNat payload.length := by
    simp [readU32, recordHeader, headerFields, List.drop_append,
      toNat_toBytes_of_lt hlt]
  rw [hread, UInt32.toNat_ofNat_of_lt' hlt]

theorem readU32_payloadCrc :
    readU32 (recordHeader crc32 kind payload) 12 = crc32 payload := by
  rw [← ofNat_toBytes_u32 (crc32 payload)]
  simp [readU32, recordHeader, headerFields, List.drop_append]

theorem readExactOrTail_append {bytes rest : List UInt8} {n : ℕ} (h : bytes.length = n) :
    readExactOrTail (bytes ++ rest) n = (.complete, bytes, rest) := by
  subst h
  by_cases hnil : bytes = []
  · simp [readExactOrTail, hnil]
  · simp [readExactOrTail, hnil]

theorem readExactOrTail_complete {reader bytes rest : List UInt8} {n : ℕ}
    (h : readExactOrTail reader n = (.complete, bytes, rest)) :
    rest.length + n = reader.length := by
  unfold readExactOrTail at h
  split_ifs at h with hzero hnil hlen
  · simp only [Prod.mk.injEq, true_and] at h
    rw [← h.2, hzero, Nat.add_zero]
  · simp at h
  · simp at h
  · simp only [Prod.mk.injEq, true_and] at h
    rw [← h.2, List.length_drop]
    omega

theorem checkedAdd_of_le {a b : ℕ} (h : a + b ≤ u64Max) : checkedAdd a b = some (a + b) :=
  if_pos h

section ReadOne
variable {record : Record} {lsn : Lsn} {segmentSize physicalLen : ℕ} {rest : List UInt8}
  (hlen : record.payload.length ≤ u32Max) (h64 : segmentSize ≤ u64Max)
  (hseg : lsn.offset + (recordBytes crc32 record).length ≤ segmentSize)

theorem readOne_nil : readOne crc32 [] lsn segmentSize physicalLen = .ok (.eof, []) := rfl

include hlen h64 hseg

/-- Once the header of an encoded record is there, only the payload is still in question. -/
theorem readOne_header :
    readOne crc32 (recordHeader crc32 record.kind record.payload ++ rest) lsn segmentSize
        physicalLen =
      if physicalLen < lsn.offset + (recordBytes crc32 record).length then .ok (.incomplete, rest)
      else match readExactOrTail rest record.payload.length with
        | (.incomplete, _, rest) => .ok (.incomplete, rest)
        | (.eof, _, rest) => .ok (.incomplete, rest)
        | (.complete, payload, rest) =>
          if crc32 payload ≠ crc32 record.payload then
            .error (.corruptRecord lsn .payloadChecksum)
          else .ok (.record ⟨record.kind, payload⟩
            (lsn.offset + (recordBytes crc32 record).length), rest) := by
  rw [length_recordBytes] at hseg ⊢
  have hsum : headerLen + record.payload.length ≤ u64Max := by omega
  have hnext : lsn.offset + (headerLen + record.payload.length) ≤ u64Max := by omega
  have hfits : ¬ segmentSize < headerLen + record.payload.length := by omega
  have hends : ¬ segmentSize < lsn.offset + (headerLen + record.payload.length) := by omega
  rw [readOne, readExactOrTail_append length_recordHeader]
  simp only [decodeHeader_recordHeader, readU32_payloadLen hlen, readU32_payloadCrc,
    checkedAdd_of_le hsum, checkedAdd_of_le hnext, okOr, bind, Except.bind, if_neg hfits,
    if_neg hends]

/-- A record that is there in full is read back, and the reader stands after it. -/
theorem readOne_recordBytes
    (hphys : lsn.offset + (recordBytes crc32 record).length ≤ physicalLen) :
    readOne crc32 (recordBytes crc32 record ++ rest) lsn segmentSize physicalLen =
      .ok (.record record (lsn.offset + (recordBytes crc32 record).length), rest) := by
  have hbytes : recordBytes crc32 record ++ rest =
      recordHeader crc32 record.kind record.payload ++ (record.payload ++ rest) := by
    rw [recordBytes, List.append_assoc]
  rw [hbytes, readOne_header hlen h64 hseg, if_neg (not_lt.mpr hphys), readExactOrTail_append rfl]
  simp

/-- A record that is cut anywhere inside is incomplete. -/
theorem readOne_cut {n : ℕ} (hpos : 0 < n) (hcut : n < (recordBytes crc32 record).length) :
    ∃ rest, readOne crc32 ((recordBytes crc32 record).take n) lsn segmentSize (lsn.offset + n) =
      .ok (.incomplete, rest) := by
  by_cases hheader : n < headerLen
  · -- not even the header is there
    have htake : ((recordBytes crc32 record).take n).length = n := by
      rw [List.length_take, min_eq_left hcut.le]
    have hne : (recordBytes crc32 record).take n ≠ [] := by
      rw [← List.length_pos_iff, htake]
      exact hpos
    have hread : readExactOrTail ((recordBytes crc32 record).take n) headerLen =
        (.incomplete, (recordBytes crc32 record).take n, []) := by
      rw [readExactOrTail, if_neg (by decide), if_neg hne, if_pos (by rw [htake]; exact hheader)]
    refine ⟨[], ?_⟩
    rw [readOne, hread]
  · have htake : (recordBytes crc32 record).take n =
        recordHeader crc32 record.kind record.payload ++ record.payload.take (n - headerLen) := by
      rw [recordBytes, List.take_append, length_recordHeader, List.take_of_length_le]
      rw [length_recordHeader]
      exact not_lt.mp hheader
    rw [htake, readOne_header hlen h64 hseg, if_pos (Nat.add_lt_add_left hcut _)]
    exact ⟨_, rfl⟩

end ReadOne

section Inversion
variable {reader rest : List UInt8} {lsn : Lsn} {segmentSize physicalLen : ℕ}

theorem checkedAdd_some {a b c : ℕ} (h : checkedAdd a b = some c) : c = a + b ∧ a + b ≤ u64Max := by
  unfold checkedAdd at h
  split_ifs at h with hle
  exact ⟨(Option.some.inj h).symm, hle⟩

theorem okOr_ok {α : Type} {o : Option α} {error : WalError} {a : α} (h : okOr o error = .ok a) :
    o = some a := by
  cases o with
  | none => cases h
  | some b => exact congrArg some (Except.ok.inj h)

theorem readExactOrTail_eof {bytes tail : List UInt8} {n : ℕ}
    (h : readExactOrTail reader n = (.eof, bytes, tail)) : reader = [] := by
  unfold readExactOrTail at h
  split_ifs at h with hzero hnil hlen
  · simp at h
  · exact hnil
  · simp at h
  · simp at h

/-- What a read that succeeds can come to; a record ends within the segment, and the reader
then stands behind it. -/
theorem readOne_cases {one : ReadOne}
    (h : readOne crc32 reader lsn segmentSize physicalLen = .ok (one, rest)) :
    (one = .eof ∧ reader = []) ∨ one = .incomplete ∨
    ∃ record nextOffset, one = .record record nextOffset ∧ nextOffset ≤ segmentSize ∧
      lsn.offset < nextOffset ∧ nextOffset + rest.length = lsn.offset + reader.length := by
  unfold readOne at h
  rcases hheader : readExactOrTail reader headerLen with ⟨outcome, header, tail⟩
  rw [hheader] at h
  cases outcome with
  | eof =>
    simp only [Except.ok.injEq, Prod.mk.injEq] at h
    exact Or.inl ⟨h.1.symm, readExactOrTail_eof hheader⟩
  | incomplete =>
    simp only [Except.ok.injEq, Prod.mk.injEq] at h
    exact Or.inr (Or.inl h.1.symm)
  | complete =>
    right
    have htail := readExactOrTail_complete hheader
    simp only [bind, Except.bind] at h
    split at h
    · cases h
    split at h
    · cases h
    rename_i hrecordLen
    split_ifs at h
    split at h
    · cases h
    rename_i hnextOffset
    split_ifs at h with hsegment
    · simp only [Except.ok.injEq, Prod.mk.injEq] at h
      exact Or.inl h.1.symm
    split at h
    · simp only [Except.ok.injEq, Prod.mk.injEq] at h
      exact Or.inl h.1.symm
    · simp only [Except.ok.injEq, Prod.mk.injEq] at h
      exact Or.inl h.1.symm
    · right
      rename_i hpayload
      split_ifs at h
      have hrest := readExactOrTail_complete hpayload
      obtain ⟨rfl, -⟩ := checkedAdd_some (okOr_ok hrecordLen)
      obtain ⟨rfl, -⟩ := checkedAdd_some (okOr_ok hnextOffset)
      simp only [Except.ok.injEq, Prod.mk.injEq] at h
      obtain ⟨rfl, rfl⟩ := h
      refine ⟨_, _, rfl, ?_⟩
      unfold headerLen at htail hsegment ⊢
      omega

/-- Every record read takes at least its header off the reader. -/
theorem readOne_decreases {record : Record} {nextOffset : ℕ}
    (h : readOne crc32 reader lsn segmentSize physicalLen = .ok (.record record nextOffset, rest)) :
    rest.length < reader.length := by
  rcases readOne_cases h with ⟨hone, -⟩ | hone | ⟨_, _, hone, -, hlt, hends⟩
  · cases hone
  · cases hone
  · obtain ⟨rfl, rfl⟩ := ReadOne.record.inj hone
    omega

end Inversion

end Decode
end BasisDB.Storage
