import BasisDB.WalLayout

/-! What one append can do: it is refused by a limit, the next segment cannot be made, the
handle is poisoned, or the record goes to the end of the segment that has room. -/
namespace BasisDB.Storage.Wal

variable {crc32 : List UInt8 → UInt32} {wal wal' : Wal} {disk : Disk} {kind : RecordKind}
  {payload : List UInt8} {lsn : Lsn}

/-- The log at the start of its next segment. -/
def nextSegment (wal : Wal) : Wal :=
  { wal with
    dir := openSegment wal.dir (wal.activeId + 1)
    activeId := wal.activeId + 1
    activeLen := 0 }

/-- The log with one more record in its active segment. -/
def push (crc32 : List UInt8 → UInt32) (wal : Wal) (record : Record) : Wal :=
  { wal.write (recordBytes crc32 record) with
    activeLen := wal.activeLen + (recordBytes crc32 record).length
    totalLen := wal.totalLen + (recordBytes crc32 record).length }

/-- An append that is within the limits of the log. -/
structure WithinLimits (wal : Wal) (payload : List UInt8) : Prop where
  payload_le : payload.length ≤ u32Max
  total_le : wal.totalLen + (headerLen + payload.length) ≤ wal.options.maxSize.toNat
  record_le : headerLen + payload.length ≤ wal.options.segmentSize.toNat

/-- The active segment has no room for the record. -/
def NeedsRotation (wal : Wal) (payload : List UInt8) : Prop :=
  wal.activeLen ≠ 0 ∧
    wal.options.segmentSize.toNat < wal.activeLen + (headerLen + payload.length)

/-- An empty segment has room for every record within the limits. -/
theorem WithinLimits.fits (h : wal.WithinLimits payload) (hroom : ¬ wal.NeedsRotation payload) :
    wal.activeLen + (headerLen + payload.length) ≤ wal.options.segmentSize.toNat := by
  by_contra hover
  apply hroom
  refine ⟨?_, not_le.mp hover⟩
  intro hempty
  rw [hempty, Nat.zero_add] at hover
  exact hover h.record_le

/-- The disk lets the log go on to its next segment. -/
structure Rotates (wal : Wal) (disk : Disk) : Prop where
  synced : disk.syncActive = true
  id_lt : wal.activeId < u64Max
  created : disk.createSegment = true
  listed : disk.syncDir = true

/-- The disk fails to write the record, or to sync it where every append is synced. -/
def WriteFails (wal : Wal) (disk : Disk) : Prop :=
  disk.writeFails ≠ none ∨ wal.options.syncOnAppend = true ∧ disk.syncAppend = false

/-- The log with an empty segment behind the active one. -/
def openNext (wal : Wal) : Wal := { wal with dir := openSegment wal.dir (wal.activeId + 1) }

/-- What an append on a healthy log can come to. -/
inductive AppendOutcome (crc32 : List UInt8 → UInt32) (wal : Wal) (disk : Disk)
    (kind : RecordKind) (payload : List UInt8) : Wal × Except WalError Lsn → Prop
  | overLimits (error : WalError) (hover : ¬ wal.WithinLimits payload) :
      AppendOutcome crc32 wal disk kind payload (wal, .error error)
  | activeNotSynced (error : WalError) (hwithin : wal.WithinLimits payload)
      (hneeds : wal.NeedsRotation payload) (hsync : disk.syncActive = false) :
      AppendOutcome crc32 wal disk kind payload ({ wal with poisoned := true }, .error error)
  | nextNotCreated (error : WalError) (hneeds : wal.NeedsRotation payload)
      (hsync : disk.syncActive = true)
      (hnot : ¬ wal.activeId < u64Max ∨ disk.createSegment = false) :
      AppendOutcome crc32 wal disk kind payload (wal, .error error)
  | nextNotListed (error : WalError) (hneeds : wal.NeedsRotation payload)
      (hsync : disk.syncActive = true) (hdir : disk.syncDir = false) :
      AppendOutcome crc32 wal disk kind payload (wal.openNext, .error error)
  | writeFailed (error : WalError) (broken : Wal) (hwithin : wal.WithinLimits payload)
      (hrotates : wal.NeedsRotation payload → wal.Rotates disk) (hfails : wal.WriteFails disk)
      (hpoisoned : broken.poisoned = true) :
      AppendOutcome crc32 wal disk kind payload (broken, .error error)
  | appended (base : Wal) (hwithin : wal.WithinLimits payload)
      (hrotates : wal.NeedsRotation payload → wal.Rotates disk) (hworks : ¬ wal.WriteFails disk)
      (hbase : base = wal ∧ ¬ wal.NeedsRotation payload ∨
        base = wal.nextSegment ∧ wal.NeedsRotation payload) :
      AppendOutcome crc32 wal disk kind payload
        (base.push crc32 ⟨kind, payload⟩, .ok ⟨base.activeId, base.activeLen⟩)

theorem uint64_le_u64Max (n : UInt64) : n.toNat ≤ u64Max := by
  have hlt := n.toNat_lt
  unfold u64Max
  omega

theorem sync_ok {synced : Bool} (h : wal.sync synced = (wal', .ok ())) :
    wal' = wal ∧ wal.poisoned = false := by
  cases hp : wal.poisoned with
  | true => simp [sync, ensureHealthy, hp] at h
  | false =>
    cases synced with
    | false => simp [sync, ensureHealthy, hp] at h
    | true =>
      simp only [sync, ensureHealthy, hp, Bool.false_eq_true, if_false, if_true, Prod.mk.injEq,
        and_true] at h
      exact ⟨h.symm, rfl⟩

theorem encodedLen_ok {n len : ℕ} (h : encodedLen n = .ok len) :
    n ≤ u32Max ∧ len = headerLen + n := by
  unfold encodedLen at h
  split_ifs at h with hle
  cases hadd : checkedAdd headerLen n with
  | none => simp [hadd, okOr] at h
  | some m =>
    obtain ⟨rfl, -⟩ := checkedAdd_some hadd
    simp only [hadd, okOr, Except.ok.injEq] at h
    exact ⟨hle, h.symm⟩

theorem checkedAddLen_ok {a b c : ℕ} (h : checkedAddLen a b = .ok c) :
    c = a + b ∧ a + b ≤ u64Max := by
  unfold checkedAddLen at h
  cases hadd : checkedAdd a b with
  | none => simp [hadd, okOr] at h
  | some m =>
    simp only [hadd, okOr, Except.ok.injEq] at h
    rw [← h]
    exact checkedAdd_some hadd

theorem encodeRecord_eq (h : payload.length ≤ u32Max) :
    encodeRecord crc32 kind payload = .ok (recordBytes crc32 ⟨kind, payload⟩) := by
  have hsum : headerLen + payload.length ≤ u64Max := by
    unfold u32Max at h
    unfold headerLen u64Max
    omega
  simp only [encodeRecord, encodedLen, if_pos h, checkedAdd_of_le hsum, okOr, bind, Except.bind]

theorem sync_eq (hhealthy : wal.poisoned = false) (synced : Bool) :
    wal.sync synced = if synced then (wal, .ok ())
      else ({ wal with poisoned := true }, .error (.io (.segment wal.activeId))) := by
  simp only [sync, ensureHealthy, hhealthy, Bool.false_eq_true, if_false]

/-- Over the limits, nothing happens. -/
theorem append_over (hhealthy : wal.poisoned = false) (hover : ¬ wal.WithinLimits payload) :
    ∃ error, wal.append crc32 disk kind payload = (wal, .error error) := by
  unfold append
  simp only [ensureHealthy, hhealthy, Bool.false_eq_true, if_false]
  cases hencoded : encodedLen payload.length with
  | error e => exact ⟨e, rfl⟩
  | ok recordLen =>
    obtain ⟨hlen, rfl⟩ := encodedLen_ok hencoded
    dsimp only
    cases htotal : checkedAddLen wal.totalLen (headerLen + payload.length) with
    | error e => exact ⟨e, rfl⟩
    | ok nextTotal =>
      obtain ⟨rfl, -⟩ := checkedAddLen_ok htotal
      dsimp only
      by_cases hfull : wal.options.maxSize.toNat < wal.totalLen + (headerLen + payload.length)
      · rw [if_pos hfull]
        exact ⟨_, rfl⟩
      · have hlarge : wal.options.segmentSize.toNat < headerLen + payload.length := by
          by_contra hfits
          exact hover ⟨hlen, not_lt.mp hfull, not_lt.mp hfits⟩
        rw [if_neg hfull, rotateIfNeeded, if_pos hlarge]
        exact ⟨_, rfl⟩

theorem rotateIfNeeded_within (hwithin : wal.WithinLimits payload)
    (hlen : wal.activeLen ≤ wal.totalLen) [Decidable (wal.NeedsRotation payload)] :
    wal.rotateIfNeeded disk (headerLen + payload.length) =
      if wal.NeedsRotation payload then wal.rotate disk else (wal, .ok ()) := by
  have hmax := uint64_le_u64Max wal.options.maxSize
  have htotal := hwithin.total_le
  have hnext : wal.activeLen + (headerLen + payload.length) ≤ u64Max := by omega
  unfold rotateIfNeeded
  simp only [if_neg (not_lt.mpr hwithin.record_le), checkedAdd_of_le hnext, NeedsRotation]
  congr

/-- Within the limits, an append makes room and writes the record. -/
theorem append_within (hhealthy : wal.poisoned = false) (hwithin : wal.WithinLimits payload)
    {base : Wal} :
    (∀ error, wal.rotateIfNeeded disk (headerLen + payload.length) = (base, .error error) →
      wal.append crc32 disk kind payload = (base, .error error)) ∧
    (wal.rotateIfNeeded disk (headerLen + payload.length) = (base, .ok ()) →
      wal.append crc32 disk kind payload = base.appendActive crc32 disk kind payload
        (wal.totalLen + (headerLen + payload.length))) := by
  have hmax := uint64_le_u64Max wal.options.maxSize
  have htotal := hwithin.total_le
  have hlen : encodedLen payload.length = .ok (headerLen + payload.length) := by
    rw [encodedLen, if_pos hwithin.payload_le, checkedAdd_of_le (by omega)]
    rfl
  have hnext : checkedAddLen wal.totalLen (headerLen + payload.length) =
      .ok (wal.totalLen + (headerLen + payload.length)) := by
    rw [checkedAddLen, checkedAdd_of_le (by omega)]
    rfl
  constructor
  · intro error hrotate
    simp only [append, ensureHealthy, hhealthy, Bool.false_eq_true, if_false, hlen, hnext,
      if_neg (not_lt.mpr htotal), hrotate]
  · intro hrotate
    simp only [append, ensureHealthy, hhealthy, Bool.false_eq_true, if_false, hlen, hnext,
      if_neg (not_lt.mpr htotal), hrotate]

/-- The record is written, or the handle is poisoned. -/
theorem appendActive_eq {base : Wal} (hhealthy : base.poisoned = false)
    (hpayload : payload.length ≤ u32Max)
    (hnext : base.activeLen + (headerLen + payload.length) ≤ u64Max) :
    (base.WriteFails disk ∧ ∃ broken error, broken.poisoned = true ∧
      base.appendActive crc32 disk kind payload (base.totalLen + (headerLen + payload.length)) =
        (broken, .error error)) ∨
    (¬ base.WriteFails disk ∧
      base.appendActive crc32 disk kind payload (base.totalLen + (headerLen + payload.length)) =
        (base.push crc32 ⟨kind, payload⟩, .ok ⟨base.activeId, base.activeLen⟩)) := by
  have hbytes : (recordBytes crc32 ⟨kind, payload⟩).length = headerLen + payload.length :=
    length_recordBytes ⟨kind, payload⟩
  have hadd : checkedAddLen base.activeLen (headerLen + payload.length) =
      .ok (base.activeLen + (headerLen + payload.length)) := by
    rw [checkedAddLen, checkedAdd_of_le hnext]
    rfl
  unfold appendActive WriteFails push
  simp only [encodeRecord_eq hpayload, hbytes, hadd]
  cases hwrite : disk.writeFails with
  | some written =>
    left
    exact ⟨Or.inl (by simp), _, _, rfl, rfl⟩
  | none =>
    cases hsync : base.options.syncOnAppend with
    | false =>
      right
      exact ⟨by simp, by simp [write, hsync]⟩
    | true =>
      have hpushed : (base.write (recordBytes crc32 ⟨kind, payload⟩)).poisoned = false := hhealthy
      simp only [write, hsync, if_true, sync, ensureHealthy, hhealthy, Bool.false_eq_true, if_false]
      cases hsynced : disk.syncAppend with
      | false =>
        left
        exact ⟨Or.inr ⟨trivial, rfl⟩, _, _, rfl, rfl⟩
      | true =>
        right
        exact ⟨by simp, rfl⟩

/-- Everything an append can do on a healthy log. -/
theorem append_outcome (hhealthy : wal.poisoned = false) (hlen : wal.activeLen ≤ wal.totalLen) :
    AppendOutcome crc32 wal disk kind payload (wal.append crc32 disk kind payload) := by
  classical
  by_cases hwithin : wal.WithinLimits payload
  swap
  · obtain ⟨error, happend⟩ := append_over hhealthy hwithin
    rw [happend]
    exact .overLimits error hwithin
  have hrotate : wal.rotateIfNeeded disk (headerLen + payload.length) =
      if wal.NeedsRotation payload then wal.rotate disk else (wal, .ok ()) :=
    rotateIfNeeded_within hwithin hlen
  -- what the second half does, on the segment that has room
  have hwrite (base : Wal) (hready : wal.rotateIfNeeded disk (headerLen + payload.length) =
        (base, .ok ()))
      (hbase : base = wal ∧ ¬ wal.NeedsRotation payload ∨
        base = wal.nextSegment ∧ wal.NeedsRotation payload)
      (hrotates : wal.NeedsRotation payload → wal.Rotates disk) :
      AppendOutcome crc32 wal disk kind payload (wal.append crc32 disk kind payload) := by
    have hmax := uint64_le_u64Max wal.options.maxSize
    have htotal := hwithin.total_le
    obtain ⟨hpoisoned, hoptions, htotalLen, hshort⟩ : base.poisoned = false ∧
        base.options = wal.options ∧ base.totalLen = wal.totalLen ∧
        base.activeLen ≤ wal.activeLen := by
      rcases hbase with ⟨rfl, -⟩ | ⟨rfl, -⟩
      · exact ⟨hhealthy, rfl, rfl, le_rfl⟩
      · exact ⟨hhealthy, rfl, rfl, Nat.zero_le _⟩
    have hsame : base.WriteFails disk ↔ wal.WriteFails disk := by
      rw [WriteFails, WriteFails, hoptions]
    rw [(append_within hhealthy hwithin).2 hready, ← htotalLen]
    rcases appendActive_eq hpoisoned hwithin.payload_le (by omega) with
      ⟨hfails, broken, error, hbroken, heq⟩ | ⟨hworks, heq⟩
    · rw [heq]
      exact .writeFailed error broken hwithin hrotates (hsame.mp hfails) hbroken
    · rw [heq]
      exact .appended base hwithin hrotates (fun h => hworks (hsame.mpr h)) hbase
  by_cases hneeds : wal.NeedsRotation payload
  swap
  · rw [if_neg hneeds] at hrotate
    exact hwrite wal hrotate (Or.inl ⟨rfl, hneeds⟩) (fun h => absurd h hneeds)
  rw [if_pos hneeds, rotate, sync_eq hhealthy] at hrotate
  cases hsync : disk.syncActive with
  | false =>
    simp only [hsync, Bool.false_eq_true, if_false] at hrotate
    rw [(append_within hhealthy hwithin).1 _ hrotate]
    exact .activeNotSynced _ hwithin hneeds hsync
  | true =>
    simp only [hsync, if_true] at hrotate
    by_cases hid : wal.activeId < u64Max
    swap
    · have hnone : checkedAdd wal.activeId 1 = none := if_neg (by omega)
      simp only [hnone] at hrotate
      rw [(append_within hhealthy hwithin).1 _ hrotate]
      exact .nextNotCreated _ hneeds hsync (Or.inl hid)
    have hnext : checkedAdd wal.activeId 1 = some (wal.activeId + 1) := if_pos (by omega)
    simp only [hnext] at hrotate
    cases hcreate : disk.createSegment with
    | false =>
      simp only [hcreate, Bool.false_eq_true, if_false] at hrotate
      rw [(append_within hhealthy hwithin).1 _ hrotate]
      exact .nextNotCreated _ hneeds hsync (Or.inr hcreate)
    | true =>
      cases hdir : disk.syncDir with
      | false =>
        simp only [hcreate, hdir, Bool.false_eq_true, if_false, if_true] at hrotate
        rw [(append_within hhealthy hwithin).1 _ hrotate]
        exact .nextNotListed _ hneeds hsync hdir
      | true =>
        simp only [hcreate, hdir, if_true] at hrotate
        exact hwrite _ hrotate (Or.inr ⟨rfl, hneeds⟩) (fun _ => ⟨hsync, hid, hcreate, hdir⟩)

/-- A successful append went to the active segment if it has room, else to the next one. -/
theorem append_ok (hhealthy : wal.poisoned = false) (hlen : wal.activeLen ≤ wal.totalLen)
    (h : wal.append crc32 disk kind payload = (wal', .ok lsn)) :
    wal.WithinLimits payload ∧ ∃ base : Wal,
      (base = wal ∧ ¬ wal.NeedsRotation payload ∨
        base = wal.nextSegment ∧ wal.NeedsRotation payload) ∧
      lsn = ⟨base.activeId, base.activeLen⟩ ∧ wal' = base.push crc32 ⟨kind, payload⟩ := by
  have hout : AppendOutcome crc32 wal disk kind payload (wal.append crc32 disk kind payload) :=
    append_outcome hhealthy hlen
  rw [h] at hout
  cases hout with
  | appended base hwithin _ _ hbase => exact ⟨hwithin, base, hbase, rfl, rfl⟩

end BasisDB.Storage.Wal
