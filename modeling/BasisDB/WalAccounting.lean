import BasisDB.CommandRuns
import BasisDB.WalOpen
import BasisDB.WalRecovery

/-! The counters of an open log over any calls: they agree with the files as long as no write
or sync of the active segment failed, an append that is refused changes no record, and after
a failed write or sync the handle refuses everything. -/
namespace BasisDB.Storage.Wal

variable {crc32 : List UInt8 → UInt32} {wal : Wal} {disk : Disk} {kind : RecordKind}
  {payload : List UInt8} {older : List (List UInt8)} {active : List UInt8}
  {spare : List (List UInt8)}

theorem openDir_accounts {dir : Directory} {options : WalOptions}
    (h : openDir crc32 dir options = .ok wal) :
    wal.options = options ∧ ∃ active, wal.Accounts (olderFiles dir) active [] := by
  unfold openDir at h
  cases hvalid : validateOptions options with
  | error e => simp [hvalid, bind, Except.bind] at h
  | ok u =>
    simp only [hvalid, bind, Except.bind] at h
    cases hrecover : recover crc32 dir options.segmentSize.toNat with
    | error e => simp [hrecover] at h
    | ok recovered =>
      obtain ⟨dir', activeId, activeLen⟩ := recovered
      obtain ⟨active, hfiles, hid, hlen, hsegment⟩ := recover_ok hrecover
      simp only [hrecover] at h
      cases htotal : Storage.totalLen dir' with
      | error e => simp [htotal] at h
      | ok total =>
        have hsum := totalLen_ok hfiles htotal
        simp only [htotal] at h
        split_ifs at h with hfull
        obtain rfl := Except.ok.inj h
        have hget : dir'.get activeId = some active := by
          rw [hfiles.get, hid, List.getElem?_append_right le_rfl, Nat.sub_self]
          rfl
        refine ⟨rfl, active, ?_, Or.inl rfl, hid, hlen, hsum, hsegment, not_lt.mp hfull, rfl⟩
        show (openSegment dir' activeId).IsNumbered _
        rw [openSegment_of_get hget]
        exact hfiles

section Records

theorem drainSegments_congr {dir dir' : Directory} {segmentSize : ℕ} {ids : List ℕ}
    (h : ∀ i ∈ ids, dir'.get i = dir.get i) :
    drainSegments crc32 dir' segmentSize ids = drainSegments crc32 dir segmentSize ids := by
  induction ids with
  | nil => rfl
  | cons i ids ih =>
    have hfirst : SegmentReader.openFile dir' i segmentSize =
        SegmentReader.openFile dir i segmentSize := by
      rw [SegmentReader.openFile, SegmentReader.openFile, h i List.mem_cons_self]
    rw [drainSegments, drainSegments, hfirst, ih (fun j hj => h j (List.mem_cons_of_mem _ hj))]

/-- Segments without records at the end add nothing to what is streamed. -/
theorem drainSegments_append {dir : Directory} {segmentSize : ℕ} {ids last : List ℕ}
    (h : drainSegments crc32 dir segmentSize last = ([], none)) :
    drainSegments crc32 dir segmentSize (ids ++ last) =
      drainSegments crc32 dir segmentSize ids := by
  induction ids with
  | nil => exact h
  | cons i ids ih => rw [List.cons_append, drainSegments, drainSegments, ih]

theorem drainSegments_empty {dir : Directory} {segmentSize i : ℕ} (h : dir.get i = some []) :
    drainSegments crc32 dir segmentSize [i] = ([], none) := by
  have hdrain : SegmentReader.drain crc32 ⟨i, segmentSize, 0, 0, []⟩ = ([], none) := by
    apply SegmentReader.drain_none
    simp only [SegmentReader.nextRecord, readOne_nil]
    rfl
  rw [drainSegments, SegmentReader.openFile, h]
  simp only [List.length_nil, hdrain, drainSegments, List.append_nil]

/-- An empty segment behind the active one is not seen by a reader. -/
theorem Accounts.records_openNext (h : wal.Accounts older active spare) :
    wal.openNext.records crc32 = wal.records crc32 := by
  rcases h.spare with hspare | hspare
  · have hfiles := h.files
    rw [hspare] at hfiles
    have hnext := h.openNext_files
    have hget : wal.openNext.dir.get (older ++ [active]).length = some [] := by
      show (openSegment wal.dir (wal.activeId + 1)).get _ = _
      rw [hnext.get, List.getElem?_append_right le_rfl, Nat.sub_self]
      rfl
    have hsame : ∀ i ∈ List.range' 0 (older ++ [active]).length,
        wal.openNext.dir.get i = wal.dir.get i := by
      intro i hi
      show (openSegment wal.dir (wal.activeId + 1)).get i = _
      have hlt : i < (older ++ [active]).length := by simpa using hi
      rw [hnext.get, hfiles.get, List.getElem?_append_left hlt]
    rw [records_eq h.openNext.healthy hnext, records_eq h.healthy hfiles, List.length_append,
      List.length_singleton, List.range'_concat, Nat.one_mul, Nat.zero_add,
      drainSegments_append (drainSegments_empty hget), drainSegments_congr hsame]
    rfl
  · have heq : wal.openNext = wal := by
      unfold Wal.openNext
      rw [h.openNext_eq hspare]
    rw [heq]

end Records

/-- A call on an open log, with the answers of the disk during it. -/
inductive Call where
  | append (disk : Disk) (kind : RecordKind) (payload : List UInt8)
  | sync (synced : Bool)

def call (crc32 : List UInt8 → UInt32) (wal : Wal) : Call → Wal × Except WalError (Option Lsn)
  | .append disk kind payload => (wal.append crc32 disk kind payload).map id (Except.map some)
  | .sync synced => (wal.sync synced).map id (Except.map fun _ => none)

theorem call_append_fst (wal : Wal) (disk : Disk) (kind : RecordKind) (payload : List UInt8) :
    (wal.call crc32 (.append disk kind payload)).1 = (wal.append crc32 disk kind payload).1 := rfl

/-- The log after some calls. -/
def run (crc32 : List UInt8 → UInt32) (wal : Wal) (calls : List Call) : Wal :=
  CommandRuns.exec (call crc32) wal calls

/-- A write or a sync of the active segment fails during the call. -/
def Breaks (wal : Wal) : Call → Prop
  | .append disk _ payload => wal.WithinLimits payload ∧
      (wal.NeedsRotation payload ∧ disk.syncActive = false ∨
        (wal.NeedsRotation payload → wal.Rotates disk) ∧ wal.WriteFails disk)
  | .sync synced => synced = false

/-- On a disk that works, every append within the limits succeeds. -/
def Accepts (crc32 : List UInt8 → UInt32) (wal : Wal) : Prop :=
  ∀ kind payload, wal.WithinLimits payload →
    ∃ wal' lsn, wal.append crc32 {} kind payload = (wal', .ok lsn)

/-- Every call on the handle answers that it is poisoned. -/
def Refuses (crc32 : List UInt8 → UInt32) (wal : Wal) : Prop :=
  (∀ disk kind payload, wal.append crc32 disk kind payload = (wal, .error .poisoned)) ∧
    (∀ synced, wal.sync synced = (wal, .error .poisoned)) ∧
    wal.records crc32 = .error .poisoned

theorem refuses_of_poisoned (h : wal.poisoned = true) : wal.Refuses crc32 := by
  have hhealthy : wal.ensureHealthy = .error .poisoned := if_pos h
  refine ⟨?_, ?_, ?_⟩
  · intro disk kind payload
    simp only [append, hhealthy]
  · intro synced
    simp only [sync, hhealthy]
  · simp only [records, hhealthy, bind, Except.bind]

theorem call_poisoned (h : wal.poisoned = true) (c : Call) : (wal.call crc32 c).1 = wal := by
  have hrefuses : wal.Refuses crc32 := refuses_of_poisoned h
  obtain ⟨happend, hsync, -⟩ := hrefuses
  cases c with
  | append disk kind payload => simp only [call, happend, Prod.map_fst, id]
  | sync synced => simp only [call, hsync, Prod.map_fst, id]

/-- A poisoned handle stays as it is. -/
theorem run_poisoned (h : wal.poisoned = true) (calls : List Call) :
    wal.run crc32 calls = wal := by
  apply CommandRuns.exec_invariant (P := fun w => w = wal) (call crc32) _ rfl
  intro w c hw
  rw [hw]
  exact call_poisoned h c

namespace Accounts
variable (h : wal.Accounts older active spare)
include h

/-- A failed write or sync, and nothing else, poisons the handle. -/
theorem call_poisoned_iff (c : Call) : (wal.call crc32 c).1.poisoned = true ↔ wal.Breaks c := by
  cases c with
  | sync synced =>
    simp only [call, sync_eq h.healthy, Breaks]
    cases synced with
    | false => simp
    | true => simp [h.healthy]
  | append disk kind payload =>
    rw [call_append_fst]
    have hout : AppendOutcome crc32 wal disk kind payload (wal.append crc32 disk kind payload) :=
      append_outcome h.healthy h.activeLen_le
    generalize wal.append crc32 disk kind payload = out at hout
    unfold Breaks
    cases hout with
    | overLimits error hover => simp [h.healthy, hover]
    | activeNotSynced error hwithin hneeds hsync => simp [hwithin, hneeds, hsync]
    | nextNotCreated error hneeds hsync hnot =>
      have hno : ¬ wal.Rotates disk := by
        intro hrotates
        rcases hnot with hid | hcreate
        · exact hid hrotates.id_lt
        · cases hcreate.symm.trans hrotates.created
      simp [h.healthy, hneeds, hsync, hno]
    | nextNotListed error hneeds hsync hdir =>
      have hno : ¬ wal.Rotates disk := fun hrotates => by cases hdir.symm.trans hrotates.listed
      simp [h.openNext.healthy, hneeds, hsync, hno]
    | writeFailed error broken hwithin hrotates hfails hpoisoned =>
      simp only [hpoisoned, true_iff]
      exact ⟨hwithin, Or.inr ⟨hrotates, hfails⟩⟩
    | appended base hwithin hrotates hworks hbase =>
      have hhealthy : (base.push crc32 ⟨kind, payload⟩).poisoned = false := by
        rcases hbase with ⟨rfl, -⟩ | ⟨rfl, -⟩ <;> exact h.healthy
      rw [hhealthy]
      simp only [Bool.false_eq_true, false_iff]
      rintro ⟨-, ⟨hneeds, hsync⟩ | ⟨-, hfails⟩⟩
      · cases hsync.symm.trans (hrotates hneeds).synced
      · exact hworks hfails

theorem refused {refused : Wal} {error : WalError}
    (happend : wal.append crc32 disk kind payload = (refused, .error error))
    (hhealthy : refused.poisoned = false) : refused = wal ∨ refused = wal.openNext := by
  have hout : AppendOutcome crc32 wal disk kind payload (wal.append crc32 disk kind payload) :=
    append_outcome h.healthy h.activeLen_le
  rw [happend] at hout
  cases hout with
  | overLimits => exact Or.inl rfl
  | activeNotSynced => cases hhealthy
  | nextNotCreated => exact Or.inl rfl
  | nextNotListed => exact Or.inr rfl
  | writeFailed _ _ _ _ _ hpoisoned => cases hpoisoned.symm.trans hhealthy

theorem accepts (hids : wal.activeId < u64Max ∨ ∀ f ∈ older, f ≠ []) : wal.Accepts crc32 := by
  intro kind payload hwithin
  have hout : AppendOutcome crc32 wal {} kind payload (wal.append crc32 {} kind payload) :=
    append_outcome h.healthy h.activeLen_le
  generalize wal.append crc32 {} kind payload = out at hout
  cases hout with
  | overLimits _ hover => exact absurd hwithin hover
  | activeNotSynced _ _ _ hsync => cases hsync
  | nextNotCreated _ hneeds _ hnot =>
    rcases hnot with hid | hcreate
    · exact absurd (hids.elim id (fun holder => h.activeId_lt holder hneeds.1)) hid
    · cases hcreate
  | nextNotListed _ _ _ hdir => cases hdir
  | writeFailed _ _ _ _ hfails =>
    rcases hfails with hwrite | ⟨-, hsync⟩
    · exact absurd rfl hwrite
    · cases hsync
  | appended => exact ⟨_, _, rfl⟩

end Accounts

/-- The counters are right as long as the handle is healthy; `packed` says that the directory
that was opened had no empty segment before its last one. -/
def Accounted (options : WalOptions) (packed : Prop) (wal : Wal) : Prop :=
  wal.poisoned = false → wal.options = options ∧ ∃ older active spare,
    wal.Accounts older active spare ∧ (packed → ∀ f ∈ older, f ≠ [])

theorem Accounted.call {options : WalOptions} {packed : Prop} (h : wal.Accounted options packed)
    (c : Call) : (wal.call crc32 c).1.Accounted options packed := by
  intro hhealthy
  cases hpoisoned : wal.poisoned with
  | true =>
    rw [call_poisoned hpoisoned] at hhealthy
    cases hpoisoned.symm.trans hhealthy
  | false =>
    obtain ⟨hoptions, older, active, spare, haccounts, hpacked⟩ := h hpoisoned
    cases c with
    | append disk kind payload =>
      have hout : AppendOutcome crc32 wal disk kind payload
          (wal.append crc32 disk kind payload) :=
        append_outcome hpoisoned haccounts.activeLen_le
      obtain ⟨hsame, older', active', spare', haccounts', hkeeps⟩ :=
        haccounts.append hout hhealthy
      exact ⟨hsame.trans hoptions, older', active', spare', haccounts', fun hp =>
        hkeeps (hpacked hp)⟩
    | sync synced =>
      cases synced with
      | false =>
        simp only [Wal.call, sync_eq hpoisoned] at hhealthy
        cases hhealthy
      | true =>
        simp only [Wal.call, sync_eq hpoisoned]
        exact ⟨hoptions, older, active, spare, haccounts, hpacked⟩

theorem run_accounted {dir : Directory} {options : WalOptions} {opened : Wal}
    (hopen : openDir crc32 dir options = .ok opened) (calls : List Call) :
    (opened.run crc32 calls).Accounted options (∀ f ∈ olderFiles dir, f ≠ []) := by
  apply CommandRuns.exec_invariant (call crc32) (fun w c hw => hw.call c)
  intro _
  obtain ⟨hoptions, active, haccounts⟩ := openDir_accounts hopen
  exact ⟨hoptions, _, active, [], haccounts, id⟩

/-- Whatever was called on a log since it was opened: while the handle is healthy, the
counters are those of the files, the sizes are kept, a refused append changes no record and
the next append within the limits succeeds; a failed write or sync is final. -/
theorem accounting_over_runs (dir : Directory) (options : WalOptions) (opened : Wal)
    (hopen : openDir crc32 dir options = .ok opened) (calls : List Call) :
    let wal := opened.run crc32 calls
    (wal.poisoned = false →
      (∃ files, wal.dir.IsNumbered files ∧ segmentIds wal.dir = .ok (List.range' 0 files.length) ∧
        wal.activeId < files.length ∧ files.length ≤ wal.activeId + 2 ∧
        files[wal.activeId]?.map List.length = some wal.activeLen ∧
        (files.map List.length).sum = wal.totalLen ∧
        (∀ f ∈ files, f.length ≤ options.segmentSize.toNat) ∧
        wal.totalLen ≤ options.maxSize.toNat) ∧
      (wal.activeId < u64Max ∨ (∀ f ∈ olderFiles dir, f ≠ []) → wal.Accepts crc32) ∧
      ∀ disk kind payload refused error,
        wal.append crc32 disk kind payload = (refused, .error error) →
        refused.poisoned = false →
        refused.records crc32 = wal.records crc32 ∧
          (wal.activeId < u64Max ∨ (∀ f ∈ olderFiles dir, f ≠ []) → refused.Accepts crc32)) ∧
    (∀ c, wal.poisoned = false → wal.Breaks c →
      ∀ later, ((wal.call crc32 c).1.run crc32 later).Refuses crc32) := by
  intro wal
  have haccounted := run_accounted hopen calls
  refine ⟨?_, ?_⟩
  · intro hhealthy
    obtain ⟨hoptions, older, active, spare, haccounts, hpacked⟩ := haccounted hhealthy
    have hlen : (older ++ active :: spare).length = wal.activeId + 1 + spare.length := by
      rw [List.length_append, List.length_cons, haccounts.activeId]
      omega
    have hspare : spare.length ≤ 1 ∧ (spare.map List.length).sum = 0 ∧
        ∀ f ∈ spare, f.length = 0 := by
      rcases haccounts.spare with rfl | rfl <;> simp
    refine ⟨⟨_, haccounts.files, segmentIds_eq haccounts.files, ?_, ?_, ?_, ?_, ?_, ?_⟩, ?_, ?_⟩
    · omega
    · omega
    · rw [haccounts.activeId, List.getElem?_append_right le_rfl, Nat.sub_self, haccounts.activeLen]
      rfl
    · rw [haccounts.totalLen]
      simp [hspare.2.1]
    · intro f hf
      rw [← hoptions]
      rcases List.mem_append.mp hf with hf | hf
      · exact haccounts.segment_le f (List.mem_append_left _ hf)
      rcases List.mem_cons.mp hf with rfl | hf
      · exact haccounts.segment_le f (List.mem_append_right _ (by simp))
      · rw [hspare.2.2 f hf]
        exact Nat.zero_le _
    · rw [← hoptions]
      exact haccounts.total_le
    · exact fun hids => haccounts.accepts (hids.imp_right hpacked)
    · intro disk kind payload refused error happend hrefused
      rcases haccounts.refused happend hrefused with rfl | rfl
      · exact ⟨rfl, fun hids => haccounts.accepts (hids.imp_right hpacked)⟩
      · exact ⟨haccounts.records_openNext,
          fun hids => haccounts.openNext.accepts (hids.imp_right hpacked)⟩
  · intro c hhealthy hbreaks later
    obtain ⟨-, older, active, spare, haccounts, -⟩ := haccounted hhealthy
    have hpoisoned : (wal.call crc32 c).1.poisoned = true :=
      (haccounts.call_poisoned_iff c).mpr hbreaks
    rw [run_poisoned hpoisoned]
    exact refuses_of_poisoned hpoisoned

def smallCall (disk : Disk) : Call := .append disk smallRecord.kind smallRecord.payload

/-- A log whose first segment has no room for a third record. -/
def fullSegment : Wal := (created smallOptions).run crc32Ieee [smallCall {}, smallCall {}]

/-- The directory cannot be synced when the next segment is created. -/
def unlisted : Wal := (fullSegment.call crc32Ieee (smallCall { syncDir := false })).1

/-- Three bytes of the third record are written. -/
def torn : Wal := (fullSegment.call crc32Ieee (smallCall { writeFails := some 3 })).1

theorem accounting_over_runs_fullSegment :
    unlisted.records crc32Ieee = fullSegment.records crc32Ieee ∧
    unlisted.dir.get 1 = some [] ∧ unlisted.Accepts crc32Ieee ∧
    (torn.run crc32Ieee [.sync true, smallCall {}]).Refuses crc32Ieee := by
  have hvalid : validateOptions smallOptions = .ok () := by decide +kernel
  have hopen : openDir crc32Ieee OrdMap.empty smallOptions = .ok (created smallOptions) :=
    openDir_empty hvalid
  have hfull : fullSegment.poisoned = false := by decide +kernel
  have happend : fullSegment.append crc32Ieee { syncDir := false } smallRecord.kind
      smallRecord.payload = (unlisted, .error (.io .dir)) :=
    Prod.ext (call_append_fst _ _ _ _).symm (by decide +kernel)
  have hunlisted : unlisted.poisoned = false := by decide +kernel
  have hid : fullSegment.activeId < u64Max := by decide +kernel
  have hbreaks : fullSegment.Breaks (smallCall { writeFails := some 3 }) := by
    refine ⟨⟨by decide, by decide +kernel, by decide +kernel⟩, Or.inr ⟨?_, Or.inl (by simp)⟩⟩
    exact fun _ => ⟨rfl, hid, rfl, rfl⟩
  obtain ⟨hhealthy, hbroken⟩ := accounting_over_runs OrdMap.empty smallOptions _ hopen
    [smallCall {}, smallCall {}]
  obtain ⟨-, -, hrefused⟩ := hhealthy hfull
  obtain ⟨hrecords, haccepts⟩ := hrefused _ _ _ unlisted _ happend hunlisted
  exact ⟨hrecords, by decide +kernel, haccepts (Or.inl hid),
    hbroken (smallCall { writeFails := some 3 }) hfull hbreaks [.sync true, smallCall {}]⟩

end BasisDB.Storage.Wal
