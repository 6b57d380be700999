import BasisDB.WalLayout

/-! What opening a directory establishes, whatever the directory holds: the segments are
numbered from zero, each within its size, the last one cut to the length that was scanned,
and the lengths add up. -/
namespace BasisDB.Storage

variable {crc32 : List UInt8 → UInt32} {dir dir' : Directory} {segmentSize : ℕ}
  {files : List (List UInt8)}

/-- The length a scan ends with. -/
def SegmentScan.len : SegmentScan → ℕ
  | .clean len => len
  | .incompleteTail len => len

/-- A scan that succeeds stays within the segment and the file, and covers a clean file. -/
theorem scanFrom_len {segmentId physicalLen offset : ℕ} {file : List UInt8} {scan : SegmentScan}
    (hoffset : offset ≤ segmentSize) (hphysical : offset + file.length = physicalLen)
    (h : scanFrom crc32 segmentId segmentSize physicalLen offset file = .ok scan) :
    scan.len ≤ segmentSize ∧ scan.len ≤ physicalLen ∧
      (scan = .clean scan.len → scan.len = physicalLen) := by
  induction hn : file.length using Nat.strong_induction_on generalizing offset file with
  | _ n ih =>
    cases hread : readOne crc32 file ⟨segmentId, offset⟩ segmentSize physicalLen with
    | error e =>
      rw [scanFrom] at h
      split at h
      · cases h
      all_goals
        rename_i heq
        rw [hread] at heq
        cases heq
    | ok out =>
      obtain ⟨one, rest⟩ := out
      rcases readOne_cases hread with ⟨rfl, rfl⟩ | rfl | ⟨_, nextOffset, rfl, hsegment, hlt, hends⟩
      · rw [scanFrom_eof hread] at h
        rw [← Except.ok.inj h]
        refine ⟨hoffset, ?_, fun _ => hphysical⟩
        show offset ≤ physicalLen
        omega
      · rw [scanFrom_incomplete hread] at h
        rw [← Except.ok.inj h]
        refine ⟨hoffset, ?_, ?_⟩
        · show offset ≤ physicalLen
          omega
        · intro hclean
          cases hclean
      · rw [scanFrom_record hread] at h
        have hrest : nextOffset + rest.length = physicalLen := hends.trans hphysical
        have hless : rest.length < n := by
          dsimp only at hlt hends
          omega
        exact ih _ hless hsegment hrest h rfl

theorem validLen_len {segmentId : ℕ} {file : List UInt8} {scan : SegmentScan}
    (hfile : dir.get segmentId = some file)
    (h : validLen crc32 dir segmentId segmentSize = .ok scan) :
    scan.len ≤ segmentSize ∧ scan.len ≤ file.length ∧
      (scan = .clean scan.len → scan.len = file.length) := by
  unfold validLen at h
  rw [hfile] at h
  exact scanFrom_len (Nat.zero_le _) (Nat.zero_add _) h

theorem checkIds_ok {k : ℕ} {ids : List ℕ} (h : checkIds k ids = .ok ()) :
    ids = List.range' k ids.length := by
  induction ids generalizing k with
  | nil => rfl
  | cons found ids ih =>
    rw [checkIds] at h
    split_ifs at h with hfound
    obtain rfl : found = k := not_ne_iff.mp hfound
    rw [List.length_cons, List.range'_succ, ← ih h]

/-- Segment ids that pass the check count the files of the directory. -/
theorem segmentIds_ok {ids : List ℕ} (h : segmentIds dir = .ok ids) :
    dir.IsNumbered (dir.toList.map Prod.snd) := by
  unfold segmentIds at h
  cases hcheck : checkIds 0 (dir.toList.map Prod.fst) with
  | error e => simp [hcheck, bind, Except.bind] at h
  | ok u =>
    have hkeys := checkIds_ok hcheck
    rw [List.length_map] at hkeys
    exact OrdMap.isNumbered_of_keys hkeys

theorem addLens_ok {k total len : ℕ} (hget : ∀ i, dir.get (k + i) = files[i]?)
    (h : addLens dir total (List.range' k files.length) = .ok len) :
    len = total + (files.map List.length).sum := by
  induction files generalizing k total with
  | nil => exact (Except.ok.inj h).symm
  | cons file files ih =>
    have hfile : dir.get k = some file := hget 0
    have hrest : ∀ i, dir.get (k + 1 + i) = files[i]? := OrdMap.get_from_succ hget
    rw [List.length_cons, List.range'_succ, addLens] at h
    cases hsum : checkedAdd total file.length with
    | none => simp [segmentLen, hfile, hsum, okOr, bind, Except.bind] at h
    | some sum =>
      obtain ⟨rfl, -⟩ := checkedAdd_some hsum
      simp only [segmentLen, hfile, hsum, okOr, bind, Except.bind] at h
      rw [ih hrest h, List.map_cons, List.sum_cons, Nat.add_assoc]

theorem totalLen_ok {len : ℕ} (hfiles : dir.IsNumbered files) (h : totalLen dir = .ok len) :
    len = (files.map List.length).sum := by
  unfold totalLen at h
  simp only [segmentIds_eq hfiles, bind, Except.bind] at h
  rw [addLens_ok hfiles.get_from_zero h, Nat.zero_add]

/-- Recovery goes over full segments that fit, and keeps the valid part of the last one. -/
theorem recoverFrom_ok {k activeId activeLen : ℕ} (hget : ∀ i, dir.get (k + i) = files[i]?)
    (h : recoverFrom crc32 dir segmentSize (List.range' k files.length) =
      .ok (dir', activeId, activeLen)) :
    ∃ older last, files = older ++ [last] ∧ activeId = k + older.length ∧
      (∀ f ∈ older, f.length ≤ segmentSize) ∧ activeLen ≤ segmentSize ∧
      activeLen ≤ last.length ∧
      (dir' = dir ∧ activeLen = last.length ∨ dir' = dir.insert activeId (last.take activeLen)) := by
  induction files generalizing k with
  | nil => cases h
  | cons file files ih =>
    have hfile : dir.get k = some file := hget 0
    rw [List.length_cons, List.range'_succ, recoverFrom] at h
    cases hvalid : validLen crc32 dir k segmentSize with
    | error e => simp [hvalid, bind, Except.bind] at h
    | ok scan =>
      obtain ⟨hsegment, hlen, hclean⟩ := validLen_len hfile hvalid
      simp only [hvalid, bind, Except.bind] at h
      cases files with
      | nil =>
        refine ⟨[], file, rfl, ?_⟩
        cases scan with
        | clean len =>
          simp only [List.length_nil, List.range'_zero, if_true, Except.ok.injEq,
            Prod.mk.injEq] at h
          obtain ⟨rfl, rfl, rfl⟩ := h
          exact ⟨rfl, by simp, hsegment, hlen, Or.inl ⟨rfl, hclean rfl⟩⟩
        | incompleteTail len =>
          simp only [List.length_nil, List.range'_zero, ne_eq, not_true_eq_false, if_false,
            truncateSegment, hfile, Except.ok.injEq, Prod.mk.injEq] at h
          obtain ⟨rfl, rfl, rfl⟩ := h
          exact ⟨rfl, by simp, hsegment, hlen, Or.inr rfl⟩
      | cons next files =>
        have hmore : List.range' (k + 1) (next :: files).length ≠ [] := by simp
        have hrest : ∀ i, dir.get (k + 1 + i) = (next :: files)[i]? := OrdMap.get_from_succ hget
        cases scan with
        | clean len =>
          dsimp only at h
          rw [if_neg hmore] at h
          obtain ⟨older, last, hfiles, hid, holder, hactive⟩ := ih hrest h
          refine ⟨file :: older, last, by rw [hfiles, List.cons_append], ?_, ?_, hactive⟩
          · rw [hid, List.length_cons]
            omega
          · intro f hf
            rcases List.mem_cons.mp hf with rfl | hf
            · rw [← hclean rfl]
              exact hsegment
            · exact holder f hf
        | incompleteTail len =>
          dsimp only at h
          rw [if_pos hmore] at h
          cases h

/-- The segment files before the last one. -/
def olderFiles (dir : Directory) : List (List UInt8) := (dir.toList.map Prod.snd).dropLast

/-- The directory after recovery: the older segments as they were, and the valid part of the
last one. -/
theorem recover_ok {activeId activeLen : ℕ}
    (h : recover crc32 dir segmentSize = .ok (dir', activeId, activeLen)) :
    ∃ active, dir'.IsNumbered (olderFiles dir ++ [active]) ∧ activeId = (olderFiles dir).length ∧
      activeLen = active.length ∧ ∀ f ∈ olderFiles dir ++ [active], f.length ≤ segmentSize := by
  unfold recover at h
  cases hids : segmentIds dir with
  | error e => simp [hids, bind, Except.bind] at h
  | ok ids =>
    have hnumbered := segmentIds_ok hids
    rw [segmentIds_eq hnumbered] at hids
    obtain rfl := Except.ok.inj hids
    simp only [segmentIds_eq hnumbered, bind, Except.bind] at h
    -- the files that recovery goes over: a new one if there are none
    obtain ⟨start, files, hfiles, hstart, hrecover⟩ : ∃ start : Directory, ∃ files,
        start.IsNumbered files ∧ files.dropLast = olderFiles dir ∧
        recoverFrom crc32 start segmentSize (List.range' 0 files.length) =
          .ok (dir', activeId, activeLen) := by
      split_ifs at h with hempty
      · have hnil : dir.toList.map Prod.snd = [] := by simpa using hempty
        have hinsert := hnumbered.insert (Nat.zero_le _) ([] : List UInt8)
        rw [hnil] at hinsert
        exact ⟨_, [[]], hinsert, by rw [olderFiles, hnil]; rfl, h⟩
      · exact ⟨dir, _, hnumbered, rfl, h⟩
    obtain ⟨older, last, rfl, hid, holder, hsegment, hlen, hdir'⟩ :=
      recoverFrom_ok hfiles.get_from_zero hrecover
    rw [List.dropLast_concat] at hstart
    rw [Nat.zero_add] at hid
    subst hid
    rw [← hstart]
    refine ⟨last.take activeLen, ?_, rfl, ?_, ?_⟩
    · rcases hdir' with ⟨rfl, rfl⟩ | rfl
      · rw [List.take_length]
        exact hfiles
      · have hinsert := hfiles.insert (i := older.length) (by simp) (last.take activeLen)
        rw [if_neg (by simp), List.set_append_right _ _ le_rfl] at hinsert
        simpa using hinsert
    · rw [List.length_take, min_eq_left hlen]
    · intro f hf
      rcases List.mem_append.mp hf with hf | hf
      · exact holder f hf
      · rw [List.mem_singleton.mp hf, List.length_take, min_eq_left hlen]
        exact hsegment

end BasisDB.Storage
