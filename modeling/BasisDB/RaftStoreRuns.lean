import BasisDB.RaftStore

/-! Runs of the durable Raft state: after any sequence of saves, reopening the store on the
first records of its log gives the state saved with the last of them. -/
namespace BasisDB.Storage.RaftStore

open Raft

variable {crc32 : List UInt8 → UInt32} {json : DeltaJson} {initial : Persistent}
  {states : List Persistent} {store store' : RaftStore}

theorem replay_append (kind : RecordKind) (durable : Persistent) (xs ys : List StoredRecord) :
    replay json kind durable (xs ++ ys) =
      (replay json kind durable xs).bind (fun durable => replay json kind durable ys) := by
  induction xs generalizing durable with
  | nil => rfl
  | cons x xs ih =>
    rw [List.cons_append, replay, replay]
    by_cases hkind : x.record.kind ≠ kind
    · simp only [if_pos hkind]
      rfl
    · simp only [if_neg hkind]
      cases json.fromSlice x.record.payload with
      | none => rfl
      | some delta =>
        cases hdelta : applyDelta durable delta with
        | error e => simp only [hdelta, bind, Except.bind]
        | ok durable' =>
          simp only [hdelta, bind, Except.bind]
          exact ih durable'

theorem save_ok {disk : Disk} {current : Persistent}
    (h : store.save crc32 json disk current = (store', .ok ())) :
    ∃ encoded wal lsn, json.toVec (deltaOf store.durable current) = some encoded ∧
      store.wal.append crc32 disk store.kind encoded = (wal, .ok lsn) ∧
      store' = { store with wal := wal, durable := current } := by
  unfold save at h
  split_ifs at h with hsnapshot
  · simp at h
  cases hvec : json.toVec (deltaOf store.durable current) with
  | none => simp [hvec] at h
  | some encoded =>
    rcases happend : store.wal.append crc32 disk store.kind encoded with ⟨wal, result⟩
    cases result with
    | error e => simp [hvec, happend] at h
    | ok lsn =>
      rcases hsync : wal.sync disk.syncAppend with ⟨synced, result⟩
      cases result with
      | error e => simp [hvec, happend, hsync] at h
      | ok u =>
        obtain ⟨rfl, -⟩ := Wal.sync_ok hsync
        simp only [hvec, happend, hsync, Prod.mk.injEq, and_true] at h
        exact ⟨encoded, synced, lsn, rfl, happend, h.symm⟩

/-- A store opened on an empty directory has the initial state and an empty log. -/
theorem openDir_empty (crc32 : List UInt8 → UInt32) (json : DeltaJson) (initial : Persistent) :
    openDir crc32 json OrdMap.empty initial =
      .ok ⟨Wal.created WalOptions.default, raftStateKind, initial⟩ := by
  have hvalid : validateOptions WalOptions.default = .ok () := by decide +kernel
  have hholds : (Wal.created WalOptions.default).Holds crc32 [] [] := created_holds
  unfold openDir recover
  rw [Storage.openDir_empty hvalid]
  simp only [hholds.records]
  rfl

/-- The records written so far replay, up to any of them, to the state saved with it. -/
structure Logged (crc32 : List UInt8 → UInt32) (json : DeltaJson) (initial : Persistent)
    (states : List Persistent) (store : RaftStore) (stored : List StoredRecord) : Prop where
  kind : store.kind = raftStateKind
  durable : (initial :: states)[states.length]? = some store.durable
  reaches : Reaches crc32 WalOptions.default store.wal stored
  length : stored.length = states.length
  replays : ∀ k state, (initial :: states)[k]? = some state →
    replay json raftStateKind initial (stored.take k) = .ok (withSnapshotOf state initial)

theorem Logged.opened (h : openDir crc32 json OrdMap.empty initial = .ok store) :
    Logged crc32 json initial [] store [] := by
  have hvalid : validateOptions WalOptions.default = .ok () := by decide +kernel
  rw [openDir_empty] at h
  obtain rfl := Except.ok.inj h
  refine ⟨rfl, rfl, .created (Storage.openDir_empty hvalid), rfl, ?_⟩
  intro k state hstate
  cases k with
  | zero =>
    obtain rfl := Option.some.inj hstate
    rfl
  | succ k => simp at hstate

/-- One more save: its record is the delta from the state before it. -/
theorem Logged.save (hjson : json.RoundTrips) {stored : List StoredRecord} {disk : Disk}
    {current : Persistent} (h : Logged crc32 json initial states store stored)
    (hsucceeds : Succeeds store.durable current)
    (hsave : store.save crc32 json disk current = (store', .ok ())) :
    ∃ stored', Logged crc32 json initial (states ++ [current]) store' stored' := by
  obtain ⟨encoded, wal, lsn, hvec, happend, rfl⟩ := save_ok hsave
  have hlast : (initial :: (states ++ [current]))[states.length + 1]? = some current := by simp
  refine ⟨stored ++ [⟨lsn, ⟨store.kind, encoded⟩⟩], h.kind, ?_, h.reaches.appended happend, ?_, ?_⟩
  · rw [List.length_append, List.length_singleton]
    exact hlast
  · rw [List.length_append, List.length_append, h.length]
    rfl
  · intro k state hstate
    rcases Nat.lt_or_ge states.length k with hk | hk
    · -- the new record itself
      have hlt := (List.getElem?_eq_some_iff.mp hstate).1
      simp only [List.length_cons, List.length_append, List.length_nil] at hlt
      obtain rfl : k = states.length + 1 := by omega
      obtain rfl : current = state := Option.some.inj (hlast.symm.trans hstate)
      have hall := h.replays _ _ h.durable
      rw [← h.length, List.take_length] at hall
      rw [List.take_of_length_le (by simp [h.length]), replay_append, hall]
      have happly := applyDelta_deltaOf hsucceeds initial
      simp only [Except.bind, replay, h.kind, ne_eq, not_true_eq_false, if_false,
        hjson _ _ hvec, happly, bind]
    · rw [List.take_append_of_le_length (by rw [h.length]; exact hk)]
      apply h.replays k state
      rw [← List.cons_append, List.getElem?_append_left (by simp; omega)] at hstate
      exact hstate

theorem Saves.logged (hjson : json.RoundTrips) {store₀ : RaftStore}
    (hopen : openDir crc32 json OrdMap.empty initial = .ok store₀)
    (h : Saves crc32 json store₀ states store)
    (hstates : ∀ i p p', (initial :: states)[i]? = some p → (initial :: states)[i + 1]? = some p' →
      Succeeds p p') :
    ∃ stored, Logged crc32 json initial states store stored := by
  induction h with
  | nil => exact ⟨[], Logged.opened hopen⟩
  | @snoc store' store'' states current disk h hsave ih =>
    have hbefore {i : ℕ} {p : Persistent} (hp : (initial :: states)[i]? = some p) :
        (initial :: (states ++ [current]))[i]? = some p := by
      have hlt := (List.getElem?_eq_some_iff.mp hp).1
      rw [← List.cons_append, List.getElem?_append_left hlt]
      exact hp
    obtain ⟨stored, hlogged⟩ := ih (fun i p p' hp hp' =>
      hstates i p p' (hbefore hp) (hbefore hp'))
    have hsucceeds : Succeeds store'.durable current :=
      hstates states.length _ _ (hbefore hlogged.durable) (by simp)
    exact hlogged.save hjson hsucceeds hsave

/-- Reopening on a log that streams the first `k` records. -/
theorem Logged.reopen {stored : List StoredRecord}
    (h : Logged crc32 json initial states store stored) {k : ℕ} {state : Persistent}
    (hstate : (initial :: states)[k]? = some state) {dir : Directory} {wal : Wal}
    (hopen : Wal.openDir crc32 dir WalOptions.default = .ok wal)
    (hrecords : wal.records crc32 = .ok (stored.take k, none)) :
    openDir crc32 json dir initial = .ok ⟨wal, raftStateKind, withSnapshotOf state initial⟩ := by
  unfold openDir recover
  rw [hopen]
  simp only [hrecords, h.replays k state hstate, bind, Except.bind]

/-- Reopening on what is left of the log, wherever it ends. -/
theorem Logged.reopen_kept {stored : List StoredRecord}
    (h : Logged crc32 json initial states store stored) {segment cut k : ℕ} {state : Persistent}
    (hsegment : segment ≤ lastSegment store.wal.dir)
    (hstate : (initial :: states)[k]? = some state)
    (hkept : kept crc32 segment cut stored = stored.take k) :
    ∃ wal, wal.records crc32 = .ok (stored.take k, none) ∧
      openDir crc32 json (keep store.wal.dir segment cut) initial =
        .ok ⟨wal, raftStateKind, withSnapshotOf state initial⟩ := by
  have hvalid : validateOptions WalOptions.default = .ok () := by decide +kernel
  obtain ⟨older, active, hholds, hoptions, rfl⟩ := h.reaches.holds hvalid
  -- the segment that the log ends in
  rw [hholds.lastSegment_eq] at hsegment
  have hlt : segment < (older ++ [active]).length := by
    rw [List.length_append, List.length_singleton]
    omega
  obtain ⟨earlier, rs, later, hsegs, rfl⟩ : ∃ earlier rs later,
      older ++ [active] = earlier ++ rs :: later ∧ earlier.length = segment :=
    ⟨(older ++ [active]).take segment, (older ++ [active])[segment], _, by
      rw [← List.drop_eq_getElem_cons hlt, List.take_append_drop], by
      rw [List.length_take, min_eq_left hlt.le]⟩
  obtain ⟨wal, hwal, -, hholds'⟩ :=
    hholds.reopen_keep (by rw [hoptions]; exact hvalid) hsegs cut
  rw [hoptions] at hwal
  have hrecords := hholds'.records
  rw [stored_kept earlier later, ← hsegs, hkept] at hrecords
  exact ⟨wal, hrecords, h.reopen hstate hwal hrecords⟩

/-- Any number of first records is left by a log that ends somewhere. -/
theorem Logged.exists_kept {stored : List StoredRecord}
    (h : Logged crc32 json initial states store stored) {k : ℕ} (hk : k ≤ states.length) :
    ∃ segment cut, segment ≤ lastSegment store.wal.dir ∧
      kept crc32 segment cut stored = stored.take k := by
  have hvalid : validateOptions WalOptions.default = .ok () := by decide +kernel
  have hlength := h.length
  obtain ⟨older, active, hholds, -, rfl⟩ := h.reaches.holds hvalid
  obtain ⟨earlier, rs, later, cut, hsegs, hstored⟩ :=
    Storage.exists_kept 0 (older ++ [active]) (by simp) (hk.trans hlength.ge)
  refine ⟨earlier.length, cut, ?_, ?_⟩
  · have hle := congrArg List.length hsegs
    rw [List.length_append, List.length_append, List.length_singleton, List.length_cons] at hle
    rw [hholds.lastSegment_eq]
    omega
  · rw [← hstored, stored_kept earlier later, ← hsegs]

/-- Recovery of the saved states: wherever the log ends, if its first `k` records are left then
reopening it succeeds with the `k`-th state saved, and every `k` is met, the last one by the
whole directory. Only the snapshot metadata of the log is not in the records; a log without a
snapshot has none. -/
theorem reopen_recovers_saved_state (crc32 : List UInt8 → UInt32) (json : DeltaJson)
    (hjson : json.RoundTrips) (initial : Persistent) (states : List Persistent)
    (store₀ store : RaftStore) (hopen : openDir crc32 json OrdMap.empty initial = .ok store₀)
    (hsaves : Saves crc32 json store₀ states store)
    (hstates : ∀ i p p', (initial :: states)[i]? = some p →
      (initial :: states)[i + 1]? = some p' → Succeeds p p') :
    ∃ stored, store.wal.records crc32 = .ok (stored, none) ∧ stored.length = states.length ∧
      keep store.wal.dir (lastSegment store.wal.dir) store.wal.activeLen = store.wal.dir ∧
      kept crc32 (lastSegment store.wal.dir) store.wal.activeLen stored = stored ∧
      ∀ k state, (initial :: states)[k]? = some state →
        (∃ segment cut, segment ≤ lastSegment store.wal.dir ∧
          kept crc32 segment cut stored = stored.take k) ∧
        ∀ segment cut, segment ≤ lastSegment store.wal.dir →
          kept crc32 segment cut stored = stored.take k →
          ∃ store', openDir crc32 json (keep store.wal.dir segment cut) initial = .ok store' ∧
            store'.wal.records crc32 = .ok (stored.take k, none) ∧
            store'.durable = withSnapshotOf state initial ∧
            (state.log.snapshotTerm = initial.log.snapshotTerm →
              state.log.snapshotConfig = initial.log.snapshotConfig → store'.durable = state) := by
  have hvalid : validateOptions WalOptions.default = .ok () := by decide +kernel
  obtain ⟨stored, hlogged⟩ := hsaves.logged hjson hopen hstates
  obtain ⟨older, active, hholds, -, hstored⟩ := hlogged.reaches.holds hvalid
  refine ⟨stored, hstored ▸ hholds.records, hlogged.length, hholds.keep_all,
    hstored ▸ kept_all hholds, fun k state hstate => ⟨?_, ?_⟩⟩
  · exact hlogged.exists_kept (Nat.lt_succ_iff.mp (List.getElem?_eq_some_iff.mp hstate).1)
  · intro segment cut hsegment hkept
    obtain ⟨wal, hrecords, hstore⟩ := hlogged.reopen_kept hsegment hstate hkept
    refine ⟨_, hstore, hrecords, rfl, fun hterm hconfig => ?_⟩
    show withSnapshotOf state initial = state
    unfold withSnapshotOf
    rw [← hterm, ← hconfig]

/-- A node that wrote entry 1 in term 1 and then had it replaced in term 2. -/
def fresh : Persistent := ⟨0, none, Log.empty, .ofVoters [0]⟩

def withEntry (term : ℕ) (byte : UInt8) : Persistent :=
  { fresh with
    term := term
    log := { Log.empty with entries := [⟨term, 1, .command ⟨[byte]⟩⟩] } }

/-- The JSON text of the record of such a state. -/
def entryText (term byte : String) : List UInt8 :=
  ("\x7b\"term\":" ++ term ++ ",\"voted_for\":null,\"bootstrap_config\":\x7b\"Simple\":" ++
    "\x7b\"voters\":[0],\"learners\":[]\x7d\x7d,\"truncate_after\":0,\"entries\":[\x7b\"term\":" ++
    term ++ ",\"index\":1,\"payload\":\x7b\"Command\":[" ++ byte ++ "]\x7d\x7d]\x7d").toUTF8.data.toList

/-- The encoding at the two records of the run. -/
def entryJson : DeltaJson where
  toVec delta :=
    if delta = deltaOf fresh (withEntry 1 7) then some (entryText "1" "7")
    else if delta = deltaOf (withEntry 1 7) (withEntry 2 8) then some (entryText "2" "8")
    else none
  fromSlice encoded :=
    if encoded = entryText "1" "7" then some (deltaOf fresh (withEntry 1 7))
    else if encoded = entryText "2" "8" then some (deltaOf (withEntry 1 7) (withEntry 2 8))
    else none

theorem entryJson_roundTrips : entryJson.RoundTrips := by
  have hne : entryText "2" "8" ≠ entryText "1" "7" := by decide +kernel
  intro delta encoded h
  unfold entryJson at h ⊢
  dsimp only at h ⊢
  split_ifs at h with hfirst hsecond
  · obtain rfl := Option.some.inj h
    rw [if_pos rfl, hfirst]
  · obtain rfl := Option.some.inj h
    rw [if_neg hne, if_pos rfl, hsecond]

theorem withEntry_contiguous (term : ℕ) (byte : UInt8) : (withEntry term byte).log.Contiguous := by
  intro i e he
  cases i with
  | zero =>
    obtain rfl := Option.some.inj he
    rfl
  | succ i => simp [withEntry] at he

/-- The store after saving some states of the run. -/
def entryStore (states : List Persistent) : RaftStore :=
  states.foldl (fun store current => (store.save crc32Ieee entryJson {} current).1)
    ⟨Wal.created WalOptions.default, raftStateKind, fresh⟩

theorem entryStore_save (states : List Persistent) (current : Persistent)
    (h : ((entryStore states).save crc32Ieee entryJson {} current).2 = .ok ()) :
    (entryStore states).save crc32Ieee entryJson {} current =
      (entryStore (states ++ [current]), .ok ()) := by
  have hnext : entryStore (states ++ [current]) =
      ((entryStore states).save crc32Ieee entryJson {} current).1 := List.foldl_append
  exact Prod.ext hnext.symm h

/-- The records of the two saves. -/
def entryRecords : List StoredRecord :=
  [⟨⟨0, 0⟩, ⟨raftStateKind, entryText "1" "7"⟩⟩,
    ⟨⟨0, 196⟩, ⟨raftStateKind, entryText "2" "8"⟩⟩]

set_option maxRecDepth 2000 in
theorem entryStore_records : (entryStore [withEntry 1 7, withEntry 2 8]).wal.records crc32Ieee =
    .ok (entryRecords, none) := by
  decide +kernel

set_option maxRecDepth 2000 in
/-- The directory after the first save is the one after the second, cut behind its first record. -/
theorem entryStore_keep : keep (entryStore [withEntry 1 7, withEntry 2 8]).wal.dir 0 196 =
    (entryStore [withEntry 1 7]).wal.dir := by
  decide +kernel

theorem reopen_recovers_saved_state_overwrittenEntry :
    ∃ store', openDir crc32Ieee entryJson (entryStore [withEntry 1 7]).wal.dir fresh = .ok store' ∧
      store'.durable = withEntry 1 7 := by
  have hfirst := entryStore_save [] (withEntry 1 7) (by decide +kernel)
  have hsecond := entryStore_save ([] ++ [withEntry 1 7]) (withEntry 2 8) (by decide +kernel)
  have hstart : Succeeds fresh (withEntry 1 7) := by
    refine ⟨⟨Log.Contiguous.empty, withEntry_contiguous 1 7⟩, ⟨rfl, rfl⟩, Nat.zero_le _, ?_⟩
    intro i e e' he
    simp [fresh, Log.get, Log.empty, Log.toVecIndex] at he
  have hreplace : Succeeds (withEntry 1 7) (withEntry 2 8) := by
    refine ⟨⟨withEntry_contiguous 1 7, withEntry_contiguous 2 8⟩, ⟨rfl, rfl⟩, by decide, ?_⟩
    intro i e e' he he' hterm
    obtain ⟨hpos, hle, -⟩ := Log.get_index (withEntry_contiguous 1 7) he
    obtain rfl : i = 1 := le_antisymm hle hpos
    obtain rfl := Option.some.inj he
    obtain rfl := Option.some.inj he'
    cases hterm
  obtain ⟨stored, hrecords, -, -, -, hreopen⟩ := reopen_recovers_saved_state crc32Ieee entryJson
    entryJson_roundTrips fresh [withEntry 1 7, withEntry 2 8] (entryStore [])
    (entryStore [withEntry 1 7, withEntry 2 8]) (openDir_empty _ _ _)
    (.snoc (.snoc (.nil _) hfirst) hsecond) (by
      intro i p p' hp hp'
      rcases i with _ | _ | i
      · obtain rfl := Option.some.inj hp
        obtain rfl := Option.some.inj hp'
        exact hstart
      · obtain rfl := Option.some.inj hp
        obtain rfl := Option.some.inj hp'
        exact hreplace
      · simp at hp')
  obtain rfl := (Prod.mk.inj (Except.ok.inj (entryStore_records.symm.trans hrecords))).1
  obtain ⟨store', hstore', -, -, hdurable⟩ :=
    (hreopen 1 (withEntry 1 7) rfl).2 0 196 (by decide +kernel) (by decide +kernel)
  rw [entryStore_keep] at hstore'
  exact ⟨store', hstore', hdurable rfl rfl⟩

end BasisDB.Storage.RaftStore
