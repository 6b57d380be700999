import BasisDB.RaftCore
import BasisDB.RaftContiguousLog
import BasisDB.WalRecovery

/-! Durable Raft state over the log of records: each record holds the hard state and the
changed end of the Raft log, and recovery replays the records. Model of `store.rs`; the
JSON encoding of a record is a parameter. -/
namespace BasisDB.Storage

open Raft

inductive StoreError where
  | wal (error : WalError)
  | encode
  | decode
  | unexpectedKind (found : UInt16)
  | termRegression (previous next : ℕ)
  | invalidTruncation (index lastIndex : ℕ)
  | noncontiguousEntry (expected found : ℕ)
  | snapshotUnsupported
  deriving DecidableEq, Repr

structure PersistentDelta where
  term : ℕ
  votedFor : Option NodeId
  bootstrapConfig : Configuration
  truncateAfter : ℕ
  entries : List Entry
  deriving DecidableEq

/-- `serde_json::to_vec` and `serde_json::from_slice` at `PersistentDelta`. -/
structure DeltaJson where
  toVec : PersistentDelta → Option (List UInt8)
  fromSlice : List UInt8 → Option PersistentDelta

/-- Decoding undoes encoding. -/
def DeltaJson.RoundTrips (json : DeltaJson) : Prop :=
  ∀ delta encoded, json.toVec delta = some encoded → json.fromSlice encoded = some delta

/-- `RAFT_STATE_KIND`. -/
def raftStateKind : RecordKind := ⟨1, by decide⟩

/-- The loop of `common_prefix`: walk back while the terms differ. -/
def commonPrefixFrom (durable current : Log) (floor : ℕ) : ℕ → ℕ
  | 0 => 0
  | index + 1 =>
    if floor < index + 1 ∧ durable.termAt (index + 1) ≠ current.termAt (index + 1) then
      commonPrefixFrom durable current floor index
    else index + 1

def commonPrefix (durable current : Persistent) : ℕ :=
  commonPrefixFrom durable.log current.log
    (max durable.log.snapshotIndex current.log.snapshotIndex)
    (min durable.log.lastIndex current.log.lastIndex)

/-- The delta that `save` writes for a state. -/
def deltaOf (durable current : Persistent) : PersistentDelta :=
  let truncateAfter := commonPrefix durable current
  { term := current.term
    votedFor := current.votedFor
    bootstrapConfig := current.bootstrapConfig
    truncateAfter := truncateAfter
    entries := current.log.slice (truncateAfter + 1) current.log.lastIndex }

def appendEntries : Log → List Entry → Except StoreError Log
  | log, [] => .ok log
  | log, entry :: entries =>
    let expected := log.lastIndex + 1
    if entry.index ≠ expected then .error (.noncontiguousEntry expected entry.index)
    else appendEntries (log.append entry) entries

def applyDelta (state : Persistent) (delta : PersistentDelta) : Except StoreError Persistent :=
  if delta.term < state.term then .error (.termRegression state.term delta.term)
  else if state.log.lastIndex < delta.truncateAfter then
    .error (.invalidTruncation delta.truncateAfter state.log.lastIndex)
  else do
    let log ← appendEntries (state.log.truncateAfter delta.truncateAfter) delta.entries
    .ok { term := delta.term, votedFor := delta.votedFor, log := log,
          bootstrapConfig := delta.bootstrapConfig }

structure RaftStore where
  wal : Wal
  kind : RecordKind
  durable : Persistent

namespace RaftStore
variable (crc32 : List UInt8 → UInt32) (json : DeltaJson)

/-- The loop of `recover` over the records streamed. -/
def replay (kind : RecordKind) : Persistent → List StoredRecord → Except StoreError Persistent
  | durable, [] => .ok durable
  | durable, stored :: rest =>
    if stored.record.kind ≠ kind then .error (.unexpectedKind stored.record.kind.get)
    else
      match json.fromSlice stored.record.payload with
      | none => .error .decode
      | some delta => do
        let durable ← applyDelta durable delta
        replay kind durable rest

def recover (store : RaftStore) : Except StoreError RaftStore :=
  match store.wal.records crc32 with
  | .error error => .error (.wal error)
  | .ok (stored, ended) => do
    let durable ← replay json store.kind store.durable stored
    match ended with
    | some error => .error (.wal error)
    | none => .ok { store with durable := durable }

/-- `RaftStore::open`. -/
def openDir (dir : Directory) (initial : Persistent) : Except StoreError RaftStore :=
  match Wal.openDir crc32 dir WalOptions.default with
  | .error error => .error (.wal error)
  | .ok wal => recover crc32 json { wal := wal, kind := raftStateKind, durable := initial }

def save (store : RaftStore) (disk : Disk) (current : Persistent) :
    RaftStore × Except StoreError Unit :=
  if current.log.snapshotIndex ≠ store.durable.log.snapshotIndex then
    (store, .error .snapshotUnsupported)
  else
    match json.toVec (deltaOf store.durable current) with
    | none => (store, .error .encode)
    | some encoded =>
      match store.wal.append crc32 disk store.kind encoded with
      | (wal, .error error) => ({ store with wal := wal }, .error (.wal error))
      | (wal, .ok _) =>
        match wal.sync disk.syncAppend with
        | (wal, .error error) => ({ store with wal := wal }, .error (.wal error))
        | (wal, .ok ()) => ({ store with wal := wal, durable := current }, .ok ())

/-- A run of successful saves of the given states. -/
inductive Saves : RaftStore → List Persistent → RaftStore → Prop
  | nil (store : RaftStore) : Saves store [] store
  | snoc {store store' store'' : RaftStore} {states : List Persistent} {current : Persistent}
      {disk : Disk} (h : Saves store states store')
      (hsave : store'.save crc32 json disk current = (store'', .ok ())) :
      Saves store (states ++ [current]) store''

end RaftStore

/-- Two states as a node saves them one after the other, without a snapshot. -/
structure Succeeds (durable current : Persistent) : Prop where
  contiguous : durable.log.Contiguous ∧ current.log.Contiguous
  snapshotIndex : durable.log.snapshotIndex = 0 ∧ current.log.snapshotIndex = 0
  term_le : durable.term ≤ current.term
  matching : durable.log.Matching current.log

section Delta
variable {durable current : Persistent}

theorem commonPrefixFrom_le (log log' : Log) (floor n : ℕ) :
    commonPrefixFrom log log' floor n ≤ n := by
  induction n with
  | zero => exact le_rfl
  | succ n ih =>
    unfold commonPrefixFrom
    split_ifs
    · exact ih.trans (Nat.le_succ n)
    · exact le_rfl

theorem termAt_commonPrefixFrom (log log' : Log) (n : ℕ)
    (hpos : 0 < commonPrefixFrom log log' 0 n) :
    log.termAt (commonPrefixFrom log log' 0 n) = log'.termAt (commonPrefixFrom log log' 0 n) := by
  induction n with
  | zero => exact absurd hpos (lt_irrefl 0)
  | succ n ih =>
    unfold commonPrefixFrom at hpos ⊢
    split_ifs at hpos ⊢ with hdiffer
    · exact ih hpos
    · by_contra hne
      exact hdiffer ⟨hpos, hne⟩

theorem appendEntries_eq {log : Log} (h : log.Contiguous) {entries : List Entry}
    (hentries : ∀ i e, entries[i]? = some e → e.index = log.lastIndex + i + 1) :
    appendEntries log entries = .ok { log with entries := log.entries ++ entries } := by
  induction entries generalizing log with
  | nil => simp [appendEntries]
  | cons entry entries ih =>
    have hfirst : entry.index = log.lastIndex + 1 := hentries 0 entry rfl
    have hlast : (log.append entry).lastIndex = log.lastIndex + 1 := by
      simp [Log.append, Log.lastIndex, hfirst]
    have hrest : ∀ i e, entries[i]? = some e →
        e.index = (log.append entry).lastIndex + i + 1 := by
      intro i e he
      have hi := hentries (i + 1) e he
      rw [hlast]
      omega
    have hnext := ih (h.append hfirst) hrest
    rw [appendEntries, if_neg (not_not.mpr hfirst), hnext]
    simp [Log.append]

/-- The logs agree up to the point found by the backward walk. -/
theorem take_commonPrefix (h : Succeeds durable current) :
    durable.log.entries.take (commonPrefix durable current) =
      current.log.entries.take (commonPrefix durable current) := by
  have hfloor : max durable.log.snapshotIndex current.log.snapshotIndex = 0 := by
    rw [h.snapshotIndex.1, h.snapshotIndex.2, max_self]
  have hle : commonPrefix durable current ≤
      min durable.log.lastIndex current.log.lastIndex := commonPrefixFrom_le _ _ _ _
  rcases Nat.eq_zero_or_pos (commonPrefix durable current) with hzero | hpos
  · rw [hzero, List.take_zero, List.take_zero]
  · have hterm : durable.log.termAt (commonPrefix durable current) =
        current.log.termAt (commonPrefix durable current) := by
      unfold commonPrefix at hpos ⊢
      rw [hfloor] at hpos ⊢
      exact termAt_commonPrefixFrom _ _ _ hpos
    generalize commonPrefix durable current = k at hle hpos hterm ⊢
    have hk : durable.log.snapshotIndex < k := by rw [h.snapshotIndex.1]; exact hpos
    have hk' : current.log.snapshotIndex < k := by rw [h.snapshotIndex.2]; exact hpos
    obtain ⟨e, he⟩ := Log.get_isSome h.contiguous.1 hk (hle.trans (min_le_left _ _))
    obtain ⟨e', he'⟩ := Log.get_isSome h.contiguous.2 hk' (hle.trans (min_le_right _ _))
    have hsame : e.term = e'.term := by
      rw [Log.termAt_above hk, Log.termAt_above hk', he, he'] at hterm
      exact hterm
    have hagree := h.matching k e e' he he' hsame
    -- the two prefixes position by position
    apply List.ext_getElem?
    intro i
    by_cases hi : i < k
    · have hget := hagree (i + 1) hi
      have habove : durable.log.snapshotIndex < i + 1 := by rw [h.snapshotIndex.1]; omega
      have habove' : current.log.snapshotIndex < i + 1 := by rw [h.snapshotIndex.2]; omega
      rw [Log.get_above habove, Log.get_above habove', h.snapshotIndex.1, h.snapshotIndex.2,
        Nat.sub_zero, Nat.add_sub_cancel] at hget
      rw [List.getElem?_take_of_lt hi, List.getElem?_take_of_lt hi, hget]
    · rw [List.getElem?_eq_none (by rw [List.length_take]; omega),
        List.getElem?_eq_none (by rw [List.length_take]; omega)]

/-- A state with the snapshot metadata of another; a delta does not carry the metadata. -/
def withSnapshotOf (state initial : Persistent) : Persistent :=
  { state with log := { state.log with
      snapshotTerm := initial.log.snapshotTerm
      snapshotConfig := initial.log.snapshotConfig } }

/-- Applying the delta of a state to the state before it gives the state. -/
theorem applyDelta_deltaOf (h : Succeeds durable current) (initial : Persistent) :
    applyDelta (withSnapshotOf durable initial) (deltaOf durable current) =
      .ok (withSnapshotOf current initial) := by
  have hle : commonPrefix durable current ≤
      min durable.log.lastIndex current.log.lastIndex := commonPrefixFrom_le _ _ _ _
  have htake := take_commonPrefix h
  have hlast := h.contiguous.1.lastIndex_eq
  have hlast' := h.contiguous.2.lastIndex_eq
  rw [h.snapshotIndex.1, Nat.zero_add] at hlast
  rw [h.snapshotIndex.2, Nat.zero_add] at hlast'
  have hslice : current.log.slice (commonPrefix durable current + 1) current.log.lastIndex =
      current.log.entries.drop (commonPrefix durable current) := by
    rw [h.contiguous.2.slice_eq (by rw [h.snapshotIndex.2]; omega), h.snapshotIndex.2, hlast']
    simp
  generalize hk : commonPrefix durable current = k at hle htake hslice
  set log : Log := (withSnapshotOf durable initial).log.truncateAfter k with hlog
  have hentries : log.entries = current.log.entries.take k := by
    rw [hlog, Log.truncateAfter_eq, ← htake]
    simp [withSnapshotOf, h.snapshotIndex.1]
  have hcontiguous : log.Contiguous := by
    apply Log.Contiguous.truncateAfter
    exact h.contiguous.1
  have hsnapshot : log.snapshotIndex = 0 := by
    rw [hlog, Log.truncateAfter_eq]
    exact h.snapshotIndex.1
  have hend : log.lastIndex = k := by
    rw [hcontiguous.lastIndex_eq, hentries, hsnapshot, List.length_take]
    omega
  have happend : appendEntries log (current.log.entries.drop k) =
      .ok { log with entries := log.entries ++ current.log.entries.drop k } := by
    apply appendEntries_eq hcontiguous
    intro i e he
    rw [List.getElem?_drop] at he
    have hindex := h.contiguous.2 _ _ he
    rw [h.snapshotIndex.2] at hindex
    omega
  have hterm : ¬ current.term < (withSnapshotOf durable initial).term := not_lt.mpr h.term_le
  have hindex : ¬ (withSnapshotOf durable initial).log.lastIndex < k :=
    not_lt.mpr (hle.trans (min_le_left _ _))
  have hwhole : { log with entries := log.entries ++ current.log.entries.drop k } =
      (withSnapshotOf current initial).log := by
    rw [hentries, List.take_append_drop, hlog, Log.truncateAfter_eq]
    simp [withSnapshotOf, h.snapshotIndex]
  unfold applyDelta deltaOf
  simp only [hk, hslice]
  rw [if_neg hterm, if_neg hindex, ← hlog, happend, hwhole]
  rfl

end Delta
end BasisDB.Storage
