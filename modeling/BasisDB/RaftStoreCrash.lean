import BasisDB.RaftStoreRuns
import BasisDB.Simulations
import BasisDB.WalTorn

/-! The durable Raft state over the lives of a machine: it saves one state after another, a save
may fail at any point of its writes and syncs, and the machine may go down at any time and start
again on what its disk kept. Seen from outside the store is one cell that is replaced as a whole. -/
namespace BasisDB.Storage.RaftStore

open Raft

variable {crc32 : List UInt8 → UInt32} {json : DeltaJson} {initial current : Persistent}
  {store store' : RaftStore} {disk : Disk}

/-- The records on disk replay to the state that the store takes for durable. -/
structure Saved (crc32 : List UInt8 → UInt32) (json : DeltaJson) (initial : Persistent)
    (store : RaftStore) : Prop where
  kind : store.kind = raftStateKind
  options : store.wal.options = WalOptions.default
  replays : ∃ older active, store.wal.Holds crc32 older active ∧
    replay json raftStateKind initial (stored crc32 0 (older ++ [active])) = .ok store.durable

/-- A state that a node saves after another one; neither log has a snapshot. -/
structure Follows (initial durable current : Persistent) : Prop extends
    Succeeds durable current where
  metadata : withSnapshotOf durable initial = durable ∧ withSnapshotOf current initial = current

theorem default_valid : validateOptions WalOptions.default = .ok () := by decide +kernel

theorem created_saved (crc32 : List UInt8 → UInt32) (json : DeltaJson) (initial : Persistent) :
    Saved crc32 json initial ⟨Wal.created WalOptions.default, raftStateKind, initial⟩ :=
  ⟨rfl, rfl, [], [], created_holds, rfl⟩

/-- A log whose records replay opens as a store with the state they give. -/
theorem openDir_replayed {dir : Directory} {wal : Wal} {older : List (List Record)}
    {active : List Record} {durable : Persistent}
    (hopen : Wal.openDir crc32 dir WalOptions.default = .ok wal)
    (hoptions : wal.options = WalOptions.default) (hholds : wal.Holds crc32 older active)
    (hreplay : replay json raftStateKind initial (stored crc32 0 (older ++ [active])) =
      .ok durable) :
    openDir crc32 json dir initial = .ok ⟨wal, raftStateKind, durable⟩ ∧
      Saved crc32 json initial ⟨wal, raftStateKind, durable⟩ := by
  constructor
  · unfold openDir recover
    rw [hopen]
    simp only [hholds.records, hreplay, bind, Except.bind]
  · exact ⟨rfl, hoptions, older, active, hholds, hreplay⟩

/-- The record of a save takes the state before it to the state saved. -/
theorem replay_delta (hjson : json.RoundTrips) {durable : Persistent}
    (hfollows : Follows initial durable current) {encoded : List UInt8}
    (hvec : json.toVec (deltaOf durable current) = some encoded) {records : List StoredRecord}
    (hreplay : replay json raftStateKind initial records = .ok durable) (lsn : Lsn) :
    replay json raftStateKind initial (records ++ [⟨lsn, ⟨raftStateKind, encoded⟩⟩]) =
      .ok current := by
  have happly := applyDelta_deltaOf hfollows.toSucceeds initial
  rw [hfollows.metadata.1, hfollows.metadata.2] at happly
  rw [replay_append, hreplay]
  simp only [Except.bind, replay, ne_eq, not_true_eq_false, if_false, hjson _ _ hvec, happly, bind]

theorem Saved.save (hjson : json.RoundTrips) (h : Saved crc32 json initial store)
    (hfollows : Follows initial store.durable current)
    (hsave : store.save crc32 json disk current = (store', .ok ())) :
    Saved crc32 json initial store' ∧ store'.durable = current := by
  obtain ⟨encoded, wal, lsn, hvec, happend, rfl⟩ := save_ok hsave
  obtain ⟨older, active, hholds, hreplay⟩ := h.replays
  obtain ⟨older', active', hholds', hoptions, hstored⟩ := hholds.append happend
  refine ⟨⟨h.kind, hoptions.trans h.options, older', active', hholds', ?_⟩, rfl⟩
  rw [hstored, h.kind]
  exact replay_delta hjson hfollows hvec hreplay lsn

/-- What a save leaves: the state taken for durable stays unless the save succeeded, and the files
are as they were, or as the append of its record left them. -/
theorem save_leaves {result : Except StoreError Unit}
    (h : store.save crc32 json disk current = (store', result)) :
    (result ≠ .ok () → store'.durable = store.durable) ∧
      (store'.wal.dir = store.wal.dir ∨
        ∃ encoded wal appended, json.toVec (deltaOf store.durable current) = some encoded ∧
          store.wal.append crc32 disk store.kind encoded = (wal, appended) ∧
          store'.wal.dir = wal.dir) := by
  unfold RaftStore.save at h
  split_ifs at h with hsnapshot
  · obtain ⟨rfl, rfl⟩ := Prod.mk.inj h
    exact ⟨fun _ => rfl, Or.inl rfl⟩
  cases hvec : json.toVec (deltaOf store.durable current) with
  | none =>
    simp only [hvec] at h
    obtain ⟨rfl, rfl⟩ := Prod.mk.inj h
    exact ⟨fun _ => rfl, Or.inl rfl⟩
  | some encoded =>
    rcases happend : store.wal.append crc32 disk store.kind encoded with ⟨wal, appended⟩
    simp only [hvec, happend] at h
    cases appended with
    | error e =>
      obtain ⟨rfl, rfl⟩ := Prod.mk.inj h
      exact ⟨fun _ => rfl, Or.inr ⟨encoded, wal, _, rfl, happend, rfl⟩⟩
    | ok lsn =>
      have hdir := Wal.sync_dir wal disk.syncAppend
      rcases hsync : wal.sync disk.syncAppend with ⟨wal', synced⟩
      rw [hsync] at hdir
      simp only [hsync] at h
      cases synced with
      | error e =>
        obtain ⟨rfl, rfl⟩ := Prod.mk.inj h
        exact ⟨fun _ => rfl, Or.inr ⟨encoded, wal, _, rfl, happend, hdir⟩⟩
      | ok u =>
        obtain ⟨rfl, rfl⟩ := Prod.mk.inj h
        exact ⟨fun hne => absurd rfl hne, Or.inr ⟨encoded, wal, _, rfl, happend, hdir⟩⟩

theorem Saved.reopen (h : Saved crc32 json initial store) (left : Option ℕ) :
    ∃ opened, openDir crc32 json (crashed store.wal.dir store.wal.dir left) initial = .ok opened ∧
      Saved crc32 json initial opened ∧ opened.durable = store.durable := by
  obtain ⟨older, active, hholds, hreplay⟩ := h.replays
  obtain ⟨wal, older', active', hopen, hoptions, hholds', hstored⟩ :=
    hholds.crash_idle (by rw [h.options]; exact default_valid) left
  rw [h.options] at hopen hoptions
  rw [← hstored] at hreplay
  obtain ⟨hopened, hsaved⟩ := openDir_replayed hopen hoptions hholds' hreplay
  exact ⟨_, hopened, hsaved, rfl⟩

/-- After a crash during a save the store opens with the state before it, or with the one that
was being saved. -/
theorem Saved.crash (hjson : json.RoundTrips) (h : Saved crc32 json initial store)
    (hfollows : Follows initial store.durable current) (left : Option ℕ) :
    ∃ opened, openDir crc32 json
        (crashed store.wal.dir (store.save crc32 json disk current).1.wal.dir left) initial =
          .ok opened ∧
      Saved crc32 json initial opened ∧
      (opened.durable = store.durable ∨ opened.durable = current) := by
  obtain ⟨-, hdir | ⟨encoded, wal, result, hvec, happend, hdir⟩⟩ :=
    save_leaves (Prod.mk.eta : ((store.save crc32 json disk current).1, _) = _).symm
  · rw [hdir]
    obtain ⟨opened, hopen, hsaved, hdurable⟩ := h.reopen left
    exact ⟨opened, hopen, hsaved, Or.inl hdurable⟩
  rw [hdir]
  obtain ⟨older, active, hholds, hreplay⟩ := h.replays
  obtain ⟨wal', older', active', hopen, hoptions, hholds', hstored⟩ :=
    hholds.crash (by rw [h.options]; exact default_valid) happend left
  rw [h.options] at hopen hoptions
  rcases hstored with hsame | ⟨lsn, hmore⟩
  · rw [← hsame] at hreplay
    obtain ⟨hopened, hsaved⟩ := openDir_replayed hopen hoptions hholds' hreplay
    exact ⟨_, hopened, hsaved, Or.inl rfl⟩
  · have hnew := replay_delta hjson hfollows hvec hreplay lsn
    rw [h.kind] at hmore
    rw [← hmore] at hnew
    obtain ⟨hopened, hsaved⟩ := openDir_replayed hopen hoptions hholds' hnew
    exact ⟨_, hopened, hsaved, Or.inr rfl⟩

/-- What happens to the store of a node: its process saves a state, or the machine goes down with
what its disk keeps and the process is started again. -/
inductive StoreEvent where
  | save (disk : Disk) (current : Persistent)
  | restart (left : Option ℕ)

/-- A node's store, the files that were synced, and the state whose save failed, if one did. -/
structure StoreMachine where
  store : RaftStore
  synced : Directory
  failed : Option Persistent

namespace StoreMachine

/-- A machine whose store was just opened or saved. -/
def fresh (store : RaftStore) : StoreMachine := ⟨store, store.wal.dir, none⟩

def start (initial : Persistent) : StoreMachine :=
  fresh ⟨Wal.created WalOptions.default, raftStateKind, initial⟩

/-- A runtime whose save failed saves nothing more. -/
def step (crc32 : List UInt8 → UInt32) (json : DeltaJson) (initial : Persistent)
    (machine : StoreMachine) : StoreEvent → Except StoreError StoreMachine
  | .save disk current =>
    match machine.failed with
    | some _ => .ok machine
    | none =>
      match machine.store.save crc32 json disk current with
      | (store, .ok ()) => .ok (fresh store)
      | (store, .error _) => .ok ⟨store, machine.synced, some current⟩
  | .restart left =>
    let dir := crashed machine.synced machine.store.wal.dir left
    match RaftStore.openDir crc32 json dir initial with
    | .ok store => .ok (fresh store)
    | .error error => .error error

/-- What `save` answers, if the runtime calls it. -/
def answer (crc32 : List UInt8 → UInt32) (json : DeltaJson) (machine : StoreMachine) :
    StoreEvent → Option (Except StoreError Unit)
  | .save disk current =>
    match machine.failed with
    | some _ => none
    | none => some (machine.store.save crc32 json disk current).2
  | .restart _ => none

/-- The machine after some events, unless the store once failed to open. -/
def run (crc32 : List UInt8 → UInt32) (json : DeltaJson) (initial : Persistent)
    (events : List StoreEvent) : Except StoreError StoreMachine :=
  events.foldlM (step crc32 json initial) (start initial)

/-- The states that a node saves follow the one its store has. -/
def Saving (initial : Persistent) (machine : StoreMachine) : StoreEvent → Prop
  | .save _ current => machine.failed = none → Follows initial machine.store.durable current
  | .restart _ => True

end StoreMachine

/-- A state that is replaced as a whole, and the one that a failed write may have left instead. -/
structure Cell where
  durable : Persistent
  failed : Option Persistent
  deriving DecidableEq

/-- What an event does to a cell, by what the save answered: the state is replaced if and only if
the save succeeded, and a state whose save failed is the only other one that a start may find. -/
inductive Cell.Step : Cell → StoreEvent → Option (Except StoreError Unit) → Cell → Prop
  | saved (durable current : Persistent) (disk : Disk) :
      Step ⟨durable, none⟩ (.save disk current) (some (.ok ())) ⟨current, none⟩
  | failed (durable current : Persistent) (disk : Disk) (error : StoreError) :
      Step ⟨durable, none⟩ (.save disk current) (some (.error error)) ⟨durable, some current⟩
  | refused (durable lost current : Persistent) (disk : Disk) :
      Step ⟨durable, some lost⟩ (.save disk current) none ⟨durable, some lost⟩
  | kept (durable : Persistent) (lost : Option Persistent) (left : Option ℕ) :
      Step ⟨durable, lost⟩ (.restart left) none ⟨durable, none⟩
  | replaced (durable lost : Persistent) (left : Option ℕ) :
      Step ⟨durable, some lost⟩ (.restart left) none ⟨lost, none⟩

section Steps
variable {cell cell' : Cell} {answer : Option (Except StoreError Unit)}

theorem Cell.Step.of_save (h : Cell.Step cell (.save disk current) answer cell') :
    cell.failed = none ∧ cell' = ⟨current, none⟩ ∨
      cell.failed = none ∧ cell' = ⟨cell.durable, some current⟩ ∨
      cell.failed ≠ none ∧ cell' = cell := by
  cases h with
  | saved => exact Or.inl ⟨rfl, rfl⟩
  | failed => exact Or.inr (Or.inl ⟨rfl, rfl⟩)
  | refused => exact Or.inr (Or.inr ⟨by simp, rfl⟩)

theorem Cell.Step.of_restart {left : Option ℕ} (h : Cell.Step cell (.restart left) answer cell') :
    cell'.failed = none ∧ (cell'.durable = cell.durable ∨ cell.failed = some cell'.durable) := by
  cases h with
  | kept => exact ⟨rfl, Or.inl rfl⟩
  | replaced => exact ⟨rfl, Or.inr rfl⟩

end Steps

namespace StoreMachine
variable {machine : StoreMachine} {event : StoreEvent}

/-- The cell that a machine shows. -/
def cell (machine : StoreMachine) : Cell := ⟨machine.store.durable, machine.failed⟩

theorem answer_fresh (store : RaftStore) (disk : Disk) (current : Persistent) :
    (fresh store).answer crc32 json (.save disk current) =
      some (store.save crc32 json disk current).2 := rfl

/-- Before a save failed everything is synced; afterwards the files are those of that save. -/
inductive Sound (crc32 : List UInt8 → UInt32) (json : DeltaJson) (initial : Persistent) :
    StoreMachine → Prop
  | running {store : RaftStore} (h : Saved crc32 json initial store) :
      Sound crc32 json initial (fresh store)
  | failed {store : RaftStore} {disk : Disk} {current : Persistent}
      (h : Saved crc32 json initial store) (hfollows : Follows initial store.durable current)
      (hsave : (store.save crc32 json disk current).1.durable = store.durable) :
      Sound crc32 json initial
        ⟨(store.save crc32 json disk current).1, store.wal.dir, some current⟩

/-- One event: the store opens whenever it is started, and the event is one of the cell. -/
theorem Sound.step (hjson : json.RoundTrips) (h : machine.Sound crc32 json initial)
    (hsaving : machine.Saving initial event) :
    ∃ machine', machine.step crc32 json initial event = .ok machine' ∧
      machine'.Sound crc32 json initial ∧
      Cell.Step machine.cell event (machine.answer crc32 json event) machine'.cell := by
  cases h with
  | @running store h =>
    cases event with
    | save disk current =>
      have hfollows : Follows initial store.durable current := hsaving rfl
      rcases hsave : store.save crc32 json disk current with ⟨store', result⟩
      cases result with
      | ok u =>
        obtain ⟨hsaved, hdurable⟩ := h.save hjson hfollows hsave
        refine ⟨fresh store', by simp only [StoreMachine.step, fresh, hsave], .running hsaved, ?_⟩
        rw [answer_fresh, hsave]
        unfold cell fresh
        rw [hdurable]
        exact .saved _ _ _
      | error e =>
        have hdurable : (store.save crc32 json disk current).1.durable = store.durable := by
          rw [hsave]
          exact (save_leaves hsave).1 (by simp)
        refine ⟨⟨store', store.wal.dir, some current⟩,
          by simp only [StoreMachine.step, fresh, hsave], ?_, ?_⟩
        · have hfailed := Sound.failed h hfollows hdurable
          rw [hsave] at hfailed
          exact hfailed
        · rw [hsave] at hdurable
          rw [answer_fresh, hsave]
          unfold cell fresh
          rw [hdurable]
          exact .failed _ _ _ _
    | restart left =>
      obtain ⟨opened, hopen, hsaved, hdurable⟩ := h.reopen left
      refine ⟨fresh opened, by simp only [StoreMachine.step, fresh, hopen], .running hsaved, ?_⟩
      unfold cell fresh
      rw [hdurable]
      exact .kept _ _ _
  | @failed store disk current h hfollows hsame =>
    cases event with
    | save disk' current' => exact ⟨_, rfl, .failed h hfollows hsame, .refused _ _ _ _⟩
    | restart left =>
      obtain ⟨opened, hopen, hsaved, hdurable⟩ := @Saved.crash _ _ _ _ _ disk hjson h hfollows left
      refine ⟨fresh opened, by simp only [StoreMachine.step, hopen], .running hsaved, ?_⟩
      unfold cell fresh
      rw [hsame]
      rcases hdurable with hold | hnew
      · rw [hold]
        exact .kept _ _ _
      · rw [hnew]
        exact .replaced _ _ _

/-- Over any events the store is one cell: every start opens it, a save that succeeded has replaced
the state, and after a save that failed the next start finds the state before it or the one that
was to be saved, whole. -/
theorem run_is_cell (hjson : json.RoundTrips) {events : List StoreEvent}
    (hsaving : ∀ k event machine, events[k]? = some event →
      run crc32 json initial (events.take k) = .ok machine → machine.Saving initial event) :
    ∃ moment : ℕ → StoreMachine, moment 0 = start initial ∧
      (∀ k ≤ events.length, run crc32 json initial (events.take k) = .ok (moment k)) ∧
      ∀ k event, events[k]? = some event →
        Cell.Step (moment k).cell event ((moment k).answer crc32 json event)
          (moment (k + 1)).cell :=
  Simulations.foldlM_moments (P := Sound crc32 json initial)
    (.running (created_saved crc32 json initial))
    (fun k event machine hevent hrun hsound =>
      hsound.step hjson (hsaving k event machine hevent hrun))

end StoreMachine
end BasisDB.Storage.RaftStore
