import BasisDB.RuntimeDisks
import BasisDB.RuntimeStores

/-! Runtimes over their disks: every save goes through the byte-level store, and a node that is
started again opens what its disk kept. What such a cluster does, runtimes with abstract stores do
as well; whether the record of a failed save was lost is decided only when the store is opened. -/
namespace BasisDB.Runtime
open BasisDB.Raft BasisDB.Kv BasisDB.Storage BasisDB.Storage.RaftStore

/-- A step of runtimes over their disks: a task with the answers of the disk during its save, and
after how many commands it is dropped, if it is; or a machine that goes down and starts again. A
task that had passed `ensure_healthy` before a save failed does not run afterwards. -/
inductive DiskAction where
  | tick (n : NodeId) (disk : Disk) (dropped : Option ℕ)
  | deliver (k : ℕ) (disk : Disk) (dropped : Option ℕ)
  | propose (n : NodeId) (command : KvCommand) (disk : Disk) (dropped : Option ℕ)
  | cleanup (n : NodeId) (index id : ℕ)
  | restart (n : NodeId) (left : Option ℕ)

/-- The action of the runtimes, with the outcome of its write. -/
def DiskAction.lower (write : Write) : DiskAction → RuntimeAction
  | .tick n _ dropped => .tick n ⟨false, write, dropped⟩
  | .deliver k _ dropped => .deliver k ⟨false, write, dropped⟩
  | .propose n command _ dropped => .propose n command ⟨false, write, dropped⟩
  | .cleanup n index id => .cleanup n index id
  | .restart n _ => .restart n

def DiskAction.disk : DiskAction → Disk
  | .tick _ disk _ | .deliver _ disk _ | .propose _ _ disk _ => disk
  | .cleanup _ _ _ | .restart _ _ => {}

namespace RuntimeCluster
variable {codec : Codec} {s : RuntimeCluster} {p : NodeId → Persistent}

/-- The step that an action makes a node take, if its task gets that far. -/
def stepped (codec : Codec) (s : RuntimeCluster) : DiskAction → Option (NodeId × RaftNode × Effects)
  | .tick n _ _ => if (s.runtimes n).failed then none else some (n, (s.runtimes n).node.tick)
  | .deliver k _ _ =>
    match s.net[k]? with
    | none => none
    | some message =>
      match (s.runtimes message.receiver).validateMessage message with
      | .error _ => none
      | .ok () =>
        if (s.runtimes message.receiver).failed then none
        else some (message.receiver, (s.runtimes message.receiver).node.step message)
  | .propose n command _ _ => ((s.runtimes n).proposed codec command).map (n, ·)
  | .cleanup _ _ _ | .restart _ _ => none

/-- The node that saves in this step, and the state that it saves. -/
def saving (codec : Codec) (s : RuntimeCluster) (a : DiskAction) : Option (NodeId × Persistent) :=
  match stepped codec s a with
  | none => none
  | some (n, node, effects) => if effects.persist then some (n, node.persistent) else none

/-- The stores after a step whose save ends with `write`. -/
def storesAfter (codec : Codec) (s : RuntimeCluster) (a : DiskAction) (write : Write)
    (p : NodeId → Persistent) : NodeId → Persistent :=
  match saving codec s a with
  | none => p
  | some (n, current) => if write.lost then p else Function.update p n current

theorem storesAfter_stepped {a : DiskAction} {n : NodeId} {next : RaftNode × Effects}
    {write : Write}
    (h : stepped codec s a = if (s.runtimes n).failed then none else some (n, next)) :
    storesAfter codec s a write p =
      Function.update p n ((s.runtimes n).stored (p n) write next) := by
  unfold storesAfter saving RaftRuntime.stored
  rw [h]
  cases (s.runtimes n).failed with
  | true => simp
  | false =>
    cases hpersist : next.2.persist with
    | false => simp [hpersist]
    | true => cases hlost : write.lost <;> simp [hpersist]

theorem storesAfter_idle {a : DiskAction} {write : Write} (h : stepped codec s a = none) :
    storesAfter codec s a write p = p := by
  unfold storesAfter saving
  rw [h]

/-- A step of runtimes over other stores, with a write that ends with the same error: only the
stores differ. -/
theorem step_withStores (s : RuntimeCluster) (p : NodeId → Persistent) {a : DiskAction}
    (hrestart : ∀ n left, a ≠ .restart n left) {write write' : Write}
    (herror : write.error = write'.error) :
    (s.withStores p).step codec (a.lower write) =
      (s.step codec (a.lower write')).withStores (storesAfter codec s a write p) := by
  have hdrive (n : NodeId) (next : RaftNode × Effects) (dropped : Option ℕ)
      (h : stepped codec s a = if (s.runtimes n).failed then none else some (n, next)) :
      (s.withStores p).record n (((s.runtimes n).withStore (p n)).drive codec
          ⟨false, write, dropped⟩ next) =
        (s.record n ((s.runtimes n).drive codec ⟨false, write', dropped⟩ next)).withStores
          (storesAfter codec s a write p) := by
    rw [RaftRuntime.drive_withStore _ _ _ _ herror, record_withStores, storesAfter_stepped h]
  cases a with
  | tick n disk dropped => exact hdrive n _ dropped rfl
  | deliver k disk dropped =>
    have hnet : (s.withStores p).net = s.net := rfl
    simp only [DiskAction.lower, step, hnet]
    cases hk : s.net[k]? with
    | none => rw [storesAfter_idle (by simp only [stepped, hk])]
    | some message =>
      have hvalid : ((s.withStores p).runtimes message.receiver).validateMessage message =
          (s.runtimes message.receiver).validateMessage message := rfl
      simp only [receiveRaft, hvalid]
      cases hmessage : (s.runtimes message.receiver).validateMessage message with
      | error e => rw [storesAfter_idle (by simp only [stepped, hk, hmessage])]
      | ok u =>
        exact hdrive message.receiver ((s.runtimes message.receiver).node.step message) dropped
          (by simp only [stepped, hk, hmessage])
  | propose n command disk dropped =>
    have hstores : storesAfter codec s (.propose n command disk dropped) write p =
        Function.update p n ((s.runtimes n).storedProposal codec (p n) write command) := by
      unfold RaftRuntime.storedProposal
      cases hproposed : (s.runtimes n).proposed codec command with
      | none =>
        rw [storesAfter_idle (by simp only [stepped, hproposed, Option.map_none])]
        exact (Function.update_eq_self n p).symm
      | some next =>
        refine storesAfter_stepped ?_
        have hfailed : (s.runtimes n).failed = false := by
          by_contra hfailed
          simp [RaftRuntime.proposed, hfailed] at hproposed
        simp only [stepped, hproposed, hfailed, Option.map_some]
        rfl
    have hpropose := @RaftRuntime.propose_withStore codec (s.runtimes n) (p n) command
      s.calls.length write write' dropped herror
    rw [hstores]
    dsimp only [DiskAction.lower, step]
    rw [← record_withStores, ← hpropose]
    rfl
  | cleanup n index id =>
    rw [storesAfter_idle rfl]
    have hset := setRuntime_withStores s p n ((s.runtimes n).removePending index id) (p n)
    rw [Function.update_eq_self, ← RaftRuntime.removePending_withStore] at hset
    exact hset
  | restart n left => exact absurd rfl (hrestart n left)

/-- The stores that a step leaves. -/
theorem step_stores (s : RuntimeCluster) {a : DiskAction} (hrestart : ∀ n left, a ≠ .restart n left)
    (write : Write) (n : NodeId) :
    ((s.step codec (a.lower write)).runtimes n).store =
      storesAfter codec s a write (fun n => (s.runtimes n).store) n := by
  have hstep := @step_withStores codec s (fun n => (s.runtimes n).store) a hrestart write write rfl
  have hsame : s.withStores (fun n => (s.runtimes n).store) = s := rfl
  rw [hsame] at hstep
  exact congrArg (fun s => (s.runtimes n).store) hstep

/-- Tasks that are refused by a failed runtime never run on top of a lost write. -/
theorem lower_orderly (s : RuntimeCluster) (a : DiskAction) (write : Write) :
    s.Orderly (a.lower write) := by
  have hadmits (r : RaftRuntime) (dropped : Option ℕ) : r.Admits ⟨false, write, dropped⟩ := by
    intro hhealthy
    left
    simpa [RaftRuntime.ensureHealthy] using hhealthy
  cases a with
  | tick n disk dropped => exact hadmits _ _
  | deliver k disk dropped => exact fun message _ => hadmits _ _
  | propose n command disk dropped => exact hadmits _ _
  | cleanup n index id => trivial
  | restart n left => trivial

/-- Actions over disks as actions of the runtimes, with the outcome of each write. -/
def withWrites (acts : List DiskAction) (writes : List Write) : List RuntimeAction :=
  List.zipWith DiskAction.lower writes acts

theorem withWrites_concat {acts : List DiskAction} {writes : List Write}
    (h : writes.length = acts.length) (a : DiskAction) (write : Write) :
    withWrites (acts ++ [a]) (writes ++ [write]) = withWrites acts writes ++ [a.lower write] :=
  List.zipWith_append h

theorem length_withWrites {acts : List DiskAction} {writes : List Write}
    (h : writes.length = acts.length) : (withWrites acts writes).length = acts.length := by
  rw [withWrites, List.length_zipWith, h, min_self]

theorem withWrites_orderly (configs : NodeId → NodeConfig) (acts : List DiskAction)
    (writes : List Write) : (init configs).OrderlyRun codec (withWrites acts writes) := by
  intro k _ b hb
  obtain ⟨write, a, -, -, rfl⟩ := List.getElem?_zipWith_eq_some.mp hb
  exact lower_orderly _ a write

end RuntimeCluster

/-- Runtimes and the stores that they save to. -/
structure DiskCluster where
  cluster : RuntimeCluster
  machines : NodeId → StoreMachine

namespace DiskCluster
open RuntimeCluster

def init (configs : NodeId → NodeConfig) : DiskCluster where
  cluster := RuntimeCluster.init configs
  machines n := StoreMachine.start (initialState configs n)

section Steps
variable (crc32 : List UInt8 → UInt32) (json : DeltaJson) (codec : Codec)
  (configs : NodeId → NodeConfig)

/-- The outcome of a save as the runtime sees it. The text of its error goes to the caller only. -/
def outcome (machine : StoreMachine) : Write :=
  match machine.failed with
  | none => .synced
  | some _ => .failedLost "store error"

/-- An action other than a restart: what it saves goes through the store of its node. -/
def task (d : DiskCluster) (a : DiskAction) : Except StoreError DiskCluster :=
  match saving codec d.cluster a with
  | none => .ok { d with cluster := d.cluster.step codec (a.lower .synced) }
  | some (n, current) => do
    let machine ← (d.machines n).step crc32 json (initialState configs n) (.save a.disk current)
    .ok { cluster := d.cluster.step codec (a.lower (outcome machine))
          machines := Function.update d.machines n machine }

/-- `open` on what the disk of the node kept. -/
def restart (d : DiskCluster) (n : NodeId) (left : Option ℕ) : Except StoreError DiskCluster := do
  let machine ← (d.machines n).step crc32 json (initialState configs n) (.restart left)
  .ok { cluster := d.cluster.setRuntime n
          (RaftRuntime.start (d.cluster.runtimes n).config machine.store.durable)
        machines := Function.update d.machines n machine }

def step (d : DiskCluster) (a : DiskAction) : Except StoreError DiskCluster :=
  match a with
  | .restart n left => d.restart crc32 json configs n left
  | .tick n disk dropped => d.task crc32 json codec configs (.tick n disk dropped)
  | .deliver k disk dropped => d.task crc32 json codec configs (.deliver k disk dropped)
  | .propose n command disk dropped =>
    d.task crc32 json codec configs (.propose n command disk dropped)
  | .cleanup n index id => d.task crc32 json codec configs (.cleanup n index id)

/-- The cluster after some actions, unless a store once failed to open. -/
def run (acts : List DiskAction) : Except StoreError DiskCluster :=
  acts.foldlM (step crc32 json codec configs) (init configs)

end Steps

variable {crc32 : List UInt8 → UInt32} {json : DeltaJson} {codec : Codec}
  {configs : NodeId → NodeConfig} {peers : OrdSet NodeId} {d : DiskCluster}

/-- A state that a node may find when it is started again. -/
def MayFind (machine : StoreMachine) (state : Persistent) : Prop :=
  state = machine.store.durable ∨ machine.failed = some state

/-- The stores are in order, and the runtimes have their states. -/
structure Stored (crc32 : List UInt8 → UInt32) (json : DeltaJson) (configs : NodeId → NodeConfig)
    (d : DiskCluster) : Prop where
  sound : ∀ n, (d.machines n).Sound crc32 json (initialState configs n)
  stores : ∀ n, (d.cluster.runtimes n).store = (d.machines n).store.durable

/-- A step of runtimes with abstract stores, read backwards: whatever the nodes may find after it
comes from something they might have found before it, by some outcome of the write. -/
def ReadsBack (codec : Codec) (d : DiskCluster) (a : DiskAction) (d' : DiskCluster) : Prop :=
  ∀ p', (∀ n, MayFind (d'.machines n) (p' n)) → ∃ p write, (∀ n, MayFind (d.machines n) (p n)) ∧
    (d.cluster.withStores p).step codec (a.lower write) = d'.cluster.withStores p'

/-- The outcomes of the writes with which runtimes with abstract stores do the same: at every
moment they are the runtimes over their disks, with stores that those may find. -/
structure Explains (crc32 : List UInt8 → UInt32) (json : DeltaJson) (codec : Codec)
    (configs : NodeId → NodeConfig) (acts : List DiskAction) (writes : List Write) : Prop where
  length : writes.length = acts.length
  moments : ∀ k ≤ acts.length, ∃ d p, run crc32 json codec configs (acts.take k) = .ok d ∧
    (∀ n, MayFind (d.machines n) (p n)) ∧
    (RuntimeCluster.init configs).moment codec (withWrites acts writes) k =
      d.cluster.withStores p

/-- Whatever the nodes may find on their disks, some outcomes of the writes lead there. -/
structure Explained (crc32 : List UInt8 → UInt32) (json : DeltaJson) (codec : Codec)
    (configs : NodeId → NodeConfig) (acts : List DiskAction) (d : DiskCluster) : Prop extends
    d.Stored crc32 json configs where
  runs : ∀ p, (∀ n, MayFind (d.machines n) (p n)) →
    ∃ writes, Explains crc32 json codec configs acts writes ∧
      (RuntimeCluster.init configs).run codec (withWrites acts writes) = d.cluster.withStores p

/-- One more action whose step reads back. -/
theorem Explained.concat {acts : List DiskAction} (h : d.Explained crc32 json codec configs acts)
    {a : DiskAction} {d' : DiskCluster} (hstored : d'.Stored crc32 json configs)
    (hrun : run crc32 json codec configs (acts ++ [a]) = .ok d') (hback : ReadsBack codec d a d') :
    d'.Explained crc32 json codec configs (acts ++ [a]) := by
  refine ⟨hstored, fun p' hp' => ?_⟩
  obtain ⟨p, write, hp, hstep⟩ := hback p' hp'
  obtain ⟨writes, hexplains, hruns⟩ := h.runs p hp
  have hlen := hexplains.length
  have hconcat := withWrites_concat hlen a write
  have hrun' : (RuntimeCluster.init configs).run codec (withWrites (acts ++ [a])
      (writes ++ [write])) = d'.cluster.withStores p' := by
    rw [hconcat, ← hstep, ← hruns]
    exact List.foldl_append
  refine ⟨writes ++ [write], ⟨by simp [hlen], fun k hk => ?_⟩, hrun'⟩
  rw [List.length_append, List.length_singleton] at hk
  rcases Nat.lt_or_ge acts.length k with hlt | hle
  · -- the moment after the action
    obtain rfl : k = acts.length + 1 := by omega
    refine ⟨d', p', ?_, hp', ?_⟩
    · rw [List.take_of_length_le (by simp)]
      exact hrun
    · rw [moment, List.take_of_length_le (by rw [length_withWrites (by simp [hlen])]; simp)]
      exact hrun'
  · obtain ⟨dk, pk, hrunk, hpk, hmoment⟩ := hexplains.moments k hle
    refine ⟨dk, pk, ?_, hpk, ?_⟩
    · rw [List.take_append_of_le_length hle]
      exact hrunk
    · rw [moment, hconcat,
        List.take_append_of_le_length (by rw [length_withWrites hlen]; exact hle)]
      exact hmoment

/-- What a node is about to save follows what it has saved. -/
theorem Explained.follows {acts : List DiskAction}
    (h : d.Explained crc32 json codec configs acts) (hpeers : ∀ n, (configs n).peers = peers)
    {a : DiskAction} (hrestart : ∀ n left, a ≠ .restart n left) {n : NodeId} {current : Persistent}
    (hsaving : saving codec d.cluster a = some (n, current)) :
    Follows (initialState configs n) (d.machines n).store.durable current := by
  obtain ⟨writes, hexplains, hrun⟩ := h.runs (fun n => (d.machines n).store.durable)
    (fun n => Or.inl rfl)
  have hlen := length_withWrites hexplains.length
  have horderly := @withWrites_orderly codec configs (acts ++ [a]) (writes ++ [.synced])
  have hfollows := store_follows hpeers horderly (Nat.le_succ acts.length) n
  rw [withWrites_concat hexplains.length] at hfollows
  have hbefore : (RuntimeCluster.init configs).moment codec
      (withWrites acts writes ++ [a.lower .synced]) acts.length =
        d.cluster.withStores (fun n => (d.machines n).store.durable) := by
    rw [moment, ← hlen, List.take_left]
    exact hrun
  have hafter : (RuntimeCluster.init configs).moment codec
      (withWrites acts writes ++ [a.lower .synced]) (acts.length + 1) =
        (d.cluster.step codec (a.lower .synced)).withStores
          (Function.update (fun n => (d.machines n).store.durable) n current) := by
    have hstores : storesAfter codec d.cluster a .synced
        (fun n => (d.machines n).store.durable) =
          Function.update (fun n => (d.machines n).store.durable) n current := by
      unfold storesAfter
      rw [hsaving]
      rfl
    rw [moment, List.take_of_length_le (by simp [hlen]), ← hstores,
      ← step_withStores d.cluster _ hrestart rfl, ← hrun]
    exact List.foldl_append
  rw [hbefore, hafter, withStores_store, withStores_store, Function.update_self] at hfollows
  exact hfollows

theorem outcome_synced {machine : StoreMachine} (h : machine.failed = none) :
    outcome machine = .synced := by
  unfold outcome
  rw [h]

theorem outcome_lost {machine : StoreMachine} (h : machine.failed ≠ none) :
    outcome machine = .failedLost "store error" := by
  unfold outcome
  cases hfailed : machine.failed with
  | none => exact absurd hfailed h
  | some lost => rfl

/-- The nodes other than the one that saves find what they found before. -/
theorem mayFind_update {n : NodeId} {machine : StoreMachine} {p : NodeId → Persistent}
    (hp : ∀ m, MayFind (Function.update d.machines n machine m) (p m)) {state : Persistent}
    (hstate : MayFind (d.machines n) state) (m : NodeId) :
    MayFind (d.machines m) (Function.update p n state m) := by
  rcases eq_or_ne m n with rfl | hm
  · rw [Function.update_self]
    exact hstate
  · have hother := hp m
    rw [Function.update_of_ne hm] at hother ⊢
    exact hother

/-- One machine is replaced by another one that is in order. -/
theorem Stored.update (h : d.Stored crc32 json configs) {n : NodeId} {machine : StoreMachine}
    {s : RuntimeCluster} (hsound : machine.Sound crc32 json (initialState configs n))
    (hstores : ∀ m, (s.runtimes m).store =
      (Function.update d.machines n machine m).store.durable) :
    (DiskCluster.mk s (Function.update d.machines n machine)).Stored crc32 json configs := by
  refine ⟨fun m => ?_, hstores⟩
  show (Function.update d.machines n machine m).Sound crc32 json (initialState configs m)
  rcases eq_or_ne m n with rfl | hm
  · rw [Function.update_self]
    exact hsound
  · rw [Function.update_of_ne hm]
    exact h.sound m

/-- A save through the store, in a step whose abstract write ends with `write'`: it is enough that
each state which the node may find afterwards comes from one that it might have found before, by a
write that ends with the same error. -/
theorem Stored.saved (h : d.Stored crc32 json configs) {a : DiskAction}
    (hrestart : ∀ n left, a ≠ .restart n left) {n : NodeId} {current : Persistent}
    (hsaving : saving codec d.cluster a = some (n, current)) {machine : StoreMachine}
    (hsound : machine.Sound crc32 json (initialState configs n)) {write' : Write}
    (hdurable : machine.store.durable =
      if write'.lost then (d.machines n).store.durable else current)
    (hfinds : ∀ state, MayFind machine state → ∃ (before : Persistent) (write : Write),
      MayFind (d.machines n) before ∧ write.error = write'.error ∧
        state = if write.lost then before else current) :
    (DiskCluster.mk (d.cluster.step codec (a.lower write'))
        (Function.update d.machines n machine)).Stored crc32 json configs ∧
      ReadsBack codec d a ⟨d.cluster.step codec (a.lower write'),
        Function.update d.machines n machine⟩ := by
  have hafter (write : Write) (p : NodeId → Persistent) : storesAfter codec d.cluster a write p =
      Function.update p n (if write.lost then p n else current) := by
    unfold storesAfter
    rw [hsaving]
    cases write.lost with
    | true => exact (Function.update_eq_self n p).symm
    | false => rfl
  refine ⟨h.update hsound (fun m => ?_), fun p hp => ?_⟩
  · rw [step_stores d.cluster hrestart, hafter, h.stores n, ← hdurable]
    rcases eq_or_ne m n with rfl | hm
    · rw [Function.update_self, Function.update_self]
    · rw [Function.update_of_ne hm, Function.update_of_ne hm]
      exact h.stores m
  · have hown : MayFind (Function.update d.machines n machine n) (p n) := hp n
    rw [Function.update_self] at hown
    obtain ⟨before, write, hbefore, herror, hstate⟩ := hfinds _ hown
    refine ⟨_, write, mayFind_update hp hbefore, ?_⟩
    rw [step_withStores d.cluster _ hrestart herror, hafter, Function.update_self, ← hstate,
      Function.update_idem, Function.update_eq_self]

theorem Stored.task (hjson : json.RoundTrips) (h : d.Stored crc32 json configs) {a : DiskAction}
    (hrestart : ∀ n left, a ≠ .restart n left)
    (hfollows : ∀ n current, saving codec d.cluster a = some (n, current) →
      Follows (initialState configs n) (d.machines n).store.durable current) :
    ∃ d', d.task crc32 json codec configs a = .ok d' ∧ d'.Stored crc32 json configs ∧
      ReadsBack codec d a d' := by
  cases hsaving : saving codec d.cluster a with
  | none =>
    have hkept (p : NodeId → Persistent) : storesAfter codec d.cluster a .synced p = p := by
      unfold storesAfter
      rw [hsaving]
    refine ⟨{ d with cluster := d.cluster.step codec (a.lower .synced) },
      by simp only [DiskCluster.task, hsaving], ⟨h.sound, fun n => ?_⟩, fun p hp => ?_⟩
    · rw [step_stores d.cluster hrestart, hkept]
      exact h.stores n
    · refine ⟨p, .synced, hp, ?_⟩
      rw [step_withStores d.cluster _ hrestart rfl, hkept]
  | some saved =>
    obtain ⟨n, current⟩ := saved
    obtain ⟨machine, hstep, hsound, hcell⟩ := @StoreMachine.Sound.step _ _ _ _
      (.save a.disk current) hjson (h.sound n) (fun _ => hfollows n current hsaving)
    refine ⟨⟨d.cluster.step codec (a.lower (outcome machine)),
      Function.update d.machines n machine⟩,
      by simp only [DiskCluster.task, hsaving, hstep, bind, Except.bind], ?_⟩
    rcases hcell.of_save with ⟨-, hnew⟩ | ⟨-, hnew⟩ | ⟨hlost, hsame⟩
    · have hdurable : machine.store.durable = current := congrArg Cell.durable hnew
      have hfailed : machine.failed = none := congrArg Cell.failed hnew
      rw [outcome_synced hfailed]
      refine h.saved hrestart hsaving hsound hdurable ?_
      rintro state (rfl | hstate)
      · exact ⟨_, .synced, Or.inl rfl, rfl, hdurable⟩
      · rw [hfailed] at hstate
        cases hstate
    · have hdurable : machine.store.durable = (d.machines n).store.durable :=
        congrArg Cell.durable hnew
      have hfailed : machine.failed = some current := congrArg Cell.failed hnew
      rw [outcome_lost (by simp [hfailed])]
      refine h.saved hrestart hsaving hsound hdurable ?_
      -- the record of the failed save turns out to be lost, or to be there
      rintro state (rfl | hstate)
      · exact ⟨_, .failedLost "store error", Or.inl rfl, rfl, hdurable⟩
      · exact ⟨_, .failedWritten "store error", Or.inl rfl, rfl,
          Option.some.inj (hstate.symm.trans hfailed)⟩
    · have hdurable : machine.store.durable = (d.machines n).store.durable :=
        congrArg Cell.durable hsame
      have hfailed : machine.failed = (d.machines n).failed := congrArg Cell.failed hsame
      rw [outcome_lost (hfailed ▸ hlost)]
      refine h.saved hrestart hsaving hsound hdurable ?_
      intro state hstate
      refine ⟨state, .failedLost "store error", ?_, rfl, rfl⟩
      unfold MayFind at hstate ⊢
      rwa [hdurable, hfailed] at hstate

theorem Stored.restart (hjson : json.RoundTrips) (h : d.Stored crc32 json configs) (n : NodeId)
    (left : Option ℕ) :
    ∃ d', d.restart crc32 json configs n left = .ok d' ∧ d'.Stored crc32 json configs ∧
      ReadsBack codec d (.restart n left) d' := by
  obtain ⟨machine, hstep, hsound, hcell⟩ :=
    @StoreMachine.Sound.step _ _ _ _ (.restart left) hjson (h.sound n) trivial
  obtain ⟨hfailed, hfound⟩ := hcell.of_restart
  refine ⟨_, by simp only [DiskCluster.restart, hstep, bind, Except.bind]; rfl,
    h.update hsound (fun m => ?_), fun p hp => ?_⟩
  · rcases eq_or_ne m n with rfl | hm
    · simp only [setRuntime, Function.update_self]
      rfl
    · simp only [setRuntime, Function.update_of_ne hm]
      exact h.stores m
  · have hstate : p n = machine.store.durable := by
      have hn : MayFind (Function.update d.machines n machine n) (p n) := hp n
      rw [Function.update_self] at hn
      rcases hn with hstate | hstate
      · exact hstate
      · exact absurd (hfailed.symm.trans hstate) (by simp)
    have hall := @mayFind_update d n machine p hp machine.store.durable hfound
    rw [← hstate, Function.update_eq_self] at hall
    refine ⟨p, .synced, hall, ?_⟩
    have hset := setRuntime_withStores d.cluster p n
      (RaftRuntime.start (d.cluster.runtimes n).config (p n)) (p n)
    rw [Function.update_eq_self] at hset
    rw [← hstate, ← hset]
    rfl

theorem Explained.step (hjson : json.RoundTrips) {acts : List DiskAction}
    (h : d.Explained crc32 json codec configs acts) (hpeers : ∀ n, (configs n).peers = peers)
    (a : DiskAction) :
    ∃ d', d.step crc32 json codec configs a = .ok d' ∧ d'.Stored crc32 json configs ∧
      ReadsBack codec d a d' := by
  have htask {a : DiskAction} (hrestart : ∀ n left, a ≠ .restart n left) :=
    @Stored.task _ _ codec _ _ hjson h.toStored a hrestart (fun _ _ => h.follows hpeers hrestart)
  cases a with
  | tick n disk dropped => exact htask (a := .tick n disk dropped) (by simp)
  | deliver k disk dropped => exact htask (a := .deliver k disk dropped) (by simp)
  | propose n command disk dropped => exact htask (a := .propose n command disk dropped) (by simp)
  | cleanup n index id => exact htask (a := .cleanup n index id) (by simp)
  | restart n left => exact h.toStored.restart hjson n left

end DiskCluster
end BasisDB.Runtime
