import BasisDB.RuntimeRefines

/-! What a runtime has in its store matters only when it is opened again: runtimes over other stores
do the same, and so they do when a failed write turns out to have reached the disk. -/
namespace BasisDB.Runtime
open BasisDB.Raft BasisDB.Kv


def RaftRuntime.withStore (r : RaftRuntime) (store : Persistent) : RaftRuntime :=
  { r with store := store }

def Outcome.withStore (out : Outcome) (store : Persistent) : Outcome :=
  { out with runtime := out.runtime.withStore store }

namespace RaftRuntime
variable {codec : Codec} {r : RaftRuntime} {store : Persistent} {task task' : Task}

theorem sendMessages_withStore (r : RaftRuntime) (store : Persistent) (messages : List Message) :
    (r.withStore store).sendMessages messages = r.sendMessages messages := by
  induction messages with
  | nil => rfl
  | cons message messages ih =>
    unfold sendMessages
    rw [ih]
    rfl

theorem applyEntry_withStore (r : RaftRuntime) (store : Persistent) (entry : CommittedEntry) :
    (r.withStore store).applyEntry codec entry =
      ((r.applyEntry codec entry).1.withStore store, (r.applyEntry codec entry).2) := by
  unfold applyEntry applyCommand completeWaiter withStore
  cases codec.decode entry.command.bytes with
  | none =>
    dsimp only
    cases r.waiters.get entry.index <;> rfl
  | some command =>
    dsimp only
    cases r.waiters.get entry.index <;> rfl

theorem applyCommitted_withStore (turns : ℕ) (r : RaftRuntime) (store : Persistent) :
    applyCommitted codec turns (r.withStore store) =
      ((applyCommitted codec turns r).1.withStore store, (applyCommitted codec turns r).2) := by
  induction turns generalizing r with
  | zero => rfl
  | succ turns ih =>
    unfold applyCommitted
    have hcommitted : (r.withStore store).node.committed = r.node.committed := rfl
    rw [hcommitted]
    cases r.node.committed with
    | nil => rfl
    | cons entry rest =>
      dsimp only
      rw [applyEntry_withStore, ih]

/-- The outcome of a write matters for the store and for the error, and for nothing else. -/
theorem handleEffects_withStore (r : RaftRuntime) (store : Persistent) (effects : Effects)
    (herror : task.write.error = task'.write.error) (hdropped : task.dropped = task'.dropped) :
    (r.withStore store).handleEffects codec effects task =
      (r.handleEffects codec effects task').withStore
        (if effects.persist = true ∧ task.write.lost = false then r.node.persistent
          else store) := by
  have hsave (r : RaftRuntime) (task : Task) :
      (if effects.persist then r.save task.write else (r, none)) =
        (r.withStore (if effects.persist = true ∧ task.write.lost = false then r.node.persistent
          else r.store), if effects.persist then task.write.error else none) :=
    saveIf_eq r effects.persist task.write
  have hsame : ((r.withStore store).withStore (if effects.persist = true ∧ task.write.lost = false
      then (r.withStore store).node.persistent else (r.withStore store).store)) =
        r.withStore (if effects.persist = true ∧ task.write.lost = false then r.node.persistent
          else store) := rfl
  unfold handleEffects
  rw [hsave, hsave, hsame, herror, hdropped]
  generalize (if effects.persist = true ∧ task.write.lost = false then r.node.persistent
    else store) = x
  generalize (if effects.persist = true ∧ task'.write.lost = false then r.node.persistent
    else r.store) = y
  cases (if effects.persist then task'.write.error else none) with
  | some error => rfl
  | none =>
    dsimp only
    split_ifs
    · rfl
    · rw [sendMessages_withStore, sendMessages_withStore]
      rcases r.sendMessages effects.messages with ⟨sent, sendError⟩
      cases sendError with
      | some error => rfl
      | none =>
        dsimp only
        rw [applyCommitted_withStore, applyCommitted_withStore]
        rfl

theorem removePending_withStore (r : RaftRuntime) (store : Persistent) (index id : ℕ) :
    (r.withStore store).removePending index id = (r.removePending index id).withStore store := by
  unfold removePending withStore
  dsimp only
  split_ifs <;> rfl

theorem fail_withStore (out : Outcome) (store : Persistent) :
    fail (out.withStore store) = (fail out).withStore store := by
  unfold fail
  have herror : (out.withStore store).error = out.error := rfl
  rw [herror]
  split_ifs <;> rfl

/-- What the store holds after a task with this step and this write. -/
def stored (r : RaftRuntime) (store : Persistent) (write : Write) (next : RaftNode × Effects) :
    Persistent :=
  if r.failed = false ∧ next.2.persist = true ∧ write.lost = false then next.1.persistent else store

theorem stored_running (hfailed : r.failed = false) (store : Persistent) (write : Write)
    (next : RaftNode × Effects) : r.stored store write next =
      if next.2.persist = true ∧ write.lost = false then next.1.persistent else store := by
  unfold stored
  simp only [hfailed, true_and]

theorem drive_withStore (r : RaftRuntime) (store : Persistent) (next : RaftNode × Effects)
    {write write' : Write} (dropped : Option ℕ) (herror : write.error = write'.error) :
    (r.withStore store).drive codec ⟨false, write, dropped⟩ next =
      (r.drive codec ⟨false, write', dropped⟩ next).withStore (r.stored store write next) := by
  cases hfailed : r.failed with
  | true =>
    have hrefused (r : RaftRuntime) (write : Write) (hfailed : r.failed = true) :
        r.ensureHealthy ⟨false, write, dropped⟩ = false := by simp [ensureHealthy, hfailed]
    rw [drive_refused codec (hrefused r write' hfailed),
      drive_refused codec (hrefused (r.withStore store) write hfailed)]
    unfold stored
    rw [if_neg (by simp [hfailed])]
    rfl
  | false =>
    have hhealthy (r : RaftRuntime) (write : Write) (hfailed : r.failed = false) :
        r.ensureHealthy ⟨false, write, dropped⟩ = true := by simp [ensureHealthy, hfailed]
    have heffects := @handleEffects_withStore codec ⟨false, write, dropped⟩ ⟨false, write', dropped⟩
      { r with node := next.1 } store next.2 herror rfl
    unfold drive
    rw [if_pos (hhealthy r write' hfailed), if_pos (hhealthy (r.withStore store) write hfailed),
      ← fail_withStore, stored_running hfailed]
    exact congrArg fail heffects

theorem awaitProposal_withStore (r : RaftRuntime) (store : Persistent) (id : ℕ) (bytes : List UInt8)
    (sender : ℕ) {write write' : Write} (dropped : Option ℕ) (herror : write.error = write'.error)
    (index : ℕ) (effects : Effects) (node : RaftNode) :
    ((r.withStore store).awaitProposal codec id bytes sender ⟨false, write, dropped⟩
        (index, effects, node)).1 =
      (r.awaitProposal codec id bytes sender ⟨false, write', dropped⟩
        (index, effects, node)).1.withStore
        (if effects.persist = true ∧ write.lost = false then node.persistent else store) := by
  have heffects := @handleEffects_withStore codec ⟨false, write, dropped⟩ ⟨false, write', dropped⟩
    { r with node := node, waiters := r.waiters.insert index ⟨id, bytes, sender⟩ } store effects
    herror rfl
  have hstart : ({ r.withStore store with
      node := node, waiters := r.waiters.insert index ⟨id, bytes, sender⟩ } : RaftRuntime) =
        ({ r with node := node, waiters := r.waiters.insert index ⟨id, bytes, sender⟩ } :
          RaftRuntime).withStore store := rfl
  unfold awaitProposal
  dsimp only
  have hwaiters : (r.withStore store).waiters = r.waiters := rfl
  rw [hwaiters, hstart, heffects]
  dsimp only
  generalize handleEffects codec { r with
    node := node, waiters := r.waiters.insert index ⟨id, bytes, sender⟩ } effects
      ⟨false, write', dropped⟩ = out
  generalize (if effects.persist = true ∧ write.lost = false then node.persistent else store) = x
  have herrors : (out.withStore x).error = out.error := rfl
  have hnode : (out.withStore x).runtime.node = out.runtime.node := rfl
  have hruntime : (out.withStore x).runtime = out.runtime.withStore x := rfl
  rw [herrors, hnode, hruntime, removePending_withStore]
  cases out.error with
  | some error =>
    dsimp only
    rw [← fail_withStore]
    rfl
  | none =>
    dsimp only
    split_ifs <;> rfl

/-- The step of the node that an accepted proposal takes. -/
def proposed (codec : Codec) (r : RaftRuntime) (command : KvCommand) :
    Option (RaftNode × Effects) :=
  if r.failed then none
  else
    match checkedSucc r.nextProposalId with
    | none => none
    | some _ =>
      match codec.encode command with
      | none => none
      | some bytes =>
        match r.node.propose ⟨bytes⟩ with
        | .error _ => none
        | .ok (_, effects, node) => some (node, effects)

/-- What the store holds after a proposal with this write. -/
def storedProposal (codec : Codec) (r : RaftRuntime) (store : Persistent) (write : Write)
    (command : KvCommand) : Persistent :=
  match r.proposed codec command with
  | none => store
  | some next => r.stored store write next

theorem propose_withStore (r : RaftRuntime) (store : Persistent) (command : KvCommand) (sender : ℕ)
    {write write' : Write} (dropped : Option ℕ) (herror : write.error = write'.error) :
    ((r.withStore store).propose codec command sender ⟨false, write, dropped⟩).1 =
      (r.propose codec command sender ⟨false, write', dropped⟩).1.withStore
        (r.storedProposal codec store write command) := by
  have hhealthy : (r.withStore store).ensureHealthy ⟨false, write, dropped⟩ =
      r.ensureHealthy ⟨false, write', dropped⟩ := rfl
  have hid : (r.withStore store).nextProposalId = r.nextProposalId := rfl
  have hnode : (r.withStore store).node = r.node := rfl
  unfold propose storedProposal proposed
  rw [hhealthy, hid]
  by_cases h : r.ensureHealthy ⟨false, write', dropped⟩ = true
  · have hfailed : r.failed = false := by simpa [ensureHealthy] using h
    rw [if_pos h, if_pos h, if_neg (by simp [hfailed])]
    cases checkedSucc r.nextProposalId with
    | none => rfl
    | some next =>
      dsimp only
      cases codec.encode command with
      | none => rfl
      | some bytes =>
        dsimp only
        rw [hnode]
        cases r.node.propose ⟨bytes⟩ with
        | error e => rfl
        | ok accepted =>
          obtain ⟨index, effects, node⟩ := accepted
          have hawait := @awaitProposal_withStore codec { r with nextProposalId := next } store
            r.nextProposalId bytes sender write write' dropped herror index effects node
          dsimp only
          rw [stored_running hfailed]
          exact hawait
  · have hfailed : r.failed = true := by simpa [ensureHealthy] using h
    rw [if_neg h, if_neg h, if_pos hfailed]
    rfl

end RaftRuntime

namespace RuntimeCluster
variable {codec : Codec} {s : RuntimeCluster} {p : NodeId → Persistent}

/-- The same runtimes over other stores. -/
def withStores (s : RuntimeCluster) (p : NodeId → Persistent) : RuntimeCluster :=
  { s with runtimes := fun n => (s.runtimes n).withStore (p n) }

theorem withStores_store (s : RuntimeCluster) (p : NodeId → Persistent) (n : NodeId) :
    ((s.withStores p).runtimes n).store = p n := rfl

theorem record_withStores (s : RuntimeCluster) (p : NodeId → Persistent) (n : NodeId)
    (out : Outcome) (store : Persistent) :
    (s.withStores p).record n (out.withStore store) =
      (s.record n out).withStores (Function.update p n store) := by
  have hruntimes : Function.update (s.withStores p).runtimes n (out.withStore store).runtime =
      fun m => (Function.update s.runtimes n out.runtime m).withStore
        (Function.update p n store m) := by
    funext m
    rcases eq_or_ne m n with rfl | hm
    · rw [Function.update_self, Function.update_self, Function.update_self]
      rfl
    · rw [Function.update_of_ne hm, Function.update_of_ne hm, Function.update_of_ne hm]
      rfl
  unfold record
  rw [hruntimes]
  rfl

theorem setRuntime_withStores (s : RuntimeCluster) (p : NodeId → Persistent) (n : NodeId)
    (r : RaftRuntime) (store : Persistent) :
    (s.withStores p).setRuntime n (r.withStore store) =
      (s.setRuntime n r).withStores (Function.update p n store) := by
  unfold setRuntime withStores
  dsimp only
  congr 1
  funext m
  rcases eq_or_ne m n with rfl | hm
  · rw [Function.update_self, Function.update_self, Function.update_self]
  · rw [Function.update_of_ne hm, Function.update_of_ne hm, Function.update_of_ne hm]

end RuntimeCluster

end BasisDB.Runtime
