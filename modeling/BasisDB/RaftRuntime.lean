import BasisDB.RaftNode
import BasisDB.KvCommand

/-! The driver of one node: every step is serialized with its store, persistent
state is saved before messages leave, committed commands are then applied in order,
and the proposal that waits at an applied index is answered. -/
namespace BasisDB.Runtime
open BasisDB.Raft BasisDB.Kv

/-- The JSON encoding of commands, which may fail either way. -/
structure Codec where
  encode : KvCommand → Option (List UInt8)
  decode : List UInt8 → Option KvCommand

structure NodeConfig where
  nodeId : NodeId
  peers : OrdSet NodeId
  consensus : Config

/-- `raft_config`: the Raft configuration of the node runtime. -/
def raftConfig (nodeId : NodeId) : Config :=
  { Config.new nodeId with parallelDiskWrite := false, maxEntriesPerMsg := 1 }

inductive RuntimeError where
  | store (text : String)
  | snapshotTransportUnsupported
  | unknownPeer (peer : NodeId)
  | failed
  deriving DecidableEq

def RuntimeError.message : RuntimeError → String
  | .store text => text
  | .snapshotTransportUnsupported => "Raft snapshot transport is not implemented"
  | .unknownPeer peer => "Raft emitted a message for unknown peer node-" ++ toString peer
  | .failed => "Raft runtime previously failed"

def runtimeConnectError (error : RuntimeError) : ConnectError :=
  ⟨.internal, "Raft runtime failed: " ++ error.message⟩

def proposeError : ProposeError → ConnectError
  | .notLeader (some leader) =>
    ⟨.failedPrecondition, "not leader; leader is " ++ toString leader⟩
  | .notLeader none => ⟨.failedPrecondition, "not leader; leader unknown"⟩
  | .throttled => ⟨.resourceExhausted, "too many Raft proposals"⟩

inductive MessageError where
  | wrongRecipient (expected actual : NodeId)
  | unknownSender (sender : NodeId)
  | selfMessage
  deriving DecidableEq

/-- A proposal that waits for its index to be applied. `sender` names the channel
that its caller reads. -/
structure PendingProposal where
  id : ℕ
  command : List UInt8
  sender : ℕ
  deriving DecidableEq

/-- The value that goes into the proposal's channel once `command` was applied. -/
def PendingProposal.complete (pending : PendingProposal) (command : Command)
    (result : Except ConnectError KvApplyResult) : Except ConnectError KvApplyResult :=
  if pending.command = command.bytes then result
  else .error ⟨.aborted, "Raft proposal was superseded"⟩

/-- A value sent into a channel, with the node and the applied entry it came from. -/
structure Completion where
  sender : ℕ
  node : NodeId
  entry : CommittedEntry
  result : Except ConnectError KvApplyResult
  deriving DecidableEq

structure RaftRuntime where
  config : NodeConfig
  node : RaftNode
  store : Persistent
  state : KvState
  waiters : OrdMap ℕ PendingProposal
  nextProposalId : ℕ
  failed : Bool

/-- The outcome of writing a record to the log on disk. After an error the record may
still be found there when the store is opened again. -/
inductive Write where
  | synced
  | failedWritten (text : String)
  | failedLost (text : String)

/-- How a task runs: whether it had passed `ensure_healthy` before the runtime failed, the
outcome of its disk write, and after how many applied commands it is dropped, if it is. -/
structure Task where
  admitted : Bool := false
  write : Write := .synced
  dropped : Option ℕ := none

/-- What a call of `propose` appended to its node's log. -/
structure ProposeCall where
  node : NodeId
  index : ℕ
  term : ℕ
  command : List UInt8
  deriving DecidableEq

/-- What a task leaves behind. -/
structure Outcome where
  runtime : RaftRuntime
  messages : List Message := []
  completions : List Completion := []
  appended : Option ProposeCall := none
  error : Option RuntimeError := none

namespace RaftRuntime

/-- The runtime that `open` builds over what the store recovered. -/
def start (config : NodeConfig) (store : Persistent) : RaftRuntime where
  config := config
  node := RaftNode.restore config.consensus store
  store := store
  state := KvState.new
  waiters := OrdMap.empty
  nextProposalId := 1
  failed := false

/-- `open` on an empty data directory. -/
def openNew (config : NodeConfig) : RaftRuntime :=
  start config (RaftNode.new config.consensus config.peers.toList).persistent

def validateMessage (r : RaftRuntime) (message : Message) : Except MessageError Unit :=
  if message.receiver ≠ r.config.nodeId then
    .error (.wrongRecipient r.config.nodeId message.receiver)
  else if message.sender = r.config.nodeId then .error .selfMessage
  else if r.config.peers.contains message.sender then .ok ()
  else .error (.unknownSender message.sender)

def ensureHealthy (r : RaftRuntime) (task : Task) : Bool := !r.failed || task.admitted

def save (r : RaftRuntime) : Write → RaftRuntime × Option RuntimeError
  | .synced => ({ r with store := r.node.persistent }, none)
  | .failedWritten text => ({ r with store := r.node.persistent }, some (.store text))
  | .failedLost text => (r, some (.store text))

/-- Send messages until one is addressed to an unknown peer. -/
def sendMessages (r : RaftRuntime) : List Message → List Message × Option RuntimeError
  | [] => ([], none)
  | message :: messages =>
    if r.config.peers.contains message.receiver ∧ message.receiver ≠ r.config.nodeId then
      let (sent, error) := r.sendMessages messages
      (message :: sent, error)
    else ([], some (.unknownPeer message.receiver))

def applyCommand (codec : Codec) (r : RaftRuntime) (command : Command) :
    RaftRuntime × Except ConnectError KvApplyResult :=
  match codec.decode command.bytes with
  | none => (r, .error ⟨.internal, "invalid Raft command payload"⟩)
  | some command =>
    let (state, result) := r.state.apply command
    ({ r with state := state }, result)

def completeWaiter (r : RaftRuntime) (entry : CommittedEntry)
    (result : Except ConnectError KvApplyResult) : RaftRuntime × List Completion :=
  match r.waiters.get entry.index with
  | none => (r, [])
  | some pending =>
    ({ r with waiters := r.waiters.remove entry.index },
      [{ sender := pending.sender
         node := r.config.nodeId
         entry := entry
         result := pending.complete entry.command result }])

/-- One turn of the loop of `apply_committed`. -/
def applyEntry (codec : Codec) (r : RaftRuntime) (entry : CommittedEntry) :
    RaftRuntime × List Completion :=
  let (r, result) := r.applyCommand codec entry.command
  { r with node := r.node.advance entry.index }.completeWaiter entry result

/-- `apply_committed`, for at most `turns` turns. -/
def applyCommitted (codec : Codec) : ℕ → RaftRuntime → RaftRuntime × List Completion
  | 0, r => (r, [])
  | turns + 1, r =>
    match r.node.committed with
    | [] => (r, [])
    | entry :: _ =>
      let (r, done) := r.applyEntry codec entry
      let (r, rest) := applyCommitted codec turns r
      (r, done ++ rest)

/-- The number of turns after which the loop has surely ended. -/
def turns (r : RaftRuntime) : ℕ := r.node.core.commitIndex - r.node.core.lastApplied

/-- Save, send, apply; the first error ends the step. -/
def handleEffects (codec : Codec) (r : RaftRuntime) (effects : Effects) (task : Task) : Outcome :=
  let (r, storeError) := if effects.persist then r.save task.write else (r, none)
  match storeError with
  | some error => { runtime := r, error := some error }
  | none =>
    if effects.sendSnapshots ≠ [] then
      { runtime := r, error := some .snapshotTransportUnsupported }
    else
      let (sent, sendError) := r.sendMessages effects.messages
      match sendError with
      | some error => { runtime := r, messages := sent, error := some error }
      | none =>
        let (r, completions) := r.applyCommitted codec (task.dropped.getD r.turns)
        { runtime := r, messages := sent, completions := completions }

/-- `fail`: a runtime whose step failed admits no further task. -/
def fail (out : Outcome) : Outcome :=
  if out.error.isSome then { out with runtime := { out.runtime with failed := true } } else out

/-- Carry out a step of the node. -/
def drive (codec : Codec) (r : RaftRuntime) (task : Task) (next : RaftNode × Effects) : Outcome :=
  if r.ensureHealthy task then
    fail (handleEffects codec { r with node := next.1 } next.2 task)
  else { runtime := r, error := some .failed }

def tickOnce (codec : Codec) (r : RaftRuntime) (task : Task) : Outcome :=
  r.drive codec task r.node.tick

def step (codec : Codec) (r : RaftRuntime) (message : Message) (task : Task) : Outcome :=
  r.drive codec task (r.node.step message)

def removePending (r : RaftRuntime) (index id : ℕ) : RaftRuntime :=
  if (r.waiters.get index).any (fun pending => pending.id = id) then
    { r with waiters := r.waiters.remove index }
  else r

/-- The part of `propose` that follows an accepted proposal. A failed task and a dropped one
take their waiter back. -/
def awaitProposal (codec : Codec) (r : RaftRuntime) (id : ℕ) (bytes : List UInt8) (sender : ℕ)
    (task : Task) (accepted : ℕ × Effects × RaftNode) : Outcome × Option (Except ConnectError ℕ) :=
  let (index, effects, node) := accepted
  let out := handleEffects codec
    { r with node := node, waiters := r.waiters.insert index ⟨id, bytes, sender⟩ } effects task
  let out := { out with appended := some ⟨r.config.nodeId, index, r.node.term, bytes⟩ }
  match out.error with
  | some error =>
    (fail { out with runtime := out.runtime.removePending index id },
      some (.error (runtimeConnectError error)))
  | none =>
    if task.dropped.isSome ∧ out.runtime.node.committed ≠ [] then
      ({ out with runtime := out.runtime.removePending index id }, none)
    else (out, some (.ok index))

/-- `propose` up to the point where it waits on its channel: its answer is an error, the index
it waits for, or nothing when the task was dropped before it got there. -/
def propose (codec : Codec) (r : RaftRuntime) (command : KvCommand) (sender : ℕ) (task : Task) :
    Outcome × Option (Except ConnectError ℕ) :=
  if r.ensureHealthy task then
    match checkedSucc r.nextProposalId with
    | none =>
      ({ runtime := r }, some (.error ⟨.resourceExhausted, "proposal id space exhausted"⟩))
    | some next =>
      let id := r.nextProposalId
      let r := { r with nextProposalId := next }
      match codec.encode command with
      | none => ({ runtime := r }, some (.error ⟨.internal, "failed to encode Raft command"⟩))
      | some bytes =>
        match r.node.propose ⟨bytes⟩ with
        | .error error => ({ runtime := r }, some (.error (proposeError error)))
        | .ok accepted => r.awaitProposal codec id bytes sender task accepted
  else ({ runtime := r }, some (.error (runtimeConnectError .failed)))

end RaftRuntime

/-- Runtimes over a network that may lose, reorder and duplicate messages. `calls` numbers the
channels of all proposals; `completions` is what was sent into them. -/
structure RuntimeCluster where
  runtimes : NodeId → RaftRuntime
  net : List Message
  calls : List ProposeCall
  completions : List Completion

/-- One step of a run. `cleanup` is what the end of a `propose` call does, whether it was
answered, timed out or dropped. -/
inductive RuntimeAction where
  | tick (n : NodeId) (task : Task)
  | deliver (k : ℕ) (task : Task)
  | propose (n : NodeId) (command : KvCommand) (task : Task)
  | cleanup (n : NodeId) (index id : ℕ)
  | restart (n : NodeId)

namespace RuntimeCluster

def init (configs : NodeId → NodeConfig) : RuntimeCluster where
  runtimes n := RaftRuntime.openNew
    { configs n with nodeId := n, consensus := { (configs n).consensus with id := n } }
  net := []
  calls := []
  completions := []

def setRuntime (s : RuntimeCluster) (n : NodeId) (r : RaftRuntime) : RuntimeCluster :=
  { s with runtimes := Function.update s.runtimes n r }

def record (s : RuntimeCluster) (n : NodeId) (out : Outcome) : RuntimeCluster where
  runtimes := Function.update s.runtimes n out.runtime
  net := s.net ++ out.messages
  calls := s.calls ++ out.appended.toList
  completions := s.completions ++ out.completions

/-- `receive_raft` behind the signature check. -/
def receiveRaft (codec : Codec) (s : RuntimeCluster) (message : Message) (task : Task) :
    RuntimeCluster :=
  match (s.runtimes message.receiver).validateMessage message with
  | .error _ => s
  | .ok () => s.record message.receiver ((s.runtimes message.receiver).step codec message task)

def step (codec : Codec) (s : RuntimeCluster) : RuntimeAction → RuntimeCluster
  | .tick n task => s.record n ((s.runtimes n).tickOnce codec task)
  | .deliver k task =>
    match s.net[k]? with
    | some message => s.receiveRaft codec message task
    | none => s
  | .propose n command task =>
    s.record n ((s.runtimes n).propose codec command s.calls.length task).1
  | .cleanup n index id => s.setRuntime n ((s.runtimes n).removePending index id)
  | .restart n =>
    s.setRuntime n (RaftRuntime.start (s.runtimes n).config (s.runtimes n).store)

def run (codec : Codec) (s : RuntimeCluster) (acts : List RuntimeAction) : RuntimeCluster :=
  acts.foldl (step codec) s

end RuntimeCluster
end BasisDB.Runtime
