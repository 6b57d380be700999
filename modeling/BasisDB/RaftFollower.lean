import BasisDB.RaftCore

/-! The follower role: votes, log replication, read-index heartbeats, snapshots
and the election timeout. -/
namespace BasisDB.Raft

/-- What a role's step leaves behind: its own state, the core and the result. -/
structure Stepped (ρ : Type) where
  role : ρ
  core : Core
  result : StepResult

/-- A message of this node at its current term. -/
def Core.message (core : Core) (receiver : NodeId) (payload : Payload) : Message :=
  { sender := core.id, receiver := receiver, term := core.term, payload := payload }

/-- A preliminary vote: the answer carries the asker's term and our own inside. -/
def Core.prevoteReply (core : Core) (sender : NodeId) (msgTerm : ℕ) (req : PreVoteRequest) :
    Effects :=
  let dominated := core.logIsUpToDate req.lastLogTerm req.lastLogIndex
  let candidateIsVoter := core.effectiveConfig.isVoter sender
  let termOk := decide (core.term < req.nextTerm)
  Effects.none.withMessage
    { sender := core.id
      receiver := sender
      term := msgTerm
      payload := .preVoteResponse
        { term := core.term, granted := candidateIsVoter && termOk && dominated } }

/-- The refusal of any kind of vote while a leader is active. -/
def Core.denyReply (core : Core) (msg : Message) : Effects :=
  match msg.payload with
  | .preVoteRequest _ => Effects.none.withMessage
      (core.message msg.sender (.preVoteResponse { term := core.term, granted := false }))
  | .voteRequest _ => Effects.none.withMessage
      (core.message msg.sender (.voteResponse { granted := false }))
  | _ => Effects.none

/-- The refusal of a vote or append request of an older term. -/
def Core.staleReply (core : Core) (msg : Message) : Effects :=
  match msg.payload with
  | .voteRequest _ => Effects.none.withMessage
      (core.message msg.sender (.voteResponse { granted := false }))
  | .appendRequest _ => Effects.none.withMessage
      (core.message msg.sender
        (.appendResponse { success := false, lastLogIndex := core.log.lastIndex }))
  | _ => Effects.none

structure Follower where
  leader : Option NodeId
  electionDeadline : ℕ
  lastContactTick : Option ℕ
  deriving DecidableEq

namespace Follower

def new (core : Core) (leader : Option NodeId) : Follower × Core :=
  let (core', timeout) := core.randomElectionTimeout
  ({ leader := leader
     electionDeadline := core.ticks + timeout
     lastContactTick := none }, core')

def afterLeaderContact (core : Core) (leader : Option NodeId) : Follower × Core :=
  let (f, core') := new core leader
  ({ f with lastContactTick := some core.ticks }, core')

def resetDeadline (f : Follower) (core : Core) : Follower × Core :=
  let (core', timeout) := core.randomElectionTimeout
  ({ f with electionDeadline := core.ticks + timeout }, core')

/-- The three assignments every message of a leader starts with. -/
def contact (f : Follower) (core : Core) (sender : NodeId) : Follower × Core :=
  resetDeadline { f with leader := some sender, lastContactTick := some core.ticks } core

def recentlyHeardFromLeader (f : Follower) (core : Core) : Bool :=
  match f.leader, f.lastContactTick with
  | some _, some tick => decide (core.ticks - tick < core.config.electionTimeout.1)
  | _, _ => false

def handleTick (f : Follower) (core : Core) : Stepped Follower :=
  let core := { core with ticks := core.ticks + 1 }
  { role := f
    core := core
    result :=
      if f.electionDeadline ≤ core.ticks then
        if core.config.prevote then StepResult.toPreCandidate Effects.none
        else StepResult.toCandidate Effects.none
      else StepResult.none }

def handleVoteRequest (f : Follower) (core : Core) (sender : NodeId) (req : VoteRequest) :
    Stepped Follower :=
  let dominated := core.logIsUpToDate req.lastLogTerm req.lastLogIndex
  let candidateIsVoter := core.effectiveConfig.isVoter sender
  let canVote := core.canVoteFor sender
  let granted := candidateIsVoter && canVote && dominated
  if granted then
    let (f', core') := f.resetDeadline (core.voteFor sender)
    { role := f'
      core := core'
      result := StepResult.stay (Effects.none.withPersist.withMessage
        (core'.message sender (.voteResponse { granted := true }))) }
  else
    { role := f
      core := core
      result := StepResult.stay (Effects.none.withMessage
        (core.message sender (.voteResponse { granted := false }))) }

/-- One round of the append loop: truncate on a term conflict, then append past the end. -/
def appendEntry (acc : Log × Bool) (entry : Entry) : Log × Bool :=
  let existing := acc.1.termAt entry.index
  let log :=
    if existing ≠ 0 ∧ existing ≠ entry.term then acc.1.truncateAfter (entry.index - 1) else acc.1
  if log.lastIndex < entry.index then (log.append entry, true) else (log, acc.2)

/-- The append loop; the flag says whether anything was appended. -/
def appendEntries (log : Log) (entries : List Entry) : Log × Bool :=
  entries.foldl appendEntry (log, false)

/-- The consistency check of `handle_append_request`. -/
def accepts (log : Log) (req : AppendRequest) : Bool :=
  !(decide (0 < req.prevLogIndex) && decide (log.termAt req.prevLogIndex ≠ req.prevLogTerm))

def handleAppendRequest (f : Follower) (core : Core) (sender : NodeId) (req : AppendRequest) :
    Stepped Follower :=
  let (f', core) := f.contact core sender
  if !accepts core.log req then
    { role := f'
      core := core
      result := StepResult.stay (Effects.none.withMessage (core.message sender
        (.appendResponse { success := false, lastLogIndex := core.log.lastIndex }))) }
  else
    let (log, persist) := appendEntries core.log req.entries
    let core := core.setLog log
    let core :=
      if core.commitIndex < req.leaderCommit then
        core.setCommitIndex (min req.leaderCommit core.log.lastIndex)
      else core
    let effects := if persist then Effects.none.withPersist else Effects.none
    { role := f'
      core := core
      result := StepResult.stay (effects.withMessage (core.message sender
        (.appendResponse { success := true, lastLogIndex := core.log.lastIndex }))) }

def handleReadIndexRequest (f : Follower) (core : Core) (sender : NodeId) (req : ReadIndexRequest) :
    Stepped Follower :=
  let (f', core) := f.contact core sender
  { role := f'
    core := core
    result := StepResult.stay (Effects.none.withMessage (core.message sender
      (.readIndexResponse { id := req.id, readIndex := req.readIndex }))) }

def handleInstallSnapshot (f : Follower) (core : Core) (sender : NodeId)
    (req : InstallSnapshotRequest) : Stepped Follower :=
  let (f', core) := f.contact core sender
  let reply (core : Core) (success : Bool) : Message := core.message sender
    (.installSnapshotResponse { success := success, lastIncludedIndex := req.lastIncludedIndex })
  if req.lastIncludedIndex ≤ core.log.snapshotIndex then
    { role := f', core := core
      result := StepResult.stay (Effects.none.withMessage (reply core false)) }
  else if req.lastIncludedIndex < core.commitIndex ∧
      core.log.snapshotMatchesPrefix req.lastIncludedIndex req.lastIncludedTerm = false then
    { role := f', core := core
      result := StepResult.stay (Effects.none.withMessage (reply core false)) }
  else
    let core := core.setLog (core.log.installSnapshot req.lastIncludedIndex req.lastIncludedTerm
      req.configuration)
    let core := { core with
      commitIndex := max core.commitIndex req.lastIncludedIndex
      lastApplied := max core.lastApplied req.lastIncludedIndex }
    { role := f', core := core
      result := StepResult.stay (Effects.none.withPersist.withMessage (reply core true)) }

def rejectDueToActiveLeader (core : Core) (msg : Message) : Effects := core.denyReply msg

def handlePrevoteRequest (core : Core) (sender : NodeId) (msgTerm : ℕ) (req : PreVoteRequest) :
    Effects := core.prevoteReply sender msgTerm req

/-- Like the other roles' refusal, except that a stale read-index heartbeat is
answered as if it were current, at our own term. -/
def rejectStale (core : Core) (msg : Message) : Effects :=
  match msg.payload with
  | .readIndexRequest req => Effects.none.withMessage (core.message msg.sender
      (.readIndexResponse { id := req.id, readIndex := req.readIndex }))
  | _ => core.staleReply msg

/-- Dispatch of a message whose term has been brought level with ours. -/
def handleCurrent (f : Follower) (core : Core) (msg : Message) : Stepped Follower :=
  match msg.payload with
  | .voteRequest req => f.handleVoteRequest core msg.sender req
  | .appendRequest req => f.handleAppendRequest core msg.sender req
  | .readIndexRequest req => f.handleReadIndexRequest core msg.sender req
  | .installSnapshotRequest req => f.handleInstallSnapshot core msg.sender req
  | .timeoutNow => { role := f, core := core, result := StepResult.toCandidate Effects.none }
  | _ => { role := f, core := core, result := StepResult.none }

/-- A message of a higher term: adopt the term, and the sender when it speaks as leader. -/
def observeTerm (f : Follower) (core : Core) (msg : Message) : Follower × Core :=
  let (f', core') := f.resetDeadline (core.maybeUpdateTerm msg.term).1
  if msg.payload.isAppendRequest || msg.payload.isReadIndexRequest then
    ({ f' with leader := some msg.sender }, core')
  else (f', core')

def handleMessage (f : Follower) (core : Core) (msg : Message) : Stepped Follower :=
  if msg.payload.isVoteSolicitation && f.recentlyHeardFromLeader core then
    { role := f, core := core, result := StepResult.stay (rejectDueToActiveLeader core msg) }
  else match msg.payload with
    | .preVoteRequest req =>
      { role := f, core := core
        result := StepResult.stay (handlePrevoteRequest core msg.sender msg.term req) }
    | _ =>
      if core.term < msg.term then
        let (f', core') := f.observeTerm core msg
        let s := f'.handleCurrent core' msg
        { s with result := { s.result with effects := s.result.effects.withPersist } }
      else if msg.term < core.term then
        { role := f, core := core, result := StepResult.stay (rejectStale core msg) }
      else f.handleCurrent core msg

def step (f : Follower) (core : Core) : Event → Stepped Follower
  | .tick => f.handleTick core
  | .diskWriteComplete _ => { role := f, core := core, result := StepResult.none }
  | .message msg => f.handleMessage core msg

end Follower
end BasisDB.Raft
