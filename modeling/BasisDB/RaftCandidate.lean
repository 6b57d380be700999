import BasisDB.RaftFollower

/-! The pre-candidate and candidate roles. -/
namespace BasisDB.Raft

/-- The vote set a campaign opens with: our own vote, if we are a voter at all. -/
def Core.ownVote (core : Core) : OrdSet NodeId :=
  if core.isVoter then OrdSet.singleton core.id else OrdSet.empty

structure PreCandidate where
  preVotes : OrdSet NodeId
  electionDeadline : ℕ
  lastContactTick : ℕ
  deriving DecidableEq

namespace PreCandidate

def new (core : Core) : PreCandidate × Core × Effects :=
  let (core', timeout) := core.randomElectionTimeout
  let precandidate : PreCandidate :=
    { preVotes := core'.ownVote
      electionDeadline := core.ticks + timeout
      lastContactTick := core.ticks - core.config.electionTimeout.1 }
  let config := core'.effectiveConfig
  if config.voterCount = 1 ∧ config.isVoter core'.id = true then (precandidate, core', Effects.none)
  else
    let req : PreVoteRequest :=
      { nextTerm := core'.term + 1
        lastLogIndex := core'.log.lastIndex
        lastLogTerm := core'.log.lastTerm }
    (precandidate, core', Effects.none.withMessages ((config.voterPeers core'.id).map
      (fun peer => core'.message peer (.preVoteRequest req))))

def hasQuorum (p : PreCandidate) (core : Core) : Bool :=
  core.effectiveConfig.hasQuorum (fun voter => p.preVotes.contains voter)

def recentlyHeardFromLeader (p : PreCandidate) (core : Core) : Bool :=
  decide (core.ticks - p.lastContactTick < core.config.electionTimeout.1)

def denyVote (core : Core) (msg : Message) : Effects := core.denyReply msg

def handleTick (p : PreCandidate) (core : Core) : Stepped PreCandidate :=
  let core := { core with ticks := core.ticks + 1 }
  if p.recentlyHeardFromLeader core then
    let (core', timeout) := core.randomElectionTimeout
    { role := { p with electionDeadline := core.ticks + timeout }, core := core'
      result := StepResult.none }
  else
    { role := p, core := core
      result := if p.electionDeadline ≤ core.ticks then StepResult.toPreCandidate Effects.none
        else StepResult.none }

def handlePrevoteResponse (p : PreCandidate) (core : Core) (sender : NodeId)
    (resp : PreVoteResponse) : Stepped PreCandidate :=
  if core.term < resp.term then
    { role := p, core := (core.maybeUpdateTerm resp.term).1
      result := StepResult.toFollower none Effects.none.withPersist }
  else if resp.term < core.term ∨ resp.granted = false then
    { role := p, core := core, result := StepResult.none }
  else
    let p' := { p with preVotes := p.preVotes.insert sender }
    { role := p', core := core
      result := if p'.hasQuorum core then StepResult.toCandidate Effects.none else StepResult.none }

def handleAppendRequest (p : PreCandidate) (core : Core) (sender : NodeId) : Stepped PreCandidate :=
  { role := { p with lastContactTick := core.ticks }, core := core
    result := StepResult.toFollowerAfterContact (some sender) Effects.none }

def handlePrevoteRequest (core : Core) (sender : NodeId) (msgTerm : ℕ) (req : PreVoteRequest) :
    StepResult := StepResult.stay (core.prevoteReply sender msgTerm req)

def handleVoteRequest (core : Core) (sender : NodeId) : StepResult :=
  StepResult.stay (Effects.none.withMessage
    (core.message sender (.voteResponse { granted := false })))

/-- Unlike the other roles, a pre-candidate has no refusal of older terms: such a
message is dispatched like a current one. -/
def handleMessage (p : PreCandidate) (core : Core) (msg : Message) : Stepped PreCandidate :=
  if msg.payload.isVoteSolicitation && p.recentlyHeardFromLeader core then
    { role := p, core := core, result := StepResult.stay (denyVote core msg) }
  else if core.term < msg.term then
    { role := p, core := (core.maybeUpdateTerm msg.term).1
      result := StepResult.toFollower
        (if msg.payload.isAppendRequest then some msg.sender else none) Effects.none.withPersist }
  else match msg.payload with
    | .preVoteResponse resp => p.handlePrevoteResponse core msg.sender resp
    | .appendRequest _ => p.handleAppendRequest core msg.sender
    | .preVoteRequest req =>
      { role := p, core := core, result := handlePrevoteRequest core msg.sender msg.term req }
    | .voteRequest _ => { role := p, core := core, result := handleVoteRequest core msg.sender }
    | .timeoutNow => { role := p, core := core, result := StepResult.toCandidate Effects.none }
    | _ => { role := p, core := core, result := StepResult.none }

def step (p : PreCandidate) (core : Core) : Event → Stepped PreCandidate
  | .tick => p.handleTick core
  | .diskWriteComplete _ => { role := p, core := core, result := StepResult.none }
  | .message msg => p.handleMessage core msg

end PreCandidate

structure Candidate where
  votes : OrdSet NodeId
  electionDeadline : ℕ
  lastContactTick : ℕ
  deriving DecidableEq

namespace Candidate

def new (core : Core) : Candidate × Core × Effects :=
  let core := core.startElection
  let (core', timeout) := core.randomElectionTimeout
  let candidate : Candidate :=
    { votes := core'.ownVote
      electionDeadline := core.ticks + timeout
      lastContactTick := core.ticks - core.config.electionTimeout.1 }
  let config := core'.effectiveConfig
  if config.voterCount = 1 ∧ config.isVoter core'.id = true then
    (candidate, core', Effects.none.withPersist)
  else
    let req : VoteRequest :=
      { lastLogIndex := core'.log.lastIndex, lastLogTerm := core'.log.lastTerm }
    (candidate, core', Effects.none.withPersist.withMessages ((config.voterPeers core'.id).map
      (fun peer => core'.message peer (.voteRequest req))))

def hasQuorum (c : Candidate) (core : Core) : Bool :=
  core.effectiveConfig.hasQuorum (fun voter => c.votes.contains voter)

def recentlyHeardFromLeader (c : Candidate) (core : Core) : Bool :=
  decide (core.ticks - c.lastContactTick < core.config.electionTimeout.1)

def denyVote (core : Core) (msg : Message) : Effects := core.denyReply msg

def rejectStale (core : Core) (msg : Message) : Effects := core.staleReply msg

def handleTick (c : Candidate) (core : Core) : Stepped Candidate :=
  let core := { core with ticks := core.ticks + 1 }
  if c.recentlyHeardFromLeader core then
    let (core', timeout) := core.randomElectionTimeout
    { role := { c with electionDeadline := core.ticks + timeout }, core := core'
      result := StepResult.none }
  else
    { role := c, core := core
      result := if c.electionDeadline ≤ core.ticks then StepResult.toCandidate Effects.none
        else StepResult.none }

def handleVoteResponse (c : Candidate) (core : Core) (sender : NodeId) (resp : VoteResponse) :
    Stepped Candidate :=
  if resp.granted = false then { role := c, core := core, result := StepResult.none }
  else
    let c' := { c with votes := c.votes.insert sender }
    { role := c', core := core
      result := if c'.hasQuorum core then StepResult.toLeader Effects.none else StepResult.none }

def handleAppendRequest (c : Candidate) (core : Core) (sender : NodeId) : Stepped Candidate :=
  { role := { c with lastContactTick := core.ticks }, core := core
    result := StepResult.toFollowerAfterContact (some sender) Effects.none }

def handleVoteRequest (core : Core) (sender : NodeId) : StepResult :=
  StepResult.stay (Effects.none.withMessage
    (core.message sender (.voteResponse { granted := false })))

def handlePrevoteRequest (core : Core) (sender : NodeId) (msgTerm : ℕ) (req : PreVoteRequest) :
    Effects := core.prevoteReply sender msgTerm req

def handleMessage (c : Candidate) (core : Core) (msg : Message) : Stepped Candidate :=
  if msg.payload.isVoteSolicitation && c.recentlyHeardFromLeader core then
    { role := c, core := core, result := StepResult.stay (denyVote core msg) }
  else match msg.payload with
    | .preVoteRequest req =>
      { role := c, core := core
        result := StepResult.stay (handlePrevoteRequest core msg.sender msg.term req) }
    | _ =>
      if core.term < msg.term then
        { role := c, core := (core.maybeUpdateTerm msg.term).1
          result := StepResult.toFollower
            (if msg.payload.isAppendRequest then some msg.sender else none)
            Effects.none.withPersist }
      else if msg.term < core.term then
        { role := c, core := core, result := StepResult.stay (rejectStale core msg) }
      else match msg.payload with
        | .voteResponse resp => c.handleVoteResponse core msg.sender resp
        | .appendRequest _ => c.handleAppendRequest core msg.sender
        | .voteRequest _ => { role := c, core := core, result := handleVoteRequest core msg.sender }
        | .timeoutNow => { role := c, core := core, result := StepResult.toCandidate Effects.none }
        | _ => { role := c, core := core, result := StepResult.none }

def step (c : Candidate) (core : Core) : Event → Stepped Candidate
  | .tick => c.handleTick core
  | .diskWriteComplete _ => { role := c, core := core, result := StepResult.none }
  | .message msg => c.handleMessage core msg

end Candidate
end BasisDB.Raft
