import BasisDB.RaftCandidate
import BasisDB.RaftLeader

/-! A consensus node: the core with its current role, and the public entry points. -/
namespace BasisDB.Raft

inductive ProposeError where
  | notLeader (leaderHint : Option NodeId)
  | throttled
  deriving DecidableEq

inductive RoleState where
  | follower (f : Follower)
  | preCandidate (p : PreCandidate)
  | candidate (c : Candidate)
  | leader (l : Leader)
  deriving DecidableEq

namespace RoleState

def isLeader : RoleState → Bool
  | leader _ => true
  | _ => false

end RoleState

structure CommittedEntry where
  index : ℕ
  term : ℕ
  command : Command
  deriving DecidableEq

structure RaftNode where
  core : Core
  role : RoleState
  deriving DecidableEq

namespace RaftNode

/-- Become a follower with a fresh election deadline. -/
def followerOf (core : Core) (leader : Option NodeId) : RaftNode :=
  let (f, core') := Follower.new core leader
  { core := core', role := .follower f }

def new (config : Config) (voters : List NodeId) : RaftNode := followerOf (Core.new config voters) none

def restore (config : Config) (persistent : Persistent) : RaftNode :=
  followerOf (Core.restore config persistent) none

def id (n : RaftNode) : NodeId := n.core.id

def term (n : RaftNode) : ℕ := n.core.term

def log (n : RaftNode) : Log := n.core.log

def isLeader (n : RaftNode) : Bool := n.role.isLeader

def leader (n : RaftNode) : Option NodeId :=
  match n.role with
  | .leader _ => some n.core.id
  | .follower f => f.leader
  | _ => none

def commitIndex (n : RaftNode) : ℕ := n.core.commitIndex

def persistent (n : RaftNode) : Persistent := n.core.persistent

def becomeLeader (core : Core) : RaftNode × Effects :=
  let (l, effects) := Leader.new core
  ({ core := core, role := .leader l }, effects)

/-- `ToCandidate`: start an election, and win it at once when our own vote is a quorum. -/
def becomeCandidate (core : Core) : RaftNode × Effects :=
  let (candidate, core, effects) := Candidate.new core
  if candidate.hasQuorum core then
    let (n, leaderEffects) := becomeLeader core
    (n, effects.merge leaderEffects)
  else ({ core := core, role := .candidate candidate }, effects)

/-- `ToPreCandidate`: start a pre-election, and go on to the election when our own
pre-vote is a quorum. -/
def becomePreCandidate (core : Core) : RaftNode × Effects :=
  let (precandidate, core, effects) := PreCandidate.new core
  if precandidate.hasQuorum core then
    let (n, candidateEffects) := becomeCandidate core
    (n, effects.merge candidateEffects)
  else ({ core := core, role := .preCandidate precandidate }, effects)

def applyTransition (n : RaftNode) : Transition → RaftNode × Effects
  | .stay => (n, Effects.none)
  | .toFollower leader => (followerOf n.core leader, Effects.none)
  | .toFollowerAfterContact leader =>
    let (f, core) := Follower.afterLeaderContact n.core leader
    ({ core := core, role := .follower f }, Effects.none)
  | .toPreCandidate => becomePreCandidate n.core
  | .toCandidate => becomeCandidate n.core
  | .toLeader => becomeLeader n.core

/-- Finish a role's step: carry out the transition it asks for. -/
def settle (n : RaftNode) (result : StepResult) : RaftNode × Effects :=
  match result.transition with
  | .stay => (n, result.effects)
  | transition =>
    let (n', transitionEffects) := n.applyTransition transition
    (n', result.effects.merge transitionEffects)

def stepEvent (n : RaftNode) (event : Event) : RaftNode × Effects :=
  match n.role with
  | .follower f =>
    let s := f.step n.core event
    settle { core := s.core, role := .follower s.role } s.result
  | .preCandidate p =>
    let s := p.step n.core event
    settle { core := s.core, role := .preCandidate s.role } s.result
  | .candidate c =>
    let s := c.step n.core event
    settle { core := s.core, role := .candidate s.role } s.result
  | .leader l =>
    let s := l.step n.core event
    settle { core := s.core, role := .leader s.role } s.result

def tick (n : RaftNode) : RaftNode × Effects := n.stepEvent .tick

def step (n : RaftNode) (msg : Message) : RaftNode × Effects := n.stepEvent (.message msg)

def diskWriteComplete (n : RaftNode) (index : ℕ) : RaftNode × Effects :=
  n.stepEvent (.diskWriteComplete index)

/-- A leader after a proposal: still leading, or stepping down as a removed member. -/
def afterProposal (l : Leader) (core : Core) (shouldStepDown : Bool) : RaftNode :=
  if shouldStepDown then followerOf core none else { core := core, role := .leader l }

def propose (n : RaftNode) (cmd : Command) :
    Except ProposeError (ℕ × Effects × RaftNode) :=
  match n.role with
  | .leader l =>
    if n.core.proposalLimitExceeded cmd then .error .throttled
    else
      let (index, l', core', effects, shouldStepDown) := l.propose n.core cmd
      .ok (index, effects, afterProposal l' core' shouldStepDown)
  | _ => .error (.notLeader n.leader)

def requestReadIndex (n : RaftNode) : Except ReadIndexError (ℕ × Effects × RaftNode) :=
  match n.role with
  | .leader l => do
    let (readIndex, effects, l') ← l.requestReadIndex n.core
    return (readIndex, effects, { n with role := .leader l' })
  | _ => .error (.notLeader n.leader)

def readIndexReady (n : RaftNode) (readIndex : ℕ) : Bool :=
  match n.role with
  | .leader l => l.readIndexReady n.core readIndex
  | _ => false

def proposeConfigChange (n : RaftNode) (change : ConfigChange) :
    Except ConfigChangeError (ℕ × Effects × RaftNode) :=
  match n.role with
  | .leader l => do
    let (index, l', core', effects, shouldStepDown) ← l.proposeConfigChange n.core change
    return (index, effects, afterProposal l' core' shouldStepDown)
  | _ => .error .notLeader

def transferLeadership (n : RaftNode) (target : NodeId) : Except TransferError Effects :=
  match n.role with
  | .leader l => l.transferLeadership n.core target
  | _ => .error .notLeader

/-- Committed command entries not applied yet, in log order. -/
def committed (n : RaftNode) : List CommittedEntry :=
  (List.range' (n.core.lastApplied + 1) (n.core.commitIndex - n.core.lastApplied)).filterMap
    (fun idx => (n.core.log.get idx).bind (fun entry => match entry.payload with
      | .command cmd => some { index := entry.index, term := entry.term, command := cmd }
      | .config _ => none))

def advance (n : RaftNode) (appliedTo : ℕ) : RaftNode :=
  { n with core := { n.core with lastApplied := appliedTo } }

end RaftNode
end BasisDB.Raft
