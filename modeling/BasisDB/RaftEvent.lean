import BasisDB.RaftLog

/-! Events that drive a node, and the effects a step hands back to its caller. -/
namespace BasisDB.Raft

structure PreVoteRequest where
  nextTerm : ℕ
  lastLogIndex : ℕ
  lastLogTerm : ℕ
  deriving DecidableEq

structure PreVoteResponse where
  term : ℕ
  granted : Bool
  deriving DecidableEq

structure VoteRequest where
  lastLogIndex : ℕ
  lastLogTerm : ℕ
  deriving DecidableEq

structure VoteResponse where
  granted : Bool
  deriving DecidableEq

structure AppendRequest where
  prevLogIndex : ℕ
  prevLogTerm : ℕ
  entries : List Entry
  leaderCommit : ℕ
  deriving DecidableEq

structure AppendResponse where
  success : Bool
  lastLogIndex : ℕ
  deriving DecidableEq

structure ReadIndexRequest where
  id : ℕ
  readIndex : ℕ
  deriving DecidableEq

structure ReadIndexResponse where
  id : ℕ
  readIndex : ℕ
  deriving DecidableEq

structure InstallSnapshotRequest where
  lastIncludedIndex : ℕ
  lastIncludedTerm : ℕ
  configuration : Configuration
  deriving DecidableEq

structure InstallSnapshotResponse where
  success : Bool
  lastIncludedIndex : ℕ
  deriving DecidableEq

inductive Payload where
  | preVoteRequest (req : PreVoteRequest)
  | preVoteResponse (resp : PreVoteResponse)
  | voteRequest (req : VoteRequest)
  | voteResponse (resp : VoteResponse)
  | appendRequest (req : AppendRequest)
  | appendResponse (resp : AppendResponse)
  | installSnapshotRequest (req : InstallSnapshotRequest)
  | installSnapshotResponse (resp : InstallSnapshotResponse)
  | readIndexRequest (req : ReadIndexRequest)
  | readIndexResponse (resp : ReadIndexResponse)
  | timeoutNow
  deriving DecidableEq

namespace Payload

def isAppendRequest : Payload → Bool
  | appendRequest _ => true
  | _ => false

def isReadIndexRequest : Payload → Bool
  | readIndexRequest _ => true
  | _ => false

/-- A real or a preliminary vote request: what the disruptive-election guard looks at. -/
def isVoteSolicitation : Payload → Bool
  | voteRequest _ => true
  | preVoteRequest _ => true
  | _ => false

end Payload

structure Message where
  sender : NodeId
  receiver : NodeId
  term : ℕ
  payload : Payload
  deriving DecidableEq

inductive Event where
  | tick
  | message (msg : Message)
  | diskWriteComplete (index : ℕ)

structure SendSnapshot where
  receiver : NodeId
  lastIncludedIndex : ℕ
  lastIncludedTerm : ℕ
  configuration : Configuration
  deriving DecidableEq

structure Effects where
  persist : Bool
  messages : List Message
  sendSnapshots : List SendSnapshot
  deriving DecidableEq

namespace Effects

def none : Effects := { persist := false, messages := [], sendSnapshots := [] }

def withPersist (e : Effects) : Effects := { e with persist := true }

def withMessage (e : Effects) (msg : Message) : Effects :=
  { e with messages := e.messages ++ [msg] }

def withMessages (e : Effects) (msgs : List Message) : Effects :=
  { e with messages := e.messages ++ msgs }

def withSendSnapshot (e : Effects) (snapshot : SendSnapshot) : Effects :=
  { e with sendSnapshots := e.sendSnapshots ++ [snapshot] }

def merge (e other : Effects) : Effects :=
  { persist := e.persist || other.persist
    messages := e.messages ++ other.messages
    sendSnapshots := e.sendSnapshots ++ other.sendSnapshots }

end Effects

inductive Transition where
  | stay
  | toFollower (leader : Option NodeId)
  | toFollowerAfterContact (leader : Option NodeId)
  | toPreCandidate
  | toCandidate
  | toLeader
  deriving DecidableEq

structure StepResult where
  transition : Transition
  effects : Effects

namespace StepResult

def stay (effects : Effects) : StepResult := { transition := .stay, effects := effects }

def none : StepResult := stay Effects.none

def toFollower (leader : Option NodeId) (effects : Effects) : StepResult :=
  { transition := .toFollower leader, effects := effects }

def toFollowerAfterContact (leader : Option NodeId) (effects : Effects) : StepResult :=
  { transition := .toFollowerAfterContact leader, effects := effects }

def toPreCandidate (effects : Effects) : StepResult :=
  { transition := .toPreCandidate, effects := effects }

def toCandidate (effects : Effects) : StepResult :=
  { transition := .toCandidate, effects := effects }

def toLeader (effects : Effects) : StepResult :=
  { transition := .toLeader, effects := effects }

end StepResult
end BasisDB.Raft
