import BasisDB.RaftFollower
import BasisDB.OrdMap

/-! The leader role: replication progress, the commit rule, configuration
changes and read-index rounds. -/
namespace BasisDB.Raft

inductive ReadIndexError where
  | notLeader (leaderHint : Option NodeId)
  | currentTermNotCommitted
  | readInProgress (readIndex : ℕ)
  deriving DecidableEq

inductive TransferError where
  | notLeader
  | targetNotVoter
  | targetLagging (matchIndex lastIndex : ℕ)
  | targetIsSelf
  deriving DecidableEq

structure PendingReadIndex where
  id : ℕ
  readIndex : ℕ
  configuration : Configuration
  acks : OrdSet NodeId
  deriving DecidableEq

structure Leader where
  nextIndex : OrdMap NodeId ℕ
  matchIndex : OrdMap NodeId ℕ
  heartbeatDeadline : ℕ
  nextReadId : ℕ
  pendingReadIndex : Option PendingReadIndex
  confirmedReadIndex : ℕ
  deriving DecidableEq

namespace Leader

/-- `match_index.get(&id).copied().unwrap_or(0)`. -/
def matchOf (l : Leader) (id : NodeId) : ℕ := (l.matchIndex.get id).getD 0

def sendAppendTo (l : Leader) (core : Core) (receiver : NodeId) : Leader × Effects :=
  let next := (l.nextIndex.get receiver).getD 1
  let snapshotIndex := core.log.snapshotIndex
  if next ≤ snapshotIndex then
    (l, Effects.none.withSendSnapshot
      { receiver := receiver
        lastIncludedIndex := snapshotIndex
        lastIncludedTerm := core.log.snapshotTerm
        configuration := core.configAt snapshotIndex })
  else
    let prevIndex := next - 1
    let prevTerm :=
      if prevIndex ≤ snapshotIndex ∧ 0 < prevIndex then core.log.snapshotTerm
      else core.log.termAt prevIndex
    let stop := min (next + core.config.maxEntriesPerMsg) (core.log.lastIndex + 1)
    let entries := core.log.slice next stop
    let sentUpTo := match entries.getLast? with
      | some e => e.index + 1
      | none => next
    let l :=
      if core.config.pipelining = true ∧ next < sentUpTo then
        { l with nextIndex := l.nextIndex.insert receiver sentUpTo }
      else l
    (l, Effects.none.withMessage (core.message receiver (.appendRequest
      { prevLogIndex := prevIndex
        prevLogTerm := prevTerm
        entries := entries
        leaderCommit := core.commitIndex })))

/-- The fold of `broadcast_append` over the peers. -/
def sendAppends (core : Core) (acc : Leader × Effects) (peer : NodeId) : Leader × Effects :=
  let (l, eff) := acc.1.sendAppendTo core peer
  (l, acc.2.merge eff)

def broadcastAppend (l : Leader) (core : Core) : Leader × Effects :=
  (core.effectiveConfig.replicationPeers core.id).foldl (sendAppends core) (l, Effects.none)

def new (core : Core) : Leader × Effects :=
  let lastIndex := core.log.lastIndex
  let nodes := core.effectiveConfig.allNodes
  let matched := nodes.foldl (fun m id => m.insert id 0) OrdMap.empty
  let leader : Leader :=
    { nextIndex := nodes.foldl (fun m id => m.insert id (lastIndex + 1)) OrdMap.empty
      matchIndex :=
        if core.config.parallelDiskWrite then matched else matched.insert core.id lastIndex
      heartbeatDeadline := core.ticks + core.config.heartbeatInterval
      nextReadId := 1
      pendingReadIndex := none
      confirmedReadIndex := 0 }
  leader.broadcastAppend core

/-- Scan downwards from the commit index for an entry of the current term. -/
def currentTermCommitFrom (core : Core) : ℕ → Option ℕ
  | 0 => none
  | idx + 1 =>
    if core.log.termAt (idx + 1) = core.term then some (idx + 1)
    else if core.log.termAt (idx + 1) < core.term then none
    else currentTermCommitFrom core idx

def currentTermCommitIndex (core : Core) : Option ℕ :=
  currentTermCommitFrom core core.commitIndex

def canServeReads (l : Leader) (core : Core) : Bool :=
  (currentTermCommitIndex core).isSome && decide (core.commitIndex ≤ l.confirmedReadIndex) &&
    decide (core.commitIndex ≤ core.lastApplied)

def readIndexReady (l : Leader) (core : Core) (readIndex : ℕ) : Bool :=
  decide (readIndex ≤ l.confirmedReadIndex) && decide (readIndex ≤ core.lastApplied)

def readIndexRequests (core : Core) (pending : PendingReadIndex) : Effects :=
  Effects.none.withMessages ((pending.configuration.voterPeers core.id).map (fun receiver =>
    core.message receiver
      (.readIndexRequest { id := pending.id, readIndex := pending.readIndex })))

def requestReadIndex (l : Leader) (core : Core) :
    Except ReadIndexError (ℕ × Effects × Leader) :=
  match l.pendingReadIndex with
  | some pending => .error (.readInProgress pending.readIndex)
  | none =>
    if (currentTermCommitIndex core).isNone then .error .currentTermNotCommitted
    else
      let readIndex := core.commitIndex
      let pending : PendingReadIndex :=
        { id := l.nextReadId
          readIndex := readIndex
          configuration := core.effectiveConfig
          acks := OrdSet.singleton core.id }
      let l := { l with nextReadId := l.nextReadId + 1 }
      if pending.configuration.hasQuorum (fun voter => pending.acks.contains voter) then
        .ok (readIndex, Effects.none,
          { l with confirmedReadIndex := max l.confirmedReadIndex readIndex })
      else
        .ok (readIndex, readIndexRequests core pending, { l with pendingReadIndex := some pending })

/-- Find the highest index of the current term that a quorum holds, and commit it. -/
def advanceCommitIndex (l : Leader) (core : Core) : Core :=
  let config := core.effectiveConfig
  let candidates := List.range' (core.commitIndex + 1) (core.log.lastIndex - core.commitIndex)
  match candidates.reverse.find? (fun candidate =>
      decide (core.log.termAt candidate = core.term) &&
        config.hasQuorum (fun voter => decide (candidate ≤ l.matchOf voter))) with
  | some candidate => core.setCommitIndex candidate
  | none => core

/-- Record our own log end as replicated, when the disk write is not parallel. -/
def recordOwn (l : Leader) (core : Core) (index : ℕ) : Leader :=
  if core.config.parallelDiskWrite then l
  else { l with matchIndex := l.matchIndex.insert core.id index }

def reinitProgress (l : Leader) (core : Core) : Leader :=
  let lastIndex := core.log.lastIndex
  let nodes := core.effectiveConfig.allNodes
  recordOwn
    { l with
      nextIndex := nodes.foldl (fun m id => m.orInsert id (lastIndex + 1)) l.nextIndex
      matchIndex := nodes.foldl (fun m id => m.orInsert id 0) l.matchIndex } core lastIndex

/-- Append an entry of the current term at the end of the log. -/
def appendOwn (core : Core) (payload : EntryPayload) : Core :=
  core.setLog (core.log.append
    { term := core.term, index := core.log.lastIndex + 1, payload := payload })

def appendTransitionTarget (l : Leader) (core : Core) (target : Configuration) :
    Leader × Core × Effects :=
  let core := appendOwn core (.config target)
  let (l, eff) := (l.reinitProgress core).broadcastAppend core
  (l, core, eff.withPersist)

/-- The search loop of `try_auto_transfer`: stop at the first caught-up voter,
otherwise remember the best one so far. -/
def bestTarget (l : Leader) (core : Core) (lastIndex : ℕ) :
    Option (NodeId × ℕ) → List NodeId → Option (NodeId × ℕ)
  | best, [] => best
  | best, voter :: rest =>
    if voter = core.id then bestTarget l core lastIndex best rest
    else if lastIndex ≤ l.matchOf voter then some (voter, l.matchOf voter)
    else match best with
      | none => bestTarget l core lastIndex (some (voter, l.matchOf voter)) rest
      | some (_, bestIdx) =>
        if bestIdx < l.matchOf voter then
          bestTarget l core lastIndex (some (voter, l.matchOf voter)) rest
        else bestTarget l core lastIndex best rest

def tryAutoTransfer (l : Leader) (core : Core) (newConfig : Configuration) : Effects :=
  let lastIndex := core.log.lastIndex
  match bestTarget l core lastIndex none newConfig.voters with
  | some (target, matchIdx) =>
    if lastIndex ≤ matchIdx then Effects.none.withMessage (core.message target .timeoutNow)
    else Effects.none
  | none => Effects.none

inductive ConfigCommitResult where
  | continue_ (l : Leader) (core : Core) (effects : Effects)
  | stepDown (effects : Effects)
  | done

/-- The loop of `process_committed_configs` over the newly committed indices. -/
def processConfigs (l : Leader) (core : Core) : List ℕ → ConfigCommitResult
  | [] => .done
  | idx :: rest =>
    match (core.log.get idx).bind (fun e => e.payload.asConfig) with
    | none => processConfigs l core rest
    | some cfg =>
      if !cfg.isVoter core.id then .stepDown (l.tryAutoTransfer core cfg)
      else match cfg.transitionTarget with
        | some target =>
          let (l', core', eff) := l.appendTransitionTarget core target
          .continue_ l' core' eff
        | none => processConfigs l core rest

def processCommittedConfigs (l : Leader) (core : Core) (oldCommit : ℕ) :
    ConfigCommitResult :=
  processConfigs l core (List.range' (oldCommit + 1) (core.commitIndex - oldCommit))

/-- Joint configurations above the commit index: how often the commit loop can go on. -/
def pendingJoints (core : Core) : ℕ :=
  (core.log.entries.filter (fun e => decide (core.commitIndex < e.index) &&
    (e.payload.asConfig.any Configuration.isJoint))).length

/-- The loop of `maybe_commit`. Every `continue` commits one more joint
configuration and appends a simple one, so `pendingJoints + 1` rounds are enough. -/
def maybeCommitLoop : ℕ → Leader → Core → Effects → Leader × Core × Effects × Bool
  | 0, l, core, effects => (l, core, effects, false)
  | fuel + 1, l, core, effects =>
    let core' := l.advanceCommitIndex core
    if core'.commitIndex = core.commitIndex then (l, core', effects, false)
    else match l.processCommittedConfigs core' core.commitIndex with
      | .continue_ l₂ core₂ e => maybeCommitLoop fuel l₂ core₂ (effects.merge e)
      | .stepDown e => (l, core', effects.merge e, true)
      | .done => (l, core', effects, false)

def maybeCommit (l : Leader) (core : Core) : Leader × Core × Effects × Bool :=
  maybeCommitLoop (pendingJoints core + 1) l core Effects.none

/-- The tail of both proposal functions: try to commit, then replicate. -/
def commitAndReplicate (l : Leader) (core : Core) : Leader × Core × Effects × Bool :=
  let (l, core, commitEffects, shouldStepDown) := l.maybeCommit core
  let (l, effects) := l.broadcastAppend core
  (l, core, effects.withPersist.merge commitEffects, shouldStepDown)

def propose (l : Leader) (core : Core) (cmd : Command) :
    ℕ × Leader × Core × Effects × Bool :=
  let index := core.log.lastIndex + 1
  let core := appendOwn core (.command cmd)
  (index, (l.recordOwn core index).commitAndReplicate core)

/-- The learner catch-up rule for a promotion. -/
def checkPromotion (l : Leader) (core : Core) (current : Configuration) :
    ConfigChange → Except ConfigChangeError Unit
  | .addVoter id =>
    if current.isLearner id then
      if l.matchOf id < core.log.lastIndex then
        .error (.learnerNotCaughtUp id (l.matchOf id) core.log.lastIndex)
      else .ok ()
    else .error (.promoteRequiresLearner id)
  | _ => .ok ()

def proposeConfigChange (l : Leader) (core : Core) (change : ConfigChange) :
    Except ConfigChangeError (ℕ × Leader × Core × Effects × Bool) := do
  let current := core.effectiveConfig
  change.validate current core.config.membershipMode
  l.checkPromotion core current change
  if core.hasPendingConfig then throw .changeInProgress
  let newConfig := change.apply current core.config.membershipMode
  let index := core.log.lastIndex + 1
  let core := appendOwn core (.config newConfig)
  return (index, ((l.recordOwn core index).reinitProgress core).commitAndReplicate core)

def transferLeadership (l : Leader) (core : Core) (target : NodeId) : Except TransferError Effects :=
  if target = core.id then .error .targetIsSelf
  else if !core.effectiveConfig.isVoter target then .error .targetNotVoter
  else if l.matchOf target < core.log.lastIndex then
    .error (.targetLagging (l.matchOf target) core.log.lastIndex)
  else .ok (Effects.none.withMessage (core.message target .timeoutNow))

/-- `maybe_commit` as the message handlers use it: step down when it says so. -/
def commitStep (l : Leader) (core : Core) : Stepped Leader :=
  let (l, core, effects, shouldStepDown) := l.maybeCommit core
  { role := l, core := core
    result := if shouldStepDown then StepResult.toFollower none effects
      else StepResult.stay effects }

def handleDiskWriteComplete (l : Leader) (core : Core) (index : ℕ) : Stepped Leader :=
  if l.matchOf core.id < index then
    commitStep { l with matchIndex := l.matchIndex.insert core.id index } core
  else { role := l, core := core, result := StepResult.none }

def handleTick (l : Leader) (core : Core) : Stepped Leader :=
  let core := { core with ticks := core.ticks + 1 }
  if l.heartbeatDeadline ≤ core.ticks then
    let l := { l with heartbeatDeadline := core.ticks + core.config.heartbeatInterval }
    let (l, effects) := l.broadcastAppend core
    let effects := match l.pendingReadIndex with
      | some pending => effects.merge (readIndexRequests core pending)
      | none => effects
    { role := l, core := core, result := StepResult.stay effects }
  else { role := l, core := core, result := StepResult.none }

def handleAppendResponse (l : Leader) (core : Core) (sender : NodeId) (resp : AppendResponse) :
    Stepped Leader :=
  if !core.effectiveConfig.isMember sender then
    { role := l, core := core, result := StepResult.none }
  else if resp.success then
    let l := { l with matchIndex := l.matchIndex.insert sender resp.lastLogIndex }
    let l :=
      if core.config.pipelining then l
      else { l with nextIndex := l.nextIndex.insert sender (resp.lastLogIndex + 1) }
    l.commitStep core
  else
    let hinted := max (resp.lastLogIndex + 1) 1
    let newNext := if core.config.pipelining then max hinted (l.matchOf sender + 1) else hinted
    let l := { l with nextIndex := l.nextIndex.insert sender newNext }
    let (l, effects) := l.sendAppendTo core sender
    { role := l, core := core, result := StepResult.stay effects }

def handleInstallSnapshotResponse (l : Leader) (core : Core) (sender : NodeId)
    (resp : InstallSnapshotResponse) : Stepped Leader :=
  if resp.success = false ∨ core.effectiveConfig.isMember sender = false then
    { role := l, core := core, result := StepResult.none }
  else if resp.lastIncludedIndex ≤ l.matchOf sender then
    { role := l, core := core, result := StepResult.none }
  else
    commitStep
      { l with
        matchIndex := l.matchIndex.insert sender resp.lastIncludedIndex
        nextIndex := l.nextIndex.insert sender (resp.lastIncludedIndex + 1) } core

def handleReadIndexResponse (l : Leader) (sender : NodeId) (resp : ReadIndexResponse) : Leader :=
  match l.pendingReadIndex with
  | none => l
  | some pending =>
    if !pending.configuration.isVoter sender then l
    else if pending.id ≠ resp.id ∨ pending.readIndex ≠ resp.readIndex then l
    else
      let pending := { pending with acks := pending.acks.insert sender }
      if pending.configuration.hasQuorum (fun voter => pending.acks.contains voter) then
        { l with
          confirmedReadIndex := max l.confirmedReadIndex pending.readIndex
          pendingReadIndex := none }
      else { l with pendingReadIndex := some pending }

def handleVoteRequest (core : Core) (sender : NodeId) : StepResult :=
  StepResult.stay (Effects.none.withMessage
    (core.message sender (.voteResponse { granted := false })))

def denyPrevote (core : Core) (sender : NodeId) : Effects :=
  Effects.none.withMessage (core.message sender
    (.preVoteResponse { term := core.term, granted := false }))

def rejectStale (core : Core) (msg : Message) : Effects := core.staleReply msg

def handleMessage (l : Leader) (core : Core) (msg : Message) : Stepped Leader :=
  match msg.payload with
  | .preVoteRequest _ =>
    { role := l, core := core, result := StepResult.stay (denyPrevote core msg.sender) }
  | _ =>
    if core.term < msg.term then
      { role := l, core := (core.maybeUpdateTerm msg.term).1
        result := StepResult.toFollower
          (if msg.payload.isAppendRequest then some msg.sender else none) Effects.none.withPersist }
    else if msg.term < core.term then
      { role := l, core := core, result := StepResult.stay (rejectStale core msg) }
    else match msg.payload with
      | .appendResponse resp => l.handleAppendResponse core msg.sender resp
      | .installSnapshotResponse resp => l.handleInstallSnapshotResponse core msg.sender resp
      | .readIndexResponse resp =>
        { role := l.handleReadIndexResponse msg.sender resp, core := core
          result := StepResult.none }
      | .voteRequest _ => { role := l, core := core, result := handleVoteRequest core msg.sender }
      | _ => { role := l, core := core, result := StepResult.none }

def step (l : Leader) (core : Core) : Event → Stepped Leader
  | .tick => l.handleTick core
  | .diskWriteComplete index => l.handleDiskWriteComplete core index
  | .message msg => l.handleMessage core msg

end Leader
end BasisDB.Raft
