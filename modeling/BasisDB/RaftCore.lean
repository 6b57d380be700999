import BasisDB.RaftEvent

/-! The state all roles share: static configuration, persistent state, commit
index, logical time and the timeout generator. -/
namespace BasisDB.Raft

structure Config where
  id : NodeId
  electionTimeout : ℕ × ℕ
  heartbeatInterval : ℕ
  maxEntriesPerMsg : ℕ
  maxUncommittedEntries : ℕ
  maxUncommittedBytes : ℕ
  membershipMode : MembershipMode
  prevote : Bool
  parallelDiskWrite : Bool
  pipelining : Bool
  deriving DecidableEq

/-- `Config::new`. -/
def Config.new (id : NodeId) : Config :=
  { id := id
    electionTimeout := (150, 300)
    heartbeatInterval := 75
    maxEntriesPerMsg := 100
    maxUncommittedEntries := 1024
    maxUncommittedBytes := 64 * 1024 * 1024
    membershipMode := .singleServer
    prevote := true
    parallelDiskWrite := true
    pipelining := true }

structure Persistent where
  term : ℕ
  votedFor : Option NodeId
  log : Log
  bootstrapConfig : Configuration
  deriving DecidableEq

structure Core where
  config : Config
  persistent : Persistent
  commitIndex : ℕ
  lastApplied : ℕ
  ticks : ℕ
  rng : UInt64
  deriving DecidableEq

namespace Core

/-- Seed of the timeout generator, in wrapping 64-bit arithmetic. -/
def seed (config : Config) : UInt64 := UInt64.ofNat config.id * 0x0005DEECE66D + 0xB

def restore (config : Config) (persistent : Persistent) : Core :=
  { config := config
    persistent := persistent
    commitIndex := 0
    lastApplied := 0
    ticks := 0
    rng := seed config }

def new (config : Config) (voters : List NodeId) : Core :=
  restore config
    { term := 0
      votedFor := none
      log := Log.empty
      bootstrapConfig := Configuration.ofVoters voters }

def id (core : Core) : NodeId := core.config.id

def term (core : Core) : ℕ := core.persistent.term

def log (core : Core) : Log := core.persistent.log

/-- Assignment through `log_mut`. -/
def setLog (core : Core) (log : Log) : Core :=
  { core with persistent := { core.persistent with log := log } }

def setCommitIndex (core : Core) (index : ℕ) : Core := { core with commitIndex := index }

/-- Bytes of the command entries of a log segment. -/
def commandBytes (entries : List Entry) : ℕ :=
  (entries.map (fun e => match e.payload with
    | .command cmd => cmd.bytes.length
    | .config _ => 0)).sum

/-- The admission limit of `propose`. The byte total is summed with `checked_add`,
and an overflow of the `u64` also counts as too much. -/
def proposalLimitExceeded (core : Core) (command : Command) : Bool :=
  let entries := core.log.slice (core.commitIndex + 1) core.log.lastIndex
  if core.config.maxUncommittedEntries ≤ entries.length then true
  else
    let total := commandBytes entries + command.bytes.length
    decide (2 ^ 64 ≤ total) || decide (core.config.maxUncommittedBytes < total)

def maybeUpdateTerm (core : Core) (term : ℕ) : Core × Bool :=
  if core.persistent.term < term then
    ({ core with persistent := { core.persistent with term := term, votedFor := none } }, true)
  else (core, false)

def configAt (core : Core) (index : ℕ) : Configuration :=
  (core.persistent.log.configAt index).getD core.persistent.bootstrapConfig

def effectiveConfig (core : Core) : Configuration := core.configAt core.persistent.log.lastIndex

def pendingConfigIndex (core : Core) : Option ℕ :=
  core.persistent.log.pendingConfigIndex core.commitIndex

def hasPendingConfig (core : Core) : Bool := core.pendingConfigIndex.isSome

def isVoter (core : Core) : Bool := core.effectiveConfig.isVoter core.config.id

def startElection (core : Core) : Core :=
  { core with persistent :=
    { core.persistent with
      term := core.persistent.term + 1
      votedFor := if core.isVoter then some core.config.id else none } }

def voteFor (core : Core) (candidate : NodeId) : Core :=
  { core with persistent := { core.persistent with votedFor := some candidate } }

def canVoteFor (core : Core) (candidate : NodeId) : Bool :=
  decide (core.persistent.votedFor = none) || decide (core.persistent.votedFor = some candidate)

/-- Lexicographic comparison of `(last_term, last_index)` with our own log. -/
def logIsUpToDate (core : Core) (lastTerm : ℕ) (lastIndex : ℕ) : Bool :=
  decide (core.persistent.log.lastTerm < lastTerm) ||
    (decide (lastTerm = core.persistent.log.lastTerm) &&
      decide (core.persistent.log.lastIndex ≤ lastIndex))

/-- One xorshift64 step; the source shifts in `u64`, dropping the high bits. -/
def rand (core : Core) : Core × UInt64 :=
  let r1 := core.rng ^^^ (core.rng <<< 13)
  let r2 := r1 ^^^ (r1 >>> 7)
  let r3 := r2 ^^^ (r2 <<< 17)
  ({ core with rng := r3 }, r3)

def randomElectionTimeout (core : Core) : Core × ℕ :=
  let (core', r) := core.rand
  (core', core.config.electionTimeout.1 +
    r.toNat % (core.config.electionTimeout.2 - core.config.electionTimeout.1))

theorem maybeUpdateTerm_newer {core : Core} {term : ℕ} (h : core.term < term) :
    (core.maybeUpdateTerm term).1 =
      { core with persistent := { core.persistent with term := term, votedFor := none } } := by
  unfold maybeUpdateTerm
  rw [if_pos (show core.persistent.term < term from h)]

/-- Only the term and the vote can change. -/
theorem maybeUpdateTerm_frame (core : Core) (term : ℕ) :
    (core.maybeUpdateTerm term).1.log = core.log ∧
    (core.maybeUpdateTerm term).1.config = core.config ∧
    (core.maybeUpdateTerm term).1.commitIndex = core.commitIndex := by
  unfold maybeUpdateTerm
  split_ifs <;> exact ⟨rfl, rfl, rfl⟩

end Core
end BasisDB.Raft
