import BasisDB.RaftMembership

/-! The replicated log: entries above a compacted prefix, with the accessors and
mutations of `log.rs`. -/
namespace BasisDB.Raft

/-- A command is its bytes. -/
structure Command where
  bytes : List UInt8
  deriving DecidableEq, Repr

inductive EntryPayload where
  | command (cmd : Command)
  | config (cfg : Configuration)
  deriving DecidableEq

namespace EntryPayload

def isConfig : EntryPayload → Bool
  | command _ => false
  | config _ => true

def asConfig : EntryPayload → Option Configuration
  | command _ => none
  | config c => some c

end EntryPayload

structure Entry where
  term : ℕ
  index : ℕ
  payload : EntryPayload
  deriving DecidableEq

structure Log where
  entries : List Entry
  snapshotIndex : ℕ
  snapshotTerm : ℕ
  snapshotConfig : Option Configuration
  deriving DecidableEq

namespace Log

/-- `Log::default`: no entries and no snapshot. -/
def empty : Log := { entries := [], snapshotIndex := 0, snapshotTerm := 0, snapshotConfig := none }

/-- Position of an index in the entry vector; `usize` holds every `u64` here. -/
def toVecIndex (log : Log) (index : ℕ) : Option ℕ :=
  if index ≤ log.snapshotIndex then none else some (index - log.snapshotIndex - 1)

def lastIndex (log : Log) : ℕ :=
  match log.entries.getLast? with
  | some e => e.index
  | none => log.snapshotIndex

def lastTerm (log : Log) : ℕ :=
  match log.entries.getLast? with
  | some e => e.term
  | none => log.snapshotTerm

def termAt (log : Log) (index : ℕ) : ℕ :=
  if index = 0 ∨ index < log.snapshotIndex then 0
  else if index = log.snapshotIndex then log.snapshotTerm
  else match (log.toVecIndex index).bind (fun i => log.entries[i]?) with
    | some e => e.term
    | none => 0

def get (log : Log) (index : ℕ) : Option Entry :=
  if index = 0 ∨ index ≤ log.snapshotIndex then none
  else (log.toVecIndex index).bind (fun i => log.entries[i]?)

def append (log : Log) (entry : Entry) : Log := { log with entries := log.entries ++ [entry] }

def truncateAfter (log : Log) (index : ℕ) : Log :=
  if index ≤ log.snapshotIndex then { log with entries := [] }
  else match log.toVecIndex index with
    | some i => { log with entries := log.entries.take (i + 1) }
    | none => log

/-- The latest configuration at or before an index, from the entries or the snapshot. -/
def configAt (log : Log) (index : ℕ) : Option Configuration :=
  if index ≤ log.snapshotIndex then log.snapshotConfig
  else
    let stop := match log.toVecIndex index with
      | some i => min (i + 1) log.entries.length
      | none => log.entries.length
    match (log.entries.take stop).reverse.findSome? (fun e => e.payload.asConfig) with
    | some c => some c
    | none => log.snapshotConfig

def truncatePrefix (log : Log) (index : ℕ) (term : ℕ) : Log :=
  if index ≤ log.snapshotIndex then log
  else
    { entries := log.entries.drop (index - log.snapshotIndex)
      snapshotIndex := index
      snapshotTerm := term
      snapshotConfig := log.configAt index }

def snapshotMatchesPrefix (log : Log) (index : ℕ) (term : ℕ) : Bool :=
  decide (log.snapshotIndex < index) && decide (log.termAt index = term)

def installSnapshot (log : Log) (index : ℕ) (term : ℕ) (config : Configuration) : Log :=
  let log' :=
    if log.snapshotIndex < index ∧ log.termAt index = term then log.truncatePrefix index term
    else { log with entries := [], snapshotIndex := index, snapshotTerm := term }
  { log' with snapshotConfig := some config }

/-- Entries from `start` to `stop`, both included, clamped to what the log holds. -/
def slice (log : Log) (start stop : ℕ) : List Entry :=
  let actualStart := max start (log.snapshotIndex + 1)
  if stop < actualStart ∨ log.entries = [] then []
  else match log.toVecIndex actualStart with
    | none => []
    | some s =>
      let e := match log.toVecIndex (min stop log.lastIndex) with
        | some i => i + 1
        | none => log.entries.length
      if log.entries.length ≤ s ∨ e ≤ s then [] else (log.entries.take e).drop s

/-- Index of the latest configuration entry above the commit index. -/
def pendingConfigIndex (log : Log) (commitIndex : ℕ) : Option ℕ :=
  (log.entries.reverse.find?
    (fun e => e.payload.isConfig && decide (commitIndex < e.index))).map Entry.index

end Log
end BasisDB.Raft
