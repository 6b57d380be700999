import BasisDB.RaftContiguousLog
import BasisDB.RaftLeader

/-! What a leader sends to a peer: the part of the log from the peer's next index on, for any
compacted part below it. -/
namespace BasisDB.Raft

/-- The entries from an index on. -/
def Log.entriesFrom (log : Log) (index : ℕ) : List Entry :=
  log.entries.drop (index - log.snapshotIndex - 1)

namespace Leader
variable {l : Leader} {core : Core} {peer : NodeId}

/-- `next_index.get(&peer)`, with the default of `send_append_to`. -/
def nextOf (l : Leader) (peer : NodeId) : ℕ := (l.nextIndex.get peer).getD 1

/-- A request for a peer with this next index, with at most so many entries. -/
def batchAt (core : Core) (next count : ℕ) : AppendRequest :=
  { prevLogIndex := next - 1
    prevLogTerm := core.log.termAt (next - 1)
    entries := (core.log.entriesFrom next).take count
    leaderCommit := core.commitIndex }

theorem length_entriesFrom (hlog : core.log.Contiguous) {next : ℕ}
    (hlow : core.log.snapshotIndex < next) :
    (core.log.entriesFrom next).length = core.log.lastIndex + 1 - next := by
  rw [Log.entriesFrom, List.length_drop, hlog.lastIndex_eq]
  omega

/-- Both ends of the slice are included, so a batch has room for one entry more than the
limit. -/
theorem slice_batch (hlog : core.log.Contiguous) {next : ℕ} (hlow : core.log.snapshotIndex < next) :
    core.log.slice next (min (next + core.config.maxEntriesPerMsg) (core.log.lastIndex + 1)) =
      (core.log.entriesFrom next).take (core.config.maxEntriesPerMsg + 1) := by
  rw [hlog.slice_eq hlow, Log.entriesFrom, List.take_drop]
  congr 1
  rw [List.take_eq_take_iff, hlog.lastIndex_eq]
  omega

theorem prevTerm_batch {next : ℕ} (hlow : core.log.snapshotIndex < next) :
    (if next - 1 ≤ core.log.snapshotIndex ∧ 0 < next - 1 then core.log.snapshotTerm
      else core.log.termAt (next - 1)) = core.log.termAt (next - 1) := by
  split_ifs with hedge
  · have heq : next - 1 = core.log.snapshotIndex := by omega
    have hinside :
        ¬(core.log.snapshotIndex = 0 ∨ core.log.snapshotIndex < core.log.snapshotIndex) := by
      omega
    rw [heq, Log.termAt, if_neg hinside, if_pos rfl]
  · rfl

theorem getLast?_batch (hlog : core.log.Contiguous) {next count : ℕ} {e : Entry}
    (hlow : core.log.snapshotIndex < next)
    (h : ((core.log.entriesFrom next).take count).getLast? = some e) :
    e.index + 1 = next + ((core.log.entriesFrom next).take count).length := by
  rw [List.getLast?_eq_getElem?] at h
  have hlt := (List.getElem?_eq_some_iff.mp h).1
  have hle : ((core.log.entriesFrom next).take count).length ≤ count := List.length_take_le _ _
  rw [List.getElem?_take_of_lt (by omega), Log.entriesFrom, List.getElem?_drop] at h
  have hindex := hlog _ _ h
  rw [Log.entriesFrom] at hlt hle ⊢
  omega

/-- What `send_append_to` does above the compacted part. -/
theorem sendAppendTo_batch (hlog : core.log.Contiguous)
    (hlow : core.log.snapshotIndex < l.nextOf peer) :
    (l.sendAppendTo core peer).2 = Effects.none.withMessage (core.message peer
      (.appendRequest (batchAt core (l.nextOf peer) (core.config.maxEntriesPerMsg + 1)))) ∧
    (l.sendAppendTo core peer).1.nextOf peer =
      if core.config.pipelining then l.nextOf peer + ((core.log.entriesFrom (l.nextOf peer)).take
        (core.config.maxEntriesPerMsg + 1)).length else l.nextOf peer := by
  have hdef : (l.nextIndex.get peer).getD 1 = l.nextOf peer := rfl
  unfold sendAppendTo
  dsimp only
  rw [hdef, if_neg (by omega), prevTerm_batch hlow, slice_batch hlog hlow]
  refine ⟨rfl, ?_⟩
  cases hlast : ((core.log.entriesFrom (l.nextOf peer)).take
      (core.config.maxEntriesPerMsg + 1)).getLast? with
  | none =>
    -- nothing to send: the next index stays
    rw [List.getLast?_eq_none_iff.mp hlast]
    simp
  | some e =>
    have hsent := getLast?_batch hlog hlow hlast
    have hpos : 0 < ((core.log.entriesFrom (l.nextOf peer)).take
        (core.config.maxEntriesPerMsg + 1)).length := by
      apply List.length_pos_of_mem
      exact List.mem_of_getLast? hlast
    cases core.config.pipelining with
    | false => simp
    | true =>
      have hlt : l.nextOf peer < e.index + 1 := by omega
      simp only [hlt, and_self, if_true, ← hsent]
      simp [nextOf]

theorem entriesFrom_add {next : ℕ} (hlow : core.log.snapshotIndex < next) (k : ℕ) :
    core.log.entriesFrom (next + k) = (core.log.entriesFrom next).drop k := by
  rw [Log.entriesFrom, Log.entriesFrom, List.drop_drop]
  congr 1
  omega

end Leader
end BasisDB.Raft
