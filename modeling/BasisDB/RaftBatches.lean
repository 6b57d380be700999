import BasisDB.RaftRepair

/-! The batches in which a leader sends its log, over any compacted part: where a batch starts,
how many entries it has, and how repeated sends cover the log. -/
namespace BasisDB.Raft

namespace Leader
variable {l : Leader} {core : Core} {peer : NodeId}

/-- `send_append_to` on `u64` indices: nothing if a sum does not fit, where a build with overflow
checks panics (one without them wraps around and sends no entries). -/
def sendAppendToU64 (l : Leader) (core : Core) (receiver : NodeId) : Option (Leader × Effects) :=
  let next := (l.nextIndex.get receiver).getD 1
  if next ≤ core.log.snapshotIndex ∨
      next + core.config.maxEntriesPerMsg < 2 ^ 64 ∧ core.log.lastIndex + 1 < 2 ^ 64 then
    some (l.sendAppendTo core receiver)
  else none

/-- A number of sends to one peer, one after the other, and the entries that they carried. -/
def sendAgainU64 (core : Core) (peer : NodeId) : ℕ → Leader → Option (Leader × List Entry)
  | 0, l => some (l, [])
  | n + 1, l => do
    let (l', effects) ← l.sendAppendToU64 core peer
    let (l'', entries) ← sendAgainU64 core peer n l'
    some (l'', (effects.requestsTo peer).flatMap AppendRequest.entries ++ entries)

/-- The same sends with sums that always fit. -/
def sendAgain (core : Core) (peer : NodeId) : ℕ → Leader → Leader × List Entry
  | 0, l => (l, [])
  | n + 1, l =>
    let (l', effects) := l.sendAppendTo core peer
    let (l'', entries) := sendAgain core peer n l'
    (l'', (effects.requestsTo peer).flatMap AppendRequest.entries ++ entries)

theorem requestsTo_batch (req : AppendRequest) :
    (Effects.none.withMessage (core.message peer (.appendRequest req))).requestsTo peer =
      [req] := by
  simp [Effects.requestsTo, Effects.withMessage, Effects.none, Core.message,
    Payload.asAppendRequest]

theorem take_append_take_drop (entries : List Entry) (m n : ℕ) :
    entries.take m ++ (entries.drop (entries.take m).length).take n = entries.take (m + n) := by
  rw [List.take_add, List.length_take]
  congr 2
  rcases Nat.le_total m entries.length with hle | hle
  · rw [Nat.min_eq_left hle]
  · rw [Nat.min_eq_right hle, List.drop_length, List.drop_eq_nil_of_le hle]

/-- Repeated sends with pipelining: batch after batch, each starting where the last one ended. -/
theorem sendAgain_eq (hlog : core.log.Contiguous) (hpipe : core.config.pipelining = true) (n : ℕ)
    (l : Leader) (hlow : core.log.snapshotIndex < l.nextOf peer) :
    (sendAgain core peer n l).2 =
      (core.log.entriesFrom (l.nextOf peer)).take (n * (core.config.maxEntriesPerMsg + 1)) ∧
    (sendAgain core peer n l).1.nextOf peer =
      l.nextOf peer + (sendAgain core peer n l).2.length := by
  induction n generalizing l with
  | zero => simp [sendAgain]
  | succ n ih =>
    obtain ⟨heffects, hnext⟩ := sendAppendTo_batch hlog hlow
    rw [hpipe, if_pos rfl] at hnext
    obtain ⟨ihsent, ihnext⟩ := ih (l.sendAppendTo core peer).1 (by omega)
    have hsent : (sendAgain core peer (n + 1) l).2 =
        (core.log.entriesFrom (l.nextOf peer)).take (core.config.maxEntriesPerMsg + 1) ++
          (sendAgain core peer n (l.sendAppendTo core peer).1).2 := by
      show ((l.sendAppendTo core peer).2.requestsTo peer).flatMap AppendRequest.entries ++
        (sendAgain core peer n (l.sendAppendTo core peer).1).2 = _
      rw [heffects, requestsTo_batch, List.flatMap_singleton, batchAt]
    have hlast : (sendAgain core peer (n + 1) l).1 =
        (sendAgain core peer n (l.sendAppendTo core peer).1).1 := rfl
    refine ⟨?_, ?_⟩
    · calc (sendAgain core peer (n + 1) l).2
          = (core.log.entriesFrom (l.nextOf peer)).take (core.config.maxEntriesPerMsg + 1) ++
            ((core.log.entriesFrom (l.nextOf peer)).drop ((core.log.entriesFrom
              (l.nextOf peer)).take (core.config.maxEntriesPerMsg + 1)).length).take
                (n * (core.config.maxEntriesPerMsg + 1)) := by
            rw [hsent, ihsent, hnext, entriesFrom_add hlow]
        _ = (core.log.entriesFrom (l.nextOf peer)).take
            (core.config.maxEntriesPerMsg + 1 + n * (core.config.maxEntriesPerMsg + 1)) := by
            rw [take_append_take_drop]
        _ = _ := by
            congr 1
            ring
    · rw [hlast, ihnext, hnext, hsent, List.length_append]
      omega

/-- The highest next index that sends to the peer come to. -/
def furthest (l : Leader) (core : Core) (peer : NodeId) : ℕ :=
  if core.config.pipelining = true then core.log.lastIndex + 1 else l.nextOf peer

/-- Exact batches: one request that starts at the next index and carries as many entries as the
limit and the log allow; with pipelining the next index moves past them, so that repeated
sends cover the log. -/
structure BatchesExactly (l : Leader) (core : Core) (peer : NodeId) : Prop where
  count : (core.log.entriesFrom (l.nextOf peer)).length = core.log.lastIndex + 1 - l.nextOf peer
  sends : ∃ sent, l.sendAppendToU64 core peer = some sent ∧
    sent.2 = Effects.none.withMessage (core.message peer (.appendRequest (batchAt core
      (l.nextOf peer)
      (min core.config.maxEntriesPerMsg (core.log.lastIndex + 1 - l.nextOf peer))))) ∧
    (core.config.pipelining = true → sent.1.nextOf peer =
      l.nextOf peer + min core.config.maxEntriesPerMsg (core.log.lastIndex + 1 - l.nextOf peer))
  consecutive : core.config.pipelining = true → ∀ n, ∃ sent,
    sendAgainU64 core peer n l = some sent ∧
    sent.2 <+: core.log.entriesFrom (l.nextOf peer) ∧
    sent.1.nextOf peer = l.nextOf peer + sent.2.length ∧
    (core.log.lastIndex + 1 - l.nextOf peer ≤ n →
      sent.2 = core.log.entriesFrom (l.nextOf peer))

theorem sendAppendToU64_eq (hnext : l.nextOf peer + core.config.maxEntriesPerMsg < 2 ^ 64)
    (hlast : core.log.lastIndex + 1 < 2 ^ 64) :
    l.sendAppendToU64 core peer = some (l.sendAppendTo core peer) :=
  if_pos (Or.inr ⟨hnext, hlast⟩)

/-- A send that goes through had sums that fit. -/
theorem fits_of_sendAppendToU64 {sent : Leader × Effects}
    (hlow : core.log.snapshotIndex < l.nextOf peer)
    (h : l.sendAppendToU64 core peer = some sent) :
    l.nextOf peer + core.config.maxEntriesPerMsg < 2 ^ 64 ∧
      sent = l.sendAppendTo core peer := by
  simp only [sendAppendToU64] at h
  split_ifs at h with hfits
  exact ⟨(hfits.resolve_left (not_le.mpr hlow)).1, (Option.some.inj h).symm⟩

theorem sendAgain_consecutive (hlog : core.log.Contiguous) (hpipe : core.config.pipelining = true)
    (hlow : core.log.snapshotIndex < l.nextOf peer) (n : ℕ) :
    (sendAgain core peer n l).2 <+: core.log.entriesFrom (l.nextOf peer) ∧
    (sendAgain core peer n l).1.nextOf peer = l.nextOf peer + (sendAgain core peer n l).2.length ∧
    (core.log.lastIndex + 1 - l.nextOf peer ≤ n →
      (sendAgain core peer n l).2 = core.log.entriesFrom (l.nextOf peer)) := by
  obtain ⟨hsent, hnext⟩ := sendAgain_eq hlog hpipe n l hlow
  refine ⟨hsent ▸ List.take_prefix _ _, hnext, ?_⟩
  intro hle
  rw [hsent]
  apply List.take_of_length_le
  rw [length_entriesFrom hlog hlow]
  calc core.log.lastIndex + 1 - l.nextOf peer ≤ n := hle
    _ ≤ n * (core.config.maxEntriesPerMsg + 1) := Nat.le_mul_of_pos_right n (Nat.succ_pos _)

/-- Where the furthest sum fits, every send goes through. -/
theorem sendAgainU64_eq (hlog : core.log.Contiguous) (hpipe : core.config.pipelining = true)
    (hfits : core.log.lastIndex + 1 + core.config.maxEntriesPerMsg < 2 ^ 64) (n : ℕ)
    (l : Leader) (hlow : core.log.snapshotIndex < l.nextOf peer)
    (hhigh : l.nextOf peer ≤ core.log.lastIndex + 1) :
    sendAgainU64 core peer n l = some (sendAgain core peer n l) := by
  induction n generalizing l with
  | zero => rfl
  | succ n ih =>
    obtain ⟨-, hnext⟩ := sendAppendTo_batch hlog hlow
    have hcount := length_entriesFrom hlog hlow
    rw [hpipe, if_pos rfl, List.length_take, hcount] at hnext
    rw [sendAgainU64, sendAppendToU64_eq (by omega) (by omega)]
    simp only [bind, Option.bind, ih (l.sendAppendTo core peer).1 (by omega) (by omega)]
    rfl

/-- One send carries the exact batch when and only when the rest of the log is within the limit;
otherwise it carries one entry too many. -/
theorem sends_exactly_iff (hlog : core.log.Contiguous)
    (hlow : core.log.snapshotIndex < l.nextOf peer) :
    (l.sendAppendTo core peer).2 = Effects.none.withMessage (core.message peer (.appendRequest
        (batchAt core (l.nextOf peer)
          (min core.config.maxEntriesPerMsg (core.log.lastIndex + 1 - l.nextOf peer))))) ↔
      core.log.lastIndex + 1 - l.nextOf peer ≤ core.config.maxEntriesPerMsg := by
  obtain ⟨heffects, -⟩ := sendAppendTo_batch hlog hlow
  have hcount := length_entriesFrom hlog hlow
  rw [heffects]
  constructor
  · intro hreq
    have hentries := congrArg (fun e : Effects =>
      (e.requestsTo peer).map (fun req => req.entries.length)) hreq
    simp only [requestsTo_batch, List.map_cons, List.map_nil, batchAt, List.length_take,
      hcount, List.cons.injEq, and_true] at hentries
    omega
  · intro hle
    have hall (k : ℕ) (hk : core.log.lastIndex + 1 - l.nextOf peer ≤ k) :
        (core.log.entriesFrom (l.nextOf peer)).take k = core.log.entriesFrom (l.nextOf peer) :=
      List.take_of_length_le (by omega)
    rw [batchAt, batchAt, hall _ (by omega), hall _ (by omega)]

end Leader
open Leader

/-- Batches are exact exactly when the rest of the log is within the limit and no sum overflows;
beyond the limit a batch has one entry too many. -/
theorem append_batches_exact_iff (l : Leader) (core : Core) (peer : NodeId)
    (hlog : core.log.Contiguous) (hlow : core.log.snapshotIndex < l.nextOf peer)
    (hhigh : l.nextOf peer ≤ core.log.lastIndex + 1) :
    BatchesExactly l core peer ↔
      core.log.lastIndex + 1 - l.nextOf peer ≤ core.config.maxEntriesPerMsg ∧
      l.furthest core peer + core.config.maxEntriesPerMsg < 2 ^ 64 := by
  obtain ⟨-, hnext⟩ := sendAppendTo_batch hlog hlow
  have hcount := length_entriesFrom hlog hlow
  constructor
  · intro hexact
    obtain ⟨sent, hsent, hrequest, -⟩ := hexact.sends
    obtain ⟨hfits, rfl⟩ := fits_of_sendAppendToU64 hlow hsent
    have hle := (sends_exactly_iff hlog hlow).mp hrequest
    refine ⟨hle, ?_⟩
    unfold furthest
    split_ifs with hpipe
    · -- after the first send the next index is past the log, and the second one adds to that
      obtain ⟨again, hagain, -⟩ := hexact.consecutive hpipe 2
      rw [hpipe, if_pos rfl, List.length_take, hcount] at hnext
      rw [sendAgainU64, hsent] at hagain
      simp only [bind, Option.bind, sendAgainU64] at hagain
      cases hsecond : (l.sendAppendTo core peer).1.sendAppendToU64 core peer with
      | none => simp [hsecond] at hagain
      | some second =>
        have hfits' := (fits_of_sendAppendToU64 (by omega) hsecond).1
        omega
    · exact hfits
  · rintro ⟨hle, hfits⟩
    have hfits' : l.nextOf peer + core.config.maxEntriesPerMsg < 2 ^ 64 := by
      unfold furthest at hfits
      split_ifs at hfits <;> omega
    refine ⟨hcount, ⟨_, sendAppendToU64_eq hfits' (by omega),
      (sends_exactly_iff hlog hlow).mpr hle, fun hpipe => ?_⟩, fun hpipe n => ?_⟩
    · rw [hnext, hpipe, if_pos rfl, List.length_take, hcount]
      omega
    · rw [furthest, if_pos hpipe] at hfits
      exact ⟨_, sendAgainU64_eq hlog hpipe hfits n l hlow hhigh,
        sendAgain_consecutive hlog hpipe hlow n⟩

/-- Node 0 with a limit, its first entry compacted, and up to two entries above it. -/
def backlog (limit count : ℕ) : Core :=
  (Core.new { Config.new 0 with maxEntriesPerMsg := limit } [0, 1]).setLog
    { entries := [{ term := 1, index := 2, payload := .command ⟨[1]⟩ },
        { term := 1, index := 3, payload := .command ⟨[2]⟩ }].take count
      snapshotIndex := 1
      snapshotTerm := 1
      snapshotConfig := none }

theorem backlog_contiguous (limit : ℕ) : (backlog limit 2).log.Contiguous := by
  intro k e he
  rcases k with _ | _ | k
  · cases he
    rfl
  · cases he
    rfl
  · cases he

/-- The leader elected before the two entries came. -/
def beforeBacklog (limit : ℕ) : Leader := (Leader.new (backlog limit 0)).1

/-- A limit of one entry and two entries to send: both are sent in one request, and the next
index moves past both. -/
theorem batch_exceeds_limit :
    (backlog 1 2).log.Contiguous ∧ (beforeBacklog 1).nextOf 1 = 2 ∧
    (backlog 1 2).log.lastIndex = 3 ∧ (backlog 1 2).config.maxEntriesPerMsg = 1 ∧
    (((beforeBacklog 1).sendAppendTo (backlog 1 2) 1).2.requestsTo 1).map
      (fun req => req.entries.length) = [2] ∧
    ((beforeBacklog 1).sendAppendTo (backlog 1 2) 1).1.nextOf 1 = 4 ∧
    ¬BatchesExactly (beforeBacklog 1) (backlog 1 2) 1 := by
  refine ⟨backlog_contiguous 1, ?_, ?_, rfl, ?_, ?_, ?_⟩
  · decide +kernel
  · decide +kernel
  · decide +kernel
  · decide +kernel
  · intro hexact
    obtain ⟨sent, hsent, -, hnext⟩ := hexact.sends
    obtain ⟨-, rfl⟩ := fits_of_sendAppendToU64 (by decide +kernel) hsent
    revert hnext
    decide +kernel

theorem append_batches_exact_backlog :
    BatchesExactly (beforeBacklog 2) (backlog 2 2) 1 :=
  (append_batches_exact_iff (beforeBacklog 2) (backlog 2 2) 1 (backlog_contiguous 2)
    (by decide +kernel) (by decide +kernel)).mpr (by decide +kernel)

end BasisDB.Raft
