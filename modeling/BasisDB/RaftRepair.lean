import BasisDB.RaftRefineCommit
import BasisDB.RaftSends

/-! The exchange that repairs a follower's log: the leader sends an append request, the
follower answers it, and the leader handles the answer, with every append message between
the two delivered in order. -/
namespace BasisDB.Raft

namespace Payload

def asAppendRequest : Payload → Option AppendRequest
  | appendRequest req => some req
  | _ => none

def asAppendResponse : Payload → Option AppendResponse
  | appendResponse resp => some resp
  | _ => none

end Payload

/-- The append requests among some effects that go to one peer. -/
def Effects.requestsTo (e : Effects) (peer : NodeId) : List AppendRequest :=
  e.messages.filterMap (fun m => if m.receiver = peer then m.payload.asAppendRequest else .none)

def Effects.responsesTo (e : Effects) (peer : NodeId) : List AppendResponse :=
  e.messages.filterMap (fun m => if m.receiver = peer then m.payload.asAppendResponse else .none)

/-- A leader and one of its followers, with the requests still on their way. -/
structure Exchange where
  leader : Leader
  leaderCore : Core
  follower : Follower
  followerCore : Core
  inFlight : List AppendRequest

namespace Exchange

def peer (x : Exchange) : NodeId := x.followerCore.id

/-- The leader's `next_index` of the follower. -/
def next (x : Exchange) : ℕ := (x.leader.nextIndex.get x.peer).getD 1

/-- The requests to deliver; the leader sends one when none is on its way. -/
def sending (x : Exchange) : Leader × List AppendRequest :=
  match x.inFlight with
  | [] =>
    let (l, effects) := x.leader.sendAppendTo x.leaderCore x.peer
    (l, effects.requestsTo x.peer)
  | reqs => (x.leader, reqs)

/-- The leader's side once the follower's answers have arrived. -/
def answer (x : Exchange) (l : Leader) (f : Stepped Follower) (rest : List AppendRequest) :
    Exchange :=
  match f.result.effects.responsesTo x.leaderCore.id with
  | [] => { x with leader := l, follower := f.role, followerCore := f.core, inFlight := rest }
  | resp :: _ =>
    let s := l.handleAppendResponse x.leaderCore x.peer resp
    { leader := s.role
      leaderCore := s.core
      follower := f.role
      followerCore := f.core
      inFlight := rest ++ s.result.effects.requestsTo x.peer }

/-- One round: a request is delivered, and so is its answer. -/
def round (x : Exchange) : Exchange :=
  match x.sending with
  | (l, []) => { x with leader := l }
  | (l, req :: rest) =>
    x.answer l (x.follower.handleAppendRequest x.followerCore x.leaderCore.id req) rest

/-- The follower's log begins with the given entries. -/
def Holds (x : Exchange) (entries : List Entry) : Prop := entries <+: x.followerCore.log.entries

end Exchange

namespace Leader
variable {l : Leader} {core : Core} {peer : NodeId}

/-- The request that `send_append_to` builds at a next index. -/
def requestAt (core : Core) (next : ℕ) : AppendRequest :=
  { prevLogIndex := next - 1
    prevLogTerm := core.log.termAt (next - 1)
    entries := (core.log.entries.drop (next - 1)).take (core.config.maxEntriesPerMsg + 1)
    leaderCommit := core.commitIndex }

/-- Where `send_append_to` leaves the next index. -/
def nextAfter (core : Core) (next : ℕ) : ℕ :=
  if core.config.pipelining then next + (requestAt core next).entries.length else next

theorem batchAt_plain (hplain : core.log.Plain) (next : ℕ) :
    batchAt core next (core.config.maxEntriesPerMsg + 1) = requestAt core next := by
  rw [batchAt, Log.entriesFrom, hplain.snapshotIndex]
  rfl

/-- `send_append_to` without a snapshot: one request, from the next index on. -/
theorem sendAppendTo_eq (hplain : core.log.Plain) (hnext : 0 < l.nextOf peer) :
    (l.sendAppendTo core peer).2 = Effects.none.withMessage
      (core.message peer (.appendRequest (requestAt core (l.nextOf peer)))) ∧
    (l.sendAppendTo core peer).1.nextOf peer = nextAfter core (l.nextOf peer) := by
  have hlow : core.log.snapshotIndex < l.nextOf peer := by
    rw [hplain.snapshotIndex]
    exact hnext
  obtain ⟨heffects, hafter⟩ := sendAppendTo_batch hplain.contiguous hlow
  rw [nextAfter, ← batchAt_plain hplain]
  exact ⟨heffects, hafter⟩

/-- Sending to another peer concerns this one in no way. -/
theorem sendAppendTo_other {receiver : NodeId} (hne : receiver ≠ peer) :
    (l.sendAppendTo core receiver).2.requestsTo peer = [] ∧
    (l.sendAppendTo core receiver).1.nextOf peer = l.nextOf peer := by
  unfold sendAppendTo
  dsimp only
  by_cases hcompacted : (l.nextIndex.get receiver).getD 1 ≤ core.log.snapshotIndex
  · rw [if_pos hcompacted]
    exact ⟨rfl, rfl⟩
  · rw [if_neg hcompacted]
    refine ⟨?_, ?_⟩
    · simp [Effects.requestsTo, Effects.withMessage, Effects.none, Core.message, hne]
    · dsimp only
      split_ifs
      · rw [nextOf, OrdMap.get_insert_ne _ _ hne]
        rfl
      · rfl

end Leader

/-- The term of position `i` of a list of entries, zero where there is none. -/
def termOf (L : List Entry) (i : ℕ) : ℕ :=
  if i = 0 then 0 else ((L[i - 1]?).map Entry.term).getD 0

theorem Log.Plain.termAt_eq {log : Log} (h : log.Plain) (i : ℕ) :
    log.termAt i = termOf log.entries i := by
  cases i with
  | zero => rw [Log.Plain.termAt_zero, termOf, if_pos rfl]
  | succ i => rw [h.termAt_succ, termOf, if_neg (Nat.succ_ne_zero i), Nat.add_sub_cancel]

theorem termOf_of_le {L ext : List Entry} {i : ℕ} (hi : i ≤ L.length) :
    termOf (L ++ ext) i = termOf L i := by
  unfold termOf
  split_ifs with hzero
  · rfl
  · rw [List.getElem?_append_left (by omega)]

/-- A request from the next index on, cut from a log that begins with `L`. -/
structure Segment (L : List Entry) (next : ℕ) (req : AppendRequest) : Prop where
  pos : 0 < next
  prevLogIndex : req.prevLogIndex = next - 1
  prevLogTerm : next - 1 ≤ L.length → req.prevLogTerm = termOf L (next - 1)
  numbered : Numbered (next - 1) req.entries
  entries : ∃ ext c, req.entries = ((L ++ ext).drop (next - 1)).take (c + 1)

/-- Requests sent one after the other, and what they do to the next index. -/
inductive Issued (L : List Entry) (pipelining : Bool) : ℕ → List AppendRequest → ℕ → Prop
  | nil (next : ℕ) : Issued L pipelining next [] next
  | cons {next next' : ℕ} {req : AppendRequest} {reqs : List AppendRequest}
      (hreq : Segment L next req)
      (h : Issued L pipelining (if pipelining then next + req.entries.length else next) reqs
        next') : Issued L pipelining next (req :: reqs) next'

theorem Issued.trans {L : List Entry} {pipelining : Bool} {n n' n'' : ℕ}
    {reqs reqs' : List AppendRequest} (h : Issued L pipelining n reqs n')
    (h' : Issued L pipelining n' reqs' n'') : Issued L pipelining n (reqs ++ reqs') n'' := by
  induction h with
  | nil => exact h'
  | cons hreq h ih => exact Issued.cons hreq (ih h')

theorem Issued.le {L : List Entry} {pipelining : Bool} {n n' : ℕ} {reqs : List AppendRequest}
    (h : Issued L pipelining n reqs n') : n ≤ n' := by
  induction h with
  | nil => exact le_rfl
  | cons hreq h ih =>
    refine le_trans ?_ ih
    split_ifs
    · exact Nat.le_add_right _ _
    · exact le_rfl

theorem numbered_drop {k : ℕ} {L : List Entry} (h : Numbered 0 L) (hk : k ≤ L.length) :
    Numbered k (L.drop k) := by
  have hsplit := h
  rw [← List.take_append_drop k L, numbered_append] at hsplit
  simpa [List.length_take, hk] using hsplit.2

namespace Leader
variable {l : Leader} {core : Core} {peer : NodeId} {L ext : List Entry}

theorem requestAt_segment (hplain : core.log.Plain) (hlog : core.log.entries = L ++ ext) {next : ℕ}
    (hnext : 0 < next) : Segment L next (requestAt core next) := by
  refine ⟨hnext, rfl, ?_, ?_, ext, core.config.maxEntriesPerMsg, ?_⟩
  · intro hle
    rw [requestAt, hplain.termAt_eq, hlog, termOf_of_le hle]
  · unfold requestAt
    by_cases hle : next - 1 ≤ core.log.entries.length
    · exact (numbered_drop hplain.numbered hle).of_isPrefix (List.take_prefix _ _)
    · rw [List.drop_eq_nil_of_le (by omega), List.take_nil]
      trivial
  · rw [requestAt, hlog]

theorem requestsTo_merge (e e' : Effects) :
    (e.merge e').requestsTo peer = e.requestsTo peer ++ e'.requestsTo peer := by
  simp [Effects.requestsTo, Effects.merge]

/-- A send, to whichever peer. -/
theorem sendAppendTo_issued (hplain : core.log.Plain) (hlog : core.log.entries = L ++ ext)
    (hnext : 0 < l.nextOf peer) (receiver : NodeId) :
    Issued L core.config.pipelining (l.nextOf peer)
      ((l.sendAppendTo core receiver).2.requestsTo peer)
      ((l.sendAppendTo core receiver).1.nextOf peer) := by
  by_cases hne : receiver = peer
  · subst hne
    obtain ⟨heffects, hafter⟩ := sendAppendTo_eq hplain hnext
    have hreqs : (l.sendAppendTo core receiver).2.requestsTo receiver =
        [requestAt core (l.nextOf receiver)] := by
      rw [heffects]
      simp [Effects.requestsTo, Effects.withMessage, Effects.none, Core.message,
        Payload.asAppendRequest]
    rw [hreqs, hafter]
    exact Issued.cons (requestAt_segment hplain hlog hnext) (Issued.nil _)
  · have hother : (l.sendAppendTo core receiver).2.requestsTo peer = [] ∧
        (l.sendAppendTo core receiver).1.nextOf peer = l.nextOf peer := sendAppendTo_other hne
    rw [hother.1, hother.2]
    exact Issued.nil _

theorem sendAppends_issued (hplain : core.log.Plain) (hlog : core.log.entries = L ++ ext)
    (peers : List NodeId) (acc : Leader × Effects) (hnext : 0 < acc.1.nextOf peer) :
    ∃ reqs, (peers.foldl (sendAppends core) acc).2.requestsTo peer =
        acc.2.requestsTo peer ++ reqs ∧
      Issued L core.config.pipelining (acc.1.nextOf peer) reqs
        ((peers.foldl (sendAppends core) acc).1.nextOf peer) := by
  induction peers generalizing acc with
  | nil => exact ⟨[], by simp, Issued.nil _⟩
  | cons receiver peers ih =>
    have hsend := sendAppendTo_issued hplain hlog hnext receiver
    have hnext' : 0 < (sendAppends core acc receiver).1.nextOf peer :=
      lt_of_lt_of_le hnext hsend.le
    obtain ⟨reqs, hreqs, hissued⟩ := ih (sendAppends core acc receiver) hnext'
    refine ⟨(acc.1.sendAppendTo core receiver).2.requestsTo peer ++ reqs, ?_, hsend.trans hissued⟩
    rw [List.foldl_cons, hreqs, ← List.append_assoc]
    congr 1
    exact requestsTo_merge _ _

theorem broadcastAppend_issued (hplain : core.log.Plain) (hlog : core.log.entries = L ++ ext)
    (hnext : 0 < l.nextOf peer) :
    Issued L core.config.pipelining (l.nextOf peer) ((l.broadcastAppend core).2.requestsTo peer)
      ((l.broadcastAppend core).1.nextOf peer) := by
  obtain ⟨reqs, hreqs, hissued⟩ := sendAppends_issued hplain hlog
    (core.effectiveConfig.replicationPeers core.id) (l, Effects.none) hnext
  unfold broadcastAppend
  rw [hreqs]
  exact hissued

end Leader
end BasisDB.Raft
