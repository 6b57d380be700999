import BasisDB.RaftRepairSteps

/-! One round of the exchange: what the follower's log becomes, how the leader takes the
answer, and which requests are on their way afterwards. -/
namespace BasisDB.Raft
open ReplicatedLog

namespace Follower

/-- The follower's log after an append request. -/
def logAfter (log : Log) (req : AppendRequest) : Log :=
  if accepts log req then (appendEntries log req.entries).1 else log

theorem handleAppendRequest_spec (f : Follower) (core : Core) (sender : NodeId)
    (req : AppendRequest) :
    (f.handleAppendRequest core sender req).core.id = core.id ∧
    (f.handleAppendRequest core sender req).core.log = logAfter core.log req ∧
    (f.handleAppendRequest core sender req).result.effects.responsesTo sender =
      [{ success := accepts core.log req
         lastLogIndex := (logAfter core.log req).lastIndex }] := by
  have hcore : (f.contact core sender).2.log = core.log ∧ (f.contact core sender).2.id = core.id :=
    ⟨rfl, rfl⟩
  unfold handleAppendRequest logAfter
  dsimp only
  rw [hcore.1]
  cases hacc : accepts core.log req with
  | false =>
    refine ⟨hcore.2, hcore.1, ?_⟩
    simp [Effects.responsesTo, Effects.withMessage, Effects.none, StepResult.stay, Core.message,
      Payload.asAppendResponse]
  | true =>
    have hset (core' : Core) (log : Log) (k j : ℕ) :
        (if (core'.setLog log).commitIndex < k then (core'.setLog log).setCommitIndex j
          else core'.setLog log).log = log ∧
        (if (core'.setLog log).commitIndex < k then (core'.setLog log).setCommitIndex j
          else core'.setLog log).id = core'.id := by
      split_ifs <;> exact ⟨rfl, rfl⟩
    refine ⟨(hset _ _ _ _).2.trans hcore.2, (hset _ _ _ _).1, ?_⟩
    have hlast (persist : Bool) (core' : Core) (last : ℕ) :
        ((if persist then Effects.none.withPersist else Effects.none).withMessage
          (core'.message sender (.appendResponse { success := true, lastLogIndex := last }))
          ).responsesTo sender = [{ success := true, lastLogIndex := last }] := by
      cases persist <;>
        simp [Effects.responsesTo, Effects.withMessage, Effects.none, Effects.withPersist,
          Core.message, Payload.asAppendResponse]
    refine (hlast _ _ _).trans ?_
    rw [(hset _ _ _ _).1]
    rfl

end Follower

namespace Leader
variable {L : List Entry} {peer : NodeId} {core : Core} {l : Leader}

/-- The next index after an accepted request, before the commit loop. -/
def nextAccepted (core : Core) (next last : ℕ) : ℕ :=
  if core.config.pipelining then next else last + 1

/-- The next index after a rejected request. -/
def nextRejected (l : Leader) (core : Core) (peer : NodeId) (last : ℕ) : ℕ :=
  if core.config.pipelining then max (last + 1) (l.matchOf peer + 1) else last + 1

theorem handleAppendResponse_accepted (h : Leads L peer core)
    (hknown : (l.nextIndex.get peer).isSome = true) (hpos : 0 < l.nextOf peer) (last : ℕ) :
    ∃ l₁ : Leader, l₁.nextOf peer = nextAccepted core (l.nextOf peer) last ∧
      Advances L peer l₁ core
        (l.handleAppendResponse core peer { success := true, lastLogIndex := last }).role
        (l.handleAppendResponse core peer { success := true, lastLogIndex := last }).core
        ((l.handleAppendResponse core peer
          { success := true, lastLogIndex := last }).result.effects.requestsTo peer) := by
  unfold handleAppendResponse
  rw [h.isMember]
  simp only [Bool.not_true, Bool.false_eq_true, if_false, if_true]
  by_cases hpipe : core.config.pipelining = true
  · simp only [nextAccepted, hpipe, if_true]
    exact ⟨{ l with matchIndex := l.matchIndex.insert peer last }, rfl,
      commitStep_advances h hknown hpos⟩
  · simp only [nextAccepted, hpipe, if_false, Bool.false_eq_true]
    refine ⟨{ l with
      matchIndex := l.matchIndex.insert peer last
      nextIndex := l.nextIndex.insert peer (last + 1) }, ?_, commitStep_advances h ?_ ?_⟩
    · simp [nextOf]
    · simp
    · simp [nextOf]

theorem handleAppendResponse_rejected (h : Leads L peer core) (last : ℕ) :
    (l.handleAppendResponse core peer { success := false, lastLogIndex := last }).core = core ∧
    ((l.handleAppendResponse core peer
      { success := false, lastLogIndex := last }).role.nextIndex.get peer).isSome = true ∧
    (l.handleAppendResponse core peer { success := false, lastLogIndex := last }).role.nextOf peer =
      nextAfter core (nextRejected l core peer last) ∧
    (l.handleAppendResponse core peer
      { success := false, lastLogIndex := last }).result.effects.requestsTo peer =
      [requestAt core (nextRejected l core peer last)] := by
  have hhint : (if core.config.pipelining = true
      then max (max (last + 1) 1) (l.matchOf peer + 1) else max (last + 1) 1) =
      nextRejected l core peer last := by
    have hmax : max (last + 1) 1 = last + 1 := by omega
    rw [hmax]
    rfl
  unfold handleAppendResponse
  rw [h.isMember]
  simp only [Bool.not_true, Bool.false_eq_true, if_false, hhint]
  generalize hl₁ : Leader.mk (l.nextIndex.insert peer (nextRejected l core peer last)) l.matchIndex
    l.heartbeatDeadline l.nextReadId l.pendingReadIndex l.confirmedReadIndex = l₁
  have hget : l₁.nextIndex.get peer = some (nextRejected l core peer last) := by
    rw [← hl₁]
    exact OrdMap.get_insert_self _ _ _
  have hnext : l₁.nextOf peer = nextRejected l core peer last := by
    rw [nextOf, hget]
    rfl
  have hpos : 0 < l₁.nextOf peer := by
    rw [hnext, nextRejected]
    split_ifs <;> omega
  obtain ⟨heffects, hafter⟩ := sendAppendTo_eq h.plain hpos
  rw [hnext] at heffects hafter
  refine ⟨trivial, sendAppendTo_known peer (by rw [hget]; rfl), hafter, ?_⟩
  show (l₁.sendAppendTo core peer).2.requestsTo peer = _
  rw [heffects]
  simp [Effects.requestsTo, Effects.withMessage, Effects.none, Core.message,
    Payload.asAppendRequest]

end Leader

namespace Exchange
open Leader Follower
variable {L : List Entry} {x : Exchange}

/-- What both sides keep through the rounds. -/
structure Ready (L : List Entry) (x : Exchange) : Prop where
  leads : Leads L x.peer x.leaderCore
  known : (x.leader.nextIndex.get x.peer).isSome = true
  pos : 0 < x.next

theorem sending_nil (h : Ready L x) (hnil : x.inFlight = []) :
    ∃ l, x.sending = (l, [requestAt x.leaderCore x.next]) ∧
      (l.nextIndex.get x.peer).isSome = true ∧ l.nextOf x.peer = nextAfter x.leaderCore x.next ∧
      l.matchOf x.peer = x.leader.matchOf x.peer := by
  obtain ⟨heffects, hafter⟩ := sendAppendTo_eq (l := x.leader) h.leads.plain h.pos
  have hview := (sendAppendTo_spec x.leader h.leads.plain.snapshotIndex x.peer).1
  refine ⟨(x.leader.sendAppendTo x.leaderCore x.peer).1, ?_, sendAppendTo_known x.peer h.known,
    hafter, congrFun (congrArg LeaderView.matched hview) x.peer⟩
  unfold sending
  rw [hnil]
  simp only [heffects]
  simp [Effects.requestsTo, Effects.withMessage, Effects.none, Core.message,
    Payload.asAppendRequest, next, nextOf]

theorem sending_cons {req : AppendRequest} {rest : List AppendRequest}
    (hcons : x.inFlight = req :: rest) : x.sending = (x.leader, req :: rest) := by
  unfold sending
  rw [hcons]

/-- Everything a round is, once it is known which request is delivered. -/
theorem round_eq {l : Leader} {req : AppendRequest} {rest : List AppendRequest}
    (hsend : x.sending = (l, req :: rest)) :
    x.round.peer = x.peer ∧ x.round.followerCore.log = logAfter x.followerCore.log req ∧
    x.round.leader = (l.handleAppendResponse x.leaderCore x.peer
      { success := accepts x.followerCore.log req
        lastLogIndex := (logAfter x.followerCore.log req).lastIndex }).role ∧
    x.round.leaderCore = (l.handleAppendResponse x.leaderCore x.peer
      { success := accepts x.followerCore.log req
        lastLogIndex := (logAfter x.followerCore.log req).lastIndex }).core ∧
    x.round.inFlight = rest ++ (l.handleAppendResponse x.leaderCore x.peer
      { success := accepts x.followerCore.log req
        lastLogIndex := (logAfter x.followerCore.log req).lastIndex }).result.effects.requestsTo
          x.peer := by
  obtain ⟨hid, hlog, hresp⟩ := handleAppendRequest_spec x.follower x.followerCore x.leaderCore.id req
  unfold round
  rw [hsend]
  unfold answer
  simp only [hresp]
  exact ⟨hid, hlog, trivial, trivial, trivial⟩

/-- A round whose request is accepted: the commit loop may send more. -/
theorem round_accepted {l : Leader} {req : AppendRequest} {rest : List AppendRequest}
    (h : Leads L x.peer x.leaderCore) (hsend : x.sending = (l, req :: rest))
    (hknown : (l.nextIndex.get x.peer).isSome = true) (hpos : 0 < l.nextOf x.peer)
    (hacc : accepts x.followerCore.log req = true) :
    x.round.peer = x.peer ∧ x.round.followerCore.log = logAfter x.followerCore.log req ∧
    ∃ reqs l₁, l₁.nextOf x.peer = nextAccepted x.leaderCore (l.nextOf x.peer)
        (logAfter x.followerCore.log req).lastIndex ∧
      Advances L x.peer l₁ x.leaderCore x.round.leader x.round.leaderCore reqs ∧
      x.round.inFlight = rest ++ reqs := by
  obtain ⟨hpeer, hlog, hleader, hcore, hflight⟩ := round_eq hsend
  rw [hacc] at hleader hcore hflight
  obtain ⟨l₁, hnext, hadv⟩ := handleAppendResponse_accepted h hknown hpos
    (logAfter x.followerCore.log req).lastIndex
  refine ⟨hpeer, hlog, _, l₁, hnext, ?_, hflight⟩
  rw [hleader, hcore]
  exact hadv

/-- A round whose request is rejected: the leader goes to the end of the follower's log. -/
theorem round_rejected {l : Leader} {req : AppendRequest} {rest : List AppendRequest}
    (h : Leads L x.peer x.leaderCore) (hsend : x.sending = (l, req :: rest))
    (hacc : accepts x.followerCore.log req = false) :
    x.round.peer = x.peer ∧ x.round.followerCore.log = x.followerCore.log ∧
    x.round.leaderCore = x.leaderCore ∧
    (x.round.leader.nextIndex.get x.peer).isSome = true ∧
    x.round.leader.nextOf x.peer = nextAfter x.leaderCore
      (nextRejected l x.leaderCore x.peer x.followerCore.log.lastIndex) ∧
    x.round.inFlight = rest ++ [requestAt x.leaderCore
      (nextRejected l x.leaderCore x.peer x.followerCore.log.lastIndex)] := by
  have hsame : logAfter x.followerCore.log req = x.followerCore.log := by
    rw [logAfter, hacc, if_neg Bool.false_ne_true]
  obtain ⟨hpeer, hlog, hleader, hcore, hflight⟩ := round_eq hsend
  rw [hsame] at hlog hleader hcore hflight
  rw [hacc] at hleader hcore hflight
  obtain ⟨hc, hk, hn, hr⟩ := handleAppendResponse_rejected (l := l) h x.followerCore.log.lastIndex
  rw [hleader, hcore, hflight, hr]
  exact ⟨hpeer, hlog, hc, hk, hn, rfl⟩

end Exchange
end BasisDB.Raft
