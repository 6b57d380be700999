import BasisDB.RaftNode

/-! The transitions that the roles ask for: on which events a node campaigns, and what a
role that stays has kept. -/
namespace BasisDB.Raft

/-- The answer that makes a pre-candidate's quorum complete. -/
def PreCandidate.Completes (p : PreCandidate) (core : Core) (msg : Message) : Prop :=
  msg.payload = .preVoteResponse { term := core.term, granted := true } ∧
    { p with preVotes := p.preVotes.insert msg.sender }.hasQuorum core = true

/-- The tick at which a candidate gives its election up and starts the next one. -/
def Candidate.timesOut (c : Candidate) (core : Core) : Bool :=
  !c.recentlyHeardFromLeader { core with ticks := core.ticks + 1 } &&
    decide (c.electionDeadline ≤ core.ticks + 1)

namespace Follower

/-- A follower's answer to a current message: only `TimeoutNow` makes it campaign, as it is. -/
theorem handleCurrent_asks (f : Follower) (core : Core) (msg : Message) :
    (f.handleCurrent core msg).result.transition = .stay ∨
      (f.handleCurrent core msg).result.transition = .toCandidate ∧ msg.payload = .timeoutNow ∧
        (f.handleCurrent core msg).core = core := by
  unfold handleCurrent
  cases hp : msg.payload with
  | voteRequest req =>
    left
    show (f.handleVoteRequest core msg.sender req).result.transition = .stay
    unfold handleVoteRequest
    dsimp only
    split_ifs <;> rfl
  | appendRequest req =>
    left
    show (f.handleAppendRequest core msg.sender req).result.transition = .stay
    unfold handleAppendRequest
    dsimp only
    split_ifs <;> rfl
  | installSnapshotRequest req =>
    left
    show (f.handleInstallSnapshot core msg.sender req).result.transition = .stay
    unfold handleInstallSnapshot
    dsimp only
    split_ifs <;> rfl
  | timeoutNow => exact Or.inr ⟨rfl, rfl, rfl⟩
  | preVoteRequest _ | preVoteResponse _ | voteResponse _ | appendResponse _
  | installSnapshotResponse _ | readIndexRequest _ | readIndexResponse _ => exact Or.inl rfl

/-- A follower campaigns on `TimeoutNow` or on its election timeout. -/
theorem step_asks (f : Follower) (core : Core) (event : Event) :
    (f.step core event).result.transition = .stay ∨
    ((f.step core event).result.transition = .toCandidate ∧
      ∃ msg, event = .message msg ∧ msg.payload = .timeoutNow) ∨
    event = .tick ∧ (f.step core event).result.transition =
      if core.config.prevote then .toPreCandidate else .toCandidate := by
  cases event with
  | tick =>
    unfold step handleTick
    dsimp only
    split_ifs with hdue hprevote
    · exact Or.inr (Or.inr ⟨rfl, rfl⟩)
    · exact Or.inr (Or.inr ⟨rfl, rfl⟩)
    · exact Or.inl rfl
    · exact Or.inl rfl
  | diskWriteComplete index => exact Or.inl rfl
  | message msg =>
    have hcurrent (f' : Follower) (core' : Core) :
        (f'.handleCurrent core' msg).result.transition = .stay ∨
        (f'.handleCurrent core' msg).result.transition = .toCandidate ∧
          ∃ m, Event.message msg = .message m ∧ m.payload = .timeoutNow := by
      refine (handleCurrent_asks f' core' msg).imp_right ?_
      exact fun h => ⟨h.1, msg, rfl, h.2.1⟩
    show (f.handleMessage core msg).result.transition = .stay ∨
      ((f.handleMessage core msg).result.transition = .toCandidate ∧ _) ∨ _
    unfold handleMessage
    split
    · exact Or.inl rfl
    split
    · exact Or.inl rfl
    by_cases hlt : core.term < msg.term
    · rw [if_pos hlt]
      exact (hcurrent _ _).imp_right Or.inl
    rw [if_neg hlt]
    by_cases hgt : msg.term < core.term
    · rw [if_pos hgt]
      exact Or.inl rfl
    rw [if_neg hgt]
    exact (hcurrent _ _).imp_right Or.inl

end Follower

namespace PreCandidate

/-- The responses that are counted. -/
theorem counted_response {core : Core} {resp : PreVoteResponse} (hlt : ¬core.term < resp.term)
    (hrefused : ¬(resp.term < core.term ∨ resp.granted = false)) :
    resp = { term := core.term, granted := true } := by
  have hterm : resp.term = core.term := by omega
  have hgranted : resp.granted = true := by
    by_contra hg
    exact hrefused (Or.inr ((Bool.not_eq_true _).mp hg))
  rw [← hterm, ← hgranted]

theorem handlePrevoteResponse_asks (p : PreCandidate) (core : Core) {msg : Message}
    {resp : PreVoteResponse} (hp : msg.payload = .preVoteResponse resp) :
    (p.handlePrevoteResponse core msg.sender resp).result.transition = .toCandidate →
      p.Completes core msg := by
  unfold handlePrevoteResponse
  by_cases hlt : core.term < resp.term
  · rw [if_pos hlt]
    nofun
  rw [if_neg hlt]
  by_cases hrefused : resp.term < core.term ∨ resp.granted = false
  · rw [if_pos hrefused]
    nofun
  rw [if_neg hrefused]
  dsimp only
  split_ifs with hq
  · intro _
    refine ⟨?_, hq⟩
    rw [hp, counted_response hlt hrefused]
  · nofun

theorem handleMessage_asks (p : PreCandidate) (core : Core) (msg : Message) :
    ((p.handleMessage core msg).result.transition = .toCandidate →
      msg.payload = .timeoutNow ∨ p.Completes core msg) ∧
    (p.handleMessage core msg).result.transition ≠ .toPreCandidate := by
  unfold handleMessage
  split
  · exact ⟨nofun, nofun⟩
  by_cases hlt : core.term < msg.term
  · rw [if_pos hlt]
    exact ⟨nofun, nofun⟩
  rw [if_neg hlt]
  cases hp : msg.payload with
  | preVoteResponse resp =>
    refine ⟨fun h => Or.inr (p.handlePrevoteResponse_asks core hp h), ?_⟩
    show (p.handlePrevoteResponse core msg.sender resp).result.transition ≠ .toPreCandidate
    unfold handlePrevoteResponse
    dsimp only
    split_ifs <;> nofun
  | timeoutNow => exact ⟨fun _ => Or.inl rfl, nofun⟩
  | preVoteRequest _ | voteRequest _ | voteResponse _ | appendRequest _ | appendResponse _
  | installSnapshotRequest _ | installSnapshotResponse _ | readIndexRequest _
  | readIndexResponse _ => exact ⟨nofun, nofun⟩

/-- A pre-candidate starts an election on `TimeoutNow` or when its quorum is complete, and
another pre-election on a timeout. -/
theorem step_asks (p : PreCandidate) (core : Core) (event : Event) :
    ((p.step core event).result.transition = .toCandidate →
      ∃ msg, event = .message msg ∧ (msg.payload = .timeoutNow ∨ p.Completes core msg)) ∧
    ((p.step core event).result.transition = .toPreCandidate → event = .tick) := by
  cases event with
  | tick =>
    refine ⟨?_, fun _ => rfl⟩
    unfold step handleTick
    dsimp only
    split_ifs <;> nofun
  | diskWriteComplete index => exact ⟨nofun, nofun⟩
  | message msg =>
    obtain ⟨hcand, hpre⟩ := p.handleMessage_asks core msg
    exact ⟨fun h => ⟨msg, rfl, hcand h⟩, fun h => absurd h hpre⟩

theorem handlePrevoteResponse_stay (p : PreCandidate) (core : Core) (sender : NodeId)
    (resp : PreVoteResponse)
    (hstay : (p.handlePrevoteResponse core sender resp).result.transition = .stay) :
    (p.handlePrevoteResponse core sender resp).core.persistent = core.persistent ∧
    (p.handlePrevoteResponse core sender resp).core.config = core.config ∧
    ((p.handlePrevoteResponse core sender resp).role.preVotes = p.preVotes ∨
      resp = { term := core.term, granted := true } ∧
      (p.handlePrevoteResponse core sender resp).role.preVotes = p.preVotes.insert sender ∧
      (p.handlePrevoteResponse core sender resp).role.hasQuorum core = false) := by
  revert hstay
  unfold handlePrevoteResponse
  by_cases hlt : core.term < resp.term
  · rw [if_pos hlt]
    nofun
  rw [if_neg hlt]
  by_cases hrefused : resp.term < core.term ∨ resp.granted = false
  · rw [if_pos hrefused]
    exact fun _ => ⟨rfl, rfl, Or.inl rfl⟩
  rw [if_neg hrefused]
  dsimp only
  split_ifs with hq
  · nofun
  · intro _
    exact ⟨rfl, rfl, Or.inr ⟨counted_response hlt hrefused, rfl, (Bool.not_eq_true _).mp hq⟩⟩

/-- What a pre-candidate that stays one has: at most one pre-vote more, granted at its term,
and no quorum if it had none. -/
theorem step_stay (p : PreCandidate) (core : Core) (event : Event)
    (hstay : (p.step core event).result.transition = .stay) :
    (p.step core event).core.persistent = core.persistent ∧
    (p.step core event).core.config = core.config ∧
    ((p.step core event).role.preVotes = p.preVotes ∨
      ∃ msg, event = .message msg ∧
        msg.payload = .preVoteResponse { term := core.term, granted := true } ∧
        (p.step core event).role.preVotes = p.preVotes.insert msg.sender ∧
        (p.step core event).role.hasQuorum core = false) := by
  cases event with
  | tick =>
    unfold step handleTick
    dsimp only
    split_ifs <;> exact ⟨rfl, rfl, Or.inl rfl⟩
  | diskWriteComplete index => exact ⟨rfl, rfl, Or.inl rfl⟩
  | message msg =>
    revert hstay
    show (p.handleMessage core msg).result.transition = .stay →
      (p.handleMessage core msg).core.persistent = core.persistent ∧
      (p.handleMessage core msg).core.config = core.config ∧
      ((p.handleMessage core msg).role.preVotes = p.preVotes ∨ ∃ m, Event.message msg = .message m ∧
        m.payload = .preVoteResponse { term := core.term, granted := true } ∧
        (p.handleMessage core msg).role.preVotes = p.preVotes.insert m.sender ∧
        (p.handleMessage core msg).role.hasQuorum core = false)
    unfold handleMessage
    split
    · exact fun _ => ⟨rfl, rfl, Or.inl rfl⟩
    by_cases hlt : core.term < msg.term
    · rw [if_pos hlt]
      nofun
    rw [if_neg hlt]
    cases hp : msg.payload with
    | preVoteResponse resp =>
      intro hstay
      obtain ⟨hpers, hconf, hvotes⟩ := handlePrevoteResponse_stay p core msg.sender resp hstay
      refine ⟨hpers, hconf, hvotes.imp_right ?_⟩
      rintro ⟨hresp, hinsert, hq⟩
      exact ⟨msg, rfl, hp.trans (congrArg Payload.preVoteResponse hresp), hinsert, hq⟩
    | appendRequest _ => nofun
    | timeoutNow => nofun
    | preVoteRequest _ | voteRequest _ | voteResponse _ | appendResponse _
    | installSnapshotRequest _ | installSnapshotResponse _ | readIndexRequest _
    | readIndexResponse _ => exact fun _ => ⟨rfl, rfl, Or.inl rfl⟩

end PreCandidate

namespace Candidate

theorem handleMessage_asks (c : Candidate) (core : Core) (msg : Message) :
    ((c.handleMessage core msg).result.transition = .toCandidate → msg.payload = .timeoutNow) ∧
    (c.handleMessage core msg).result.transition ≠ .toPreCandidate := by
  unfold handleMessage
  split
  · exact ⟨nofun, nofun⟩
  split
  · exact ⟨nofun, nofun⟩
  by_cases hlt : core.term < msg.term
  · rw [if_pos hlt]
    exact ⟨nofun, nofun⟩
  rw [if_neg hlt]
  by_cases hgt : msg.term < core.term
  · rw [if_pos hgt]
    exact ⟨nofun, nofun⟩
  rw [if_neg hgt]
  cases hp : msg.payload with
  | voteResponse resp =>
    show ((c.handleVoteResponse core msg.sender resp).result.transition = .toCandidate → _) ∧
      (c.handleVoteResponse core msg.sender resp).result.transition ≠ .toPreCandidate
    unfold handleVoteResponse
    dsimp only
    split_ifs <;> exact ⟨nofun, nofun⟩
  | timeoutNow => exact ⟨fun _ => rfl, nofun⟩
  | preVoteRequest _ | preVoteResponse _ | voteRequest _ | appendRequest _ | appendResponse _
  | installSnapshotRequest _ | installSnapshotResponse _ | readIndexRequest _
  | readIndexResponse _ => exact ⟨nofun, nofun⟩

theorem handleTick_asks (c : Candidate) (core : Core) :
    (c.handleTick core).result.transition = if c.timesOut core then .toCandidate else .stay := by
  unfold handleTick timesOut
  dsimp only
  by_cases hrecent : c.recentlyHeardFromLeader { core with ticks := core.ticks + 1 } = true
  · rw [if_pos hrecent, hrecent]
    rfl
  · rw [if_neg hrecent, (Bool.not_eq_true _).mp hrecent]
    by_cases hdue : c.electionDeadline ≤ core.ticks + 1
    · simp [hdue, StepResult.toCandidate]
    · simp [hdue, StepResult.none, StepResult.stay]

/-- A candidate starts another election on `TimeoutNow` or when this one times out. -/
theorem step_asks (c : Candidate) (core : Core) (event : Event) :
    ((c.step core event).result.transition = .toCandidate →
      (∃ msg, event = .message msg ∧ msg.payload = .timeoutNow) ∨
      event = .tick ∧ c.timesOut core = true) ∧
    (c.step core event).result.transition ≠ .toPreCandidate := by
  cases event with
  | tick =>
    rw [step, handleTick_asks]
    split_ifs with hout
    · exact ⟨fun _ => Or.inr ⟨rfl, hout⟩, nofun⟩
    · exact ⟨nofun, nofun⟩
  | diskWriteComplete index => exact ⟨nofun, nofun⟩
  | message msg =>
    obtain ⟨hcand, hpre⟩ := c.handleMessage_asks core msg
    exact ⟨fun h => Or.inl ⟨msg, rfl, hcand h⟩, hpre⟩

/-- A candidate that stays one has kept its term and its vote. -/
theorem step_stay (c : Candidate) (core : Core) (event : Event) :
    (c.step core event).result.transition = .stay →
      (c.step core event).core.persistent = core.persistent := by
  cases event with
  | tick =>
    intro _
    unfold step handleTick
    dsimp only
    split_ifs <;> rfl
  | diskWriteComplete index => exact fun _ => rfl
  | message msg =>
    show (c.handleMessage core msg).result.transition = .stay →
      (c.handleMessage core msg).core.persistent = core.persistent
    unfold handleMessage
    split
    · exact fun _ => rfl
    split
    · exact fun _ => rfl
    split
    · exact fun h => by cases h
    split
    · exact fun _ => rfl
    split
    · unfold handleVoteResponse
      split <;> exact fun _ => rfl
    all_goals exact fun _ => rfl

end Candidate

namespace Leader

/-- What a leader's step can ask for. -/
def Remains (s : Stepped Leader) : Prop :=
  s.result.transition = .stay ∨ ∃ leader, s.result.transition = .toFollower leader

theorem commitStep_remains (l : Leader) (core : Core) : Remains (l.commitStep core) := by
  unfold Remains commitStep
  dsimp only
  split_ifs
  · exact Or.inr ⟨none, rfl⟩
  · exact Or.inl rfl

theorem handleMessage_remains (l : Leader) (core : Core) (msg : Message) :
    Remains (l.handleMessage core msg) := by
  unfold handleMessage
  split
  · exact Or.inl rfl
  by_cases hlt : core.term < msg.term
  · rw [if_pos hlt]
    exact Or.inr ⟨_, rfl⟩
  rw [if_neg hlt]
  by_cases hgt : msg.term < core.term
  · rw [if_pos hgt]
    exact Or.inl rfl
  rw [if_neg hgt]
  split
  · unfold handleAppendResponse
    split_ifs
    · exact Or.inl rfl
    · exact commitStep_remains _ _
    · exact commitStep_remains _ _
    · exact Or.inl rfl
    · exact Or.inl rfl
  · unfold handleInstallSnapshotResponse
    split_ifs
    · exact Or.inl rfl
    · exact Or.inl rfl
    · exact commitStep_remains _ _
  all_goals exact Or.inl rfl

/-- A leader never campaigns. -/
theorem step_remains (l : Leader) (core : Core) (event : Event) : Remains (l.step core event) := by
  cases event with
  | tick =>
    unfold step handleTick
    dsimp only
    split_ifs <;> exact Or.inl rfl
  | diskWriteComplete index =>
    show Remains (l.handleDiskWriteComplete core index)
    unfold handleDiskWriteComplete
    split_ifs
    · exact commitStep_remains _ _
    · exact Or.inl rfl
  | message msg => exact l.handleMessage_remains core msg

end Leader

/-- The node after a role's step is the one its transition leads to. -/
theorem RaftNode.settle_node (n : RaftNode) (result : StepResult) :
    (n.settle result).1 = (n.applyTransition result.transition).1 := by
  unfold settle
  cases result.transition with
  | stay | toFollower | toFollowerAfterContact | toPreCandidate | toCandidate | toLeader => rfl

theorem RaftNode.settle_of_stay {n : RaftNode} {result : StepResult}
    (h : result.transition = .stay) : n.settle result = (n, result.effects) := by
  rw [settle, h]

end BasisDB.Raft
