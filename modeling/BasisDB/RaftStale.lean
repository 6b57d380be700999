import BasisDB.RaftNode

/-! Messages of an older term: which of them a node ignores, up to one refusal. -/
namespace BasisDB.Raft

/-- The two payloads whose message term is not the term they are about. -/
def Payload.isPreVote : Payload → Bool
  | preVoteRequest _ => true
  | preVoteResponse _ => true
  | _ => false

/-- The two payloads that a pre-candidate obeys at any term. -/
def Payload.steersPreCandidate : Payload → Bool
  | appendRequest _ => true
  | timeoutNow => true
  | _ => false

def RoleState.isPreCandidate : RoleState → Bool
  | preCandidate _ => true
  | _ => false

/-- Nothing but at most one message, back to the sender. -/
structure Effects.AtMostOneReply (eff : Effects) (sender : NodeId) : Prop where
  one : eff.messages.length ≤ 1
  addressed : ∀ m ∈ eff.messages, m.receiver = sender
  noSnapshots : eff.sendSnapshots = []

/-- The step of a node changes neither its persistent state nor its indices nor its role. -/
structure RaftNode.Ignores (n : RaftNode) (msg : Message) : Prop where
  persistent : (n.step msg).1.persistent = n.persistent
  commitIndex : (n.step msg).1.commitIndex = n.commitIndex
  lastApplied : (n.step msg).1.core.lastApplied = n.core.lastApplied
  role : (n.step msg).1.role = n.role
  replies : (n.step msg).2.AtMostOneReply msg.sender

/-- What a role's step looks like when it ignores a message. -/
def Stepped.Unmoved {ρ : Type} (s : Stepped ρ) (role : ρ) (core : Core) (sender : NodeId) : Prop :=
  ∃ eff : Effects, s = { role := role, core := core, result := StepResult.stay eff } ∧
    eff.AtMostOneReply sender

section Replies
variable {sender : NodeId}

theorem Effects.none_reply : Effects.none.AtMostOneReply sender :=
  ⟨Nat.zero_le 1, fun _ hm => absurd hm List.not_mem_nil, rfl⟩

theorem Effects.message_reply {msg : Message} (h : msg.receiver = sender) :
    (Effects.none.withMessage msg).AtMostOneReply sender := by
  refine ⟨le_rfl, ?_, rfl⟩
  intro m hm
  rw [List.mem_singleton.mp hm]
  exact h

theorem Core.denyReply_reply (core : Core) (msg : Message) :
    (core.denyReply msg).AtMostOneReply msg.sender := by
  unfold Core.denyReply
  cases msg.payload with
  | preVoteRequest req => exact Effects.message_reply rfl
  | voteRequest req => exact Effects.message_reply rfl
  | _ => exact Effects.none_reply

theorem Core.staleReply_reply (core : Core) (msg : Message) :
    (core.staleReply msg).AtMostOneReply msg.sender := by
  unfold Core.staleReply
  cases msg.payload with
  | voteRequest req => exact Effects.message_reply rfl
  | appendRequest req => exact Effects.message_reply rfl
  | _ => exact Effects.none_reply

theorem Follower.rejectStale_reply (core : Core) (msg : Message) :
    (Follower.rejectStale core msg).AtMostOneReply msg.sender := by
  unfold Follower.rejectStale
  cases msg.payload with
  | readIndexRequest req => exact Effects.message_reply rfl
  | _ => exact core.staleReply_reply msg

end Replies

section Roles
variable {core : Core} {msg : Message} (hstale : msg.term < core.term)
  (hpv : msg.payload.isPreVote = false)
include hstale hpv

theorem Follower.handleMessage_stale (f : Follower) :
    (f.handleMessage core msg).Unmoved f core msg.sender := by
  unfold handleMessage
  by_cases hguard : (msg.payload.isVoteSolicitation && f.recentlyHeardFromLeader core) = true
  · rw [if_pos hguard]
    exact ⟨_, rfl, core.denyReply_reply msg⟩
  · rw [if_neg hguard]
    cases hp : msg.payload with
    | preVoteRequest req => rw [hp] at hpv; cases hpv
    | _ =>
      dsimp only
      rw [if_neg hstale.not_gt, if_pos hstale]
      exact ⟨_, rfl, Follower.rejectStale_reply core msg⟩

theorem Candidate.handleMessage_stale (c : Candidate) :
    (c.handleMessage core msg).Unmoved c core msg.sender := by
  unfold handleMessage
  by_cases hguard : (msg.payload.isVoteSolicitation && c.recentlyHeardFromLeader core) = true
  · rw [if_pos hguard]
    exact ⟨_, rfl, core.denyReply_reply msg⟩
  · rw [if_neg hguard]
    cases hp : msg.payload with
    | preVoteRequest req => rw [hp] at hpv; cases hpv
    | _ =>
      dsimp only
      rw [if_neg hstale.not_gt, if_pos hstale]
      exact ⟨_, rfl, core.staleReply_reply msg⟩

theorem Leader.handleMessage_stale (l : Leader) :
    (l.handleMessage core msg).Unmoved l core msg.sender := by
  unfold handleMessage
  cases hp : msg.payload with
  | preVoteRequest req => rw [hp] at hpv; cases hpv
  | _ =>
    dsimp only
    rw [if_neg hstale.not_gt, if_pos hstale]
    exact ⟨_, rfl, core.staleReply_reply msg⟩

/-- A pre-candidate compares terms in one direction only, but most payloads have no effect
on it anyway. -/
theorem PreCandidate.handleMessage_stale (p : PreCandidate)
    (hsteer : msg.payload.steersPreCandidate = false) :
    (p.handleMessage core msg).Unmoved p core msg.sender := by
  unfold handleMessage
  by_cases hguard : (msg.payload.isVoteSolicitation && p.recentlyHeardFromLeader core) = true
  · rw [if_pos hguard]
    exact ⟨_, rfl, core.denyReply_reply msg⟩
  · rw [if_neg hguard, if_neg hstale.not_gt]
    cases hp : msg.payload with
    | preVoteRequest req => rw [hp] at hpv; cases hpv
    | preVoteResponse resp => rw [hp] at hpv; cases hpv
    | appendRequest req => rw [hp] at hsteer; cases hsteer
    | timeoutNow => rw [hp] at hsteer; cases hsteer
    | voteRequest req => exact ⟨_, rfl, Effects.message_reply rfl⟩
    | _ => exact ⟨_, rfl, Effects.none_reply⟩

end Roles

namespace RaftNode
variable {n : RaftNode} {msg : Message}

theorem ignores_of_step {eff : Effects} (h : n.step msg = (n, eff))
    (hreply : eff.AtMostOneReply msg.sender) : n.Ignores msg := by
  have hnode : (n.step msg).1 = n := by rw [h]
  have heff : (n.step msg).2 = eff := by rw [h]
  exact ⟨by rw [hnode], by rw [hnode], by rw [hnode], by rw [hnode], heff ▸ hreply⟩

/-- The node's part of an ignored message: the role that does not move is put back. -/
theorem ignores_of_unmoved {ρ : Type} {wrap : ρ → RoleState} {role : ρ} {core : Core}
    {s : Stepped ρ} (hs : s.Unmoved role core msg.sender)
    (hstep : RaftNode.step { core := core, role := wrap role } msg =
      settle { core := s.core, role := wrap s.role } s.result) :
    RaftNode.Ignores { core := core, role := wrap role } msg := by
  obtain ⟨eff, rfl, hreply⟩ := hs
  exact ignores_of_step hstep hreply

/-- The two ways a message of an older term still moves a pre-candidate: it follows the
sender of an append request, and it campaigns on `TimeoutNow`. -/
theorem not_ignores_of_steers {core : Core} {p : PreCandidate} (hstale : msg.term < core.term)
    (hsteer : msg.payload.steersPreCandidate = true) :
    ¬RaftNode.Ignores { core := core, role := .preCandidate p } msg := by
  intro hignores
  cases hp : msg.payload with
  | appendRequest req =>
    have hrole := hignores.role
    simp [step, stepEvent, PreCandidate.step, PreCandidate.handleMessage, hp,
      Payload.isVoteSolicitation, hstale.not_gt, PreCandidate.handleAppendRequest, settle,
      StepResult.toFollowerAfterContact, applyTransition] at hrole
  | timeoutNow =>
    have hterm := congrArg Persistent.term hignores.persistent
    have hstep : RaftNode.step { core := core, role := .preCandidate p } msg =
        settle { core := core, role := .preCandidate p } (StepResult.toCandidate Effects.none) := by
      simp [step, stepEvent, PreCandidate.step, PreCandidate.handleMessage, hp,
        Payload.isVoteSolicitation, hstale.not_gt]
    rw [hstep] at hterm
    have hnext : (becomeCandidate core).1.core.persistent.term = core.persistent.term + 1 := by
      unfold becomeCandidate becomeLeader Candidate.new
      dsimp only
      split_ifs <;> rfl
    change (becomeCandidate core).1.core.persistent.term = core.persistent.term at hterm
    omega
  | _ =>
    rw [hp] at hsteer
    cases hsteer

end RaftNode

/-- A node ignores a message of an older term exactly when it is not a pre-candidate that
receives an append request or `TimeoutNow`. -/
theorem stale_message_ignored_iff (n : RaftNode) (msg : Message) (hstale : msg.term < n.term)
    (hpv : msg.payload.isPreVote = false) :
    n.Ignores msg ↔ ¬(n.role.isPreCandidate = true ∧ msg.payload.steersPreCandidate = true) := by
  obtain ⟨core, role⟩ := n
  cases role with
  | follower f =>
    have hunmoved := f.handleMessage_stale hstale hpv
    exact iff_of_true (RaftNode.ignores_of_unmoved hunmoved rfl) (fun h => by cases h.1)
  | candidate c =>
    have hunmoved := c.handleMessage_stale hstale hpv
    exact iff_of_true (RaftNode.ignores_of_unmoved hunmoved rfl) (fun h => by cases h.1)
  | leader l =>
    have hunmoved := l.handleMessage_stale hstale hpv
    exact iff_of_true (RaftNode.ignores_of_unmoved hunmoved rfl) (fun h => by cases h.1)
  | preCandidate p =>
    cases hsteer : msg.payload.steersPreCandidate with
    | true =>
      apply iff_of_false (RaftNode.not_ignores_of_steers hstale hsteer)
      exact fun h => h ⟨rfl, rfl⟩
    | false =>
      have hunmoved := p.handleMessage_stale hstale hpv hsteer
      exact iff_of_true (RaftNode.ignores_of_unmoved hunmoved rfl) (fun h => by cases h.2)

/-- Node 1 of three voters, restarted at term 2. -/
def restarted : RaftNode :=
  RaftNode.restore { Config.new 1 with electionTimeout := (1, 2) }
    { term := 2, votedFor := none, log := Log.empty, bootstrapConfig := .ofVoters [0, 1, 2] }

/-- What the leader of term 1 still has in flight to it. -/
def delayed (payload : Payload) : Message :=
  { sender := 0, receiver := 1, term := 1, payload := payload }

/-- Once its first tick has made it a pre-candidate, a delayed heartbeat of term 1 turns it
into a follower of the old leader, and a delayed `TimeoutNow` into a candidate of term 3. -/
theorem stale_message_moves_preCandidate :
    restarted.tick.1.role.isPreCandidate = true ∧ restarted.tick.1.term = 2 ∧
    (restarted.tick.1.step (delayed (.appendRequest
      { prevLogIndex := 0, prevLogTerm := 0, entries := [], leaderCommit := 0 }))).1.leader =
        some 0 ∧
    (restarted.tick.1.step (delayed .timeoutNow)).1.term = 3 := by
  refine ⟨?_, ?_, ?_, ?_⟩
  all_goals decide +kernel

/-- As a follower it ignores the heartbeat. -/
theorem stale_message_ignored_restarted :
    restarted.Ignores (delayed (.appendRequest
      { prevLogIndex := 0, prevLogTerm := 0, entries := [], leaderCommit := 0 })) :=
  (stale_message_ignored_iff _ _ (by decide) rfl).mpr (by decide)

end BasisDB.Raft
