import BasisDB.RaftDelivery
import BasisDB.RaftMembershipRuns
import BasisDB.RaftPrevote

/-! An election with delivery in order: what a campaign opens with, who answers its vote
requests, and when the candidate is elected. -/
namespace BasisDB.Raft

namespace Configuration

theorem majority_mono {set : OrdSet NodeId} {p q : NodeId → Bool}
    (h : ∀ v ∈ set, p v = true → q v = true) (hp : majority set p = true) :
    majority set q = true := by
  have hlt : set.len / 2 < (set.toList.filter p).length := of_decide_eq_true hp
  have hle : set.toList.countP p ≤ set.toList.countP q := List.countP_mono_left h
  rw [List.countP_eq_length_filter, List.countP_eq_length_filter] at hle
  apply decide_eq_true
  omega

theorem hasQuorum_mono {c : Configuration} {p q : NodeId → Bool}
    (h : ∀ v, c.isVoter v = true → p v = true → q v = true) (hp : c.hasQuorum p = true) :
    c.hasQuorum q = true := by
  cases c with
  | simple voters learners =>
    apply majority_mono _ hp
    intro v hv
    exact h v ((OrdSet.contains_iff _ _).mpr hv)
  | joint old new learners =>
    obtain ⟨hold, hnew⟩ := Bool.and_eq_true_iff.mp hp
    apply Bool.and_eq_true_iff.mpr
    refine ⟨majority_mono ?_ hold, majority_mono ?_ hnew⟩
    · intro v hv
      apply h v
      simp [isVoter, hv]
    · intro v hv
      apply h v
      simp [isVoter, hv]

/-- A quorum depends on what voters do only. -/
theorem hasQuorum_congr {c : Configuration} {p q : NodeId → Bool}
    (h : ∀ v, c.isVoter v = true → (p v = true ↔ q v = true)) :
    c.hasQuorum p = true ↔ c.hasQuorum q = true :=
  ⟨hasQuorum_mono (fun v hv => (h v hv).mp), hasQuorum_mono (fun v hv => (h v hv).mpr)⟩

theorem mem_voterPeers (c : Configuration) (me v : NodeId) :
    v ∈ c.voterPeers me ↔ c.isVoter v = true ∧ v ≠ me := by
  simp [voterPeers, mem_voters]

end Configuration

/-- An answer to a vote request of a node, at its term or an older one. -/
structure Message.Ballot (m : Message) (candidate : NodeId) (term : ℕ) : Prop where
  receiver : m.receiver = candidate
  term : m.term ≤ term
  payload : ∃ resp, m.payload = .voteResponse resp

/-- A vote granted at a term. -/
def Message.grants (m : Message) (term : ℕ) : Bool :=
  decide (m.term = term) && decide (m.payload = .voteResponse { granted := true })

/-- The nodes whose votes are among some answers. -/
def granters (answers : List Message) (term : ℕ) : List NodeId :=
  (answers.filter (fun m => m.grants term)).map Message.sender

theorem granters_append (answers answers' : List Message) (term : ℕ) :
    granters (answers ++ answers') term = granters answers term ++ granters answers' term := by
  simp [granters]

/-- The request that a candidate sends to a peer. -/
def Core.voteRequest (core : Core) (peer : NodeId) : Message :=
  core.message peer (.voteRequest
    { lastLogIndex := core.log.lastIndex, lastLogTerm := core.log.lastTerm })

namespace RaftNode
variable {n : RaftNode} {candidate : Core}

/-- A node that votes for a log when it is asked at a new term: a follower without recent
contact to a leader and without a better log. -/
def wouldGrant (n : RaftNode) (log : Log) : Bool :=
  match n.role with
  | .follower f =>
    !f.recentlyHeardFromLeader n.core && n.core.logIsUpToDate log.lastTerm log.lastIndex
  | _ => false

/-- A follower or leader of an earlier term, which has the candidate among its voters. -/
structure Asked (n : RaftNode) (candidate : Core) (id : NodeId) : Prop where
  id : n.id = id
  role : (∃ f, n.role = .follower f) ∨ ∃ l, n.role = .leader l
  term : n.term < candidate.term
  voter : n.core.effectiveConfig.isVoter candidate.id = true

end RaftNode

namespace Follower
variable {core candidate : Core}

theorem handleVoteRequest_answer (f : Follower) (core : Core) (sender : NodeId)
    (req : VoteRequest) :
    (f.handleVoteRequest core sender req).result.effects.messages =
      [core.message sender (.voteResponse
        { granted := core.effectiveConfig.isVoter sender && core.canVoteFor sender &&
            core.logIsUpToDate req.lastLogTerm req.lastLogIndex })] ∧
    (f.handleVoteRequest core sender req).result.transition = .stay := by
  unfold handleVoteRequest
  dsimp only
  split_ifs with hgranted
  · rw [hgranted]
    exact ⟨rfl, rfl⟩
  · rw [Bool.not_eq_true] at hgranted
    rw [hgranted]
    exact ⟨rfl, rfl⟩

/-- A new term frees the vote and leaves the log. -/
theorem observeTerm_newer (f : Follower) {msg : Message} (hterm : core.term < msg.term) :
    (f.observeTerm core msg).2.config = core.config ∧
    (f.observeTerm core msg).2.persistent =
      { core.persistent with term := msg.term, votedFor := none } := by
  obtain ⟨hpers, hconf, _⟩ := observeTerm_core f core msg
  rw [hpers, hconf, Core.maybeUpdateTerm_newer hterm]
  exact ⟨rfl, rfl⟩

theorem handleMessage_voteRequest (f : Follower) {msg : Message} {req : VoteRequest}
    (hp : msg.payload = .voteRequest req) (hcontact : f.recentlyHeardFromLeader core = false)
    (hterm : core.term < msg.term) :
    (f.handleMessage core msg).result.effects.messages =
      ((f.observeTerm core msg).1.handleVoteRequest (f.observeTerm core msg).2 msg.sender
        req).result.effects.messages ∧
    (f.handleMessage core msg).result.transition =
      ((f.observeTerm core msg).1.handleVoteRequest (f.observeTerm core msg).2 msg.sender
        req).result.transition := by
  simp only [handleMessage, hp, hcontact, Bool.and_false, Bool.false_eq_true, if_false, hterm,
    if_true, handleCurrent]
  exact ⟨rfl, trivial⟩

/-- The answer of a follower: a refusal at its own term after recent contact, and otherwise a
vote or a refusal at the new term. -/
theorem step_voteRequest (f : Follower) (hterm : core.term < candidate.term)
    (hvoter : core.effectiveConfig.isVoter candidate.id = true) :
    (f.step core (.message (candidate.voteRequest core.id))).result.effects.messages =
      [{ sender := core.id
         receiver := candidate.id
         term := if f.recentlyHeardFromLeader core then core.term else candidate.term
         payload := .voteResponse
          { granted := !f.recentlyHeardFromLeader core &&
              core.logIsUpToDate candidate.log.lastTerm candidate.log.lastIndex } }] ∧
    (f.step core (.message (candidate.voteRequest core.id))).result.transition = .stay := by
  cases hcontact : f.recentlyHeardFromLeader core with
  | true =>
    simp only [step, handleMessage, hcontact]
    exact ⟨rfl, rfl⟩
  | false =>
    have hnewer : core.term < (candidate.voteRequest core.id).term := hterm
    obtain ⟨hmessages, htransition⟩ := f.handleMessage_voteRequest rfl hcontact hnewer
    obtain ⟨hconf, hpers⟩ := f.observeTerm_newer hnewer
    rw [step, hmessages, htransition]
    generalize f.observeTerm core (candidate.voteRequest core.id) = observed at hconf hpers ⊢
    have hmembers : observed.2.effectiveConfig = core.effectiveConfig := by
      simp only [Core.effectiveConfig, Core.configAt, hpers]
    obtain ⟨hanswer, hstay⟩ := handleVoteRequest_answer observed.1 observed.2 candidate.id
      { lastLogIndex := candidate.log.lastIndex, lastLogTerm := candidate.log.lastTerm }
    refine ⟨hanswer.trans ?_, hstay⟩
    rw [hmembers, hvoter]
    simp only [Core.message, Core.id, Core.term, Core.canVoteFor, Core.logIsUpToDate, hconf, hpers]
    rfl

end Follower

/-- A leader that sees a vote request of a later term steps down and answers nothing. -/
theorem Leader.step_voteRequest (l : Leader) {core : Core} {msg : Message} {req : VoteRequest}
    (hp : msg.payload = .voteRequest req) (hterm : core.term < msg.term) :
    l.step core (.message msg) =
      { role := l
        core := (core.maybeUpdateTerm msg.term).1
        result := StepResult.toFollower none Effects.none.withPersist } := by
  simp only [step, handleMessage, hp, if_pos hterm]
  rfl

namespace Candidate

theorem step_not_grants (c : Candidate) {core : Core} {m : Message}
    (hm : m.Ballot core.id core.term) (h : m.grants core.term = false) :
    c.step core (.message m) = { role := c, core := core, result := StepResult.none } := by
  obtain ⟨resp, hp⟩ := hm.payload
  have hnewer : ¬core.term < m.term := Nat.not_lt.mpr hm.term
  simp only [step, handleMessage, hp, Payload.isVoteSolicitation, Bool.false_and, if_neg hnewer,
    Bool.false_eq_true, if_false]
  by_cases hstale : m.term < core.term
  · -- a refusal after recent contact comes at the old term and is dropped
    simp only [if_pos hstale, rejectStale, Core.staleReply, hp]
    rfl
  · have hgranted : resp.granted = false := by
      have hterm : m.term = core.term := by omega
      cases resp with
      | mk granted =>
        cases granted with
        | false => rfl
        | true => simp [Message.grants, hp, hterm] at h
    simp only [if_neg hstale, handleVoteResponse, hgranted, if_true]

theorem step_grants (c : Candidate) {core : Core} {m : Message} (h : m.grants core.term = true) :
    c.step core (.message m) =
      { role := { c with votes := c.votes.insert m.sender }
        core := core
        result := if Candidate.hasQuorum { c with votes := c.votes.insert m.sender } core then
          StepResult.toLeader Effects.none else StepResult.none } := by
  obtain ⟨hterm, hp⟩ := Bool.and_eq_true_iff.mp h
  have hterm := of_decide_eq_true hterm
  have hp := of_decide_eq_true hp
  simp [step, handleMessage, hp, Payload.isVoteSolicitation, hterm, handleVoteResponse]

variable {core : Core}

/-- A campaign keeps the log and starts at the next term. -/
theorem new_core (core : Core) :
    (Candidate.new core).2.1.config = core.config ∧
    (Candidate.new core).2.1.persistent = core.startElection.persistent := by
  unfold Candidate.new
  dsimp only
  split_ifs <;> exact ⟨rfl, rfl⟩

theorem new_effectiveConfig (core : Core) :
    (Candidate.new core).2.1.effectiveConfig = core.effectiveConfig := by
  simp only [Core.effectiveConfig, Core.configAt, (new_core core).2]
  rfl

theorem new_votes (core : Core) :
    (Candidate.new core).1.votes = (Candidate.new core).2.1.ownVote := by
  unfold Candidate.new
  dsimp only
  split_ifs <;> rfl

theorem new_messages (h : 1 < core.effectiveConfig.voterCount) :
    (Candidate.new core).2.2.messages =
      (core.effectiveConfig.voterPeers core.id).map (Candidate.new core).2.1.voteRequest := by
  have hsame : core.startElection.randomElectionTimeout.1.effectiveConfig = core.effectiveConfig :=
    rfl
  unfold Candidate.new
  dsimp only
  rw [hsame, if_neg (by omega)]
  rfl

/-- With more than one voter an election is not won by starting it. -/
theorem new_no_quorum (h : 1 < core.effectiveConfig.voterCount) :
    (Candidate.new core).1.hasQuorum (Candidate.new core).2.1 = false := by
  rw [hasQuorum, new_votes]
  apply Core.ownVote_no_quorum
  rw [new_effectiveConfig]
  exact h

end Candidate

namespace RaftNode
variable {n : RaftNode} {candidate : Core}

/-- A follower answers once, and the answer is a vote when the node would grant one; an old
leader steps down without an answer. -/
theorem step_voteRequest {id : NodeId} (h : n.Asked candidate id) :
    (∀ m ∈ (n.step (candidate.voteRequest id)).2.messages,
      m.Ballot candidate.id candidate.term) ∧
    ∀ v, v ∈ granters (n.step (candidate.voteRequest id)).2.messages candidate.term ↔
      v = id ∧ n.wouldGrant candidate.log = true := by
  obtain ⟨hid, hrole, hterm, hvoter⟩ := h
  rw [← hid]
  rcases hrole with ⟨f, hr⟩ | ⟨l, hr⟩
  · obtain ⟨hmessages, hstay⟩ := f.step_voteRequest hterm hvoter
    have hstep : (n.step (candidate.voteRequest n.id)).2.messages =
        (f.step n.core (.message (candidate.voteRequest n.core.id))).result.effects.messages := by
      rw [step, stepEvent, hr]
      exact congrArg (fun r : RaftNode × Effects => r.2.messages) (settle_of_stay hstay)
    have hgrant : n.wouldGrant candidate.log = (!f.recentlyHeardFromLeader n.core &&
        n.core.logIsUpToDate candidate.log.lastTerm candidate.log.lastIndex) := by
      rw [wouldGrant, hr]
    rw [hstep, hmessages, hgrant]
    constructor
    · intro m hm
      rw [List.mem_singleton.mp hm]
      refine ⟨rfl, ?_, _, rfl⟩
      dsimp only
      split_ifs
      · exact hterm.le
      · exact le_rfl
    · intro v
      generalize f.recentlyHeardFromLeader n.core = heard
      generalize n.core.logIsUpToDate candidate.log.lastTerm candidate.log.lastIndex = upToDate
      cases heard with
      | true => simp [granters, Message.grants]
      | false =>
        cases upToDate with
        | true => simp [granters, Message.grants, RaftNode.id]
        | false => simp [granters, Message.grants]
  · have hnewer : n.core.term < (candidate.voteRequest n.id).term := hterm
    have hstep : (n.step (candidate.voteRequest n.id)).2.messages = [] := by
      rw [step, stepEvent, hr]
      simp only [l.step_voteRequest rfl hnewer]
      rfl
    have hgrant : n.wouldGrant candidate.log = false := by rw [wouldGrant, hr]
    rw [hstep, hgrant]
    constructor
    · intro m hm
      exact absurd hm List.not_mem_nil
    · intro v
      simp [granters]

section Ballots
variable {core : Core} {c : Candidate} {m : Message}

theorem step_not_grants (hm : m.Ballot core.id core.term) (h : m.grants core.term = false) :
    RaftNode.step { core := core, role := .candidate c } m =
      ({ core := core, role := .candidate c }, Effects.none) := by
  show settle { core := (c.step core (.message m)).core, role := .candidate _ } _ = _
  rw [c.step_not_grants hm h]
  rfl

theorem step_grants (h : m.grants core.term = true)
    (hq : Candidate.hasQuorum { c with votes := c.votes.insert m.sender } core = false) :
    RaftNode.step { core := core, role := .candidate c } m =
      ({ core := core, role := .candidate { c with votes := c.votes.insert m.sender } },
        Effects.none) := by
  show settle { core := (c.step core (.message m)).core, role := .candidate _ } _ = _
  rw [c.step_grants h, hq]
  rfl

theorem step_wins (h : m.grants core.term = true)
    (hq : Candidate.hasQuorum { c with votes := c.votes.insert m.sender } core = true) :
    (RaftNode.step { core := core, role := .candidate c } m).1.isLeader = true ∧
    (RaftNode.step { core := core, role := .candidate c } m).1.term = core.term := by
  have hstep : RaftNode.step { core := core, role := .candidate c } m =
      settle
        { core := (c.step core (.message m)).core
          role := .candidate (c.step core (.message m)).role }
        (c.step core (.message m)).result := rfl
  rw [hstep, c.step_grants h, hq]
  exact ⟨rfl, rfl⟩

end Ballots
end RaftNode

namespace Cluster
variable {s s₀ : Cluster} {core : Core} {c : Candidate} {k : ℕ}

/-- A node leads at a later term. -/
def LeadsAfter (target : NodeId) (term : ℕ) (s : Cluster) : Prop :=
  (s.nodes target).isLeader = true ∧ term < (s.nodes target).term

theorem deliverMessage_self {msg : Message} :
    (s.deliverMessage msg).nodes msg.receiver = ((s.nodes msg.receiver).step msg).1 := by
  simp [deliverMessage, handleEffects]

theorem deliverMessage_ne {msg : Message} {v : NodeId} (h : v ≠ msg.receiver) :
    (s.deliverMessage msg).nodes v = s.nodes v := by
  simp [deliverMessage, handleEffects, h]

theorem not_leadsAfter {term : ℕ} (h : s.nodes core.id = { core := core, role := .candidate c }) :
    ¬LeadsAfter core.id term s := by
  rintro ⟨hl, _⟩
  rw [h] at hl
  cases hl

/-- With only answers pending, a candidate is elected if its votes and those among the answers
are a quorum. -/
theorem reaches_ballots {term : ℕ} (hterm : term < core.term) (answers : List Message) (s : Cluster)
    (c : Candidate) (k : ℕ) (hnode : s.nodes core.id = { core := core, role := .candidate c })
    (hpending : s.pending k = answers) (hanswers : ∀ m ∈ answers, m.Ballot core.id core.term)
    (hq : c.hasQuorum core = false) :
    Reaches (LeadsAfter core.id term) s k ↔
      core.effectiveConfig.hasQuorum
        (fun v => c.votes.contains v || (granters answers core.term).contains v) = true := by
  induction answers generalizing s c k with
  | nil =>
    have hsame : (fun v => c.votes.contains v || (granters [] core.term).contains v) =
        fun v => c.votes.contains v := by
      funext v
      simp [granters]
    rw [reaches_nil_iff hpending, hsame]
    show _ ↔ c.hasQuorum core = true
    rw [hq]
    simp [not_leadsAfter hnode]
  | cons m answers ih =>
    -- deliver the first answer: the candidate sends nothing unless it wins with it
    have hm := hanswers m List.mem_cons_self
    have hrest : ∀ m' ∈ answers, m'.Ballot core.id core.term :=
      fun m' hm' => hanswers m' (List.mem_cons_of_mem m hm')
    have hsent := pending_deliverMessage hpending
    have hself : (s.deliverMessage m).nodes core.id =
        (RaftNode.step { core := core, role := .candidate c } m).1 := by
      rw [← hnode, ← hm.receiver, deliverMessage_self]
    rw [hm.receiver, hnode] at hsent
    rw [reaches_cons_iff hpending (not_leadsAfter hnode)]
    cases hgrants : m.grants core.term with
    | false =>
      rw [RaftNode.step_not_grants hm hgrants] at hself hsent
      have hsame : granters (m :: answers) core.term = granters answers core.term := by
        simp [granters, hgrants]
      rw [hsame]
      exact ih _ c _ hself (hsent.trans (List.append_nil answers)) hrest hq
    | true =>
      have hmore : granters (m :: answers) core.term = m.sender :: granters answers core.term := by
        simp [granters, hgrants]
      cases hq' : Candidate.hasQuorum { c with votes := c.votes.insert m.sender } core with
      | true =>
        -- elected at once, and the votes still pending can only add to the quorum
        obtain ⟨hl, ht⟩ := RaftNode.step_wins hgrants hq'
        rw [← hself] at hl ht
        apply iff_of_true (reaches_of_now ⟨hl, ht ▸ hterm⟩)
        apply Configuration.hasQuorum_mono _ hq'
        intro v _ hv
        rw [hmore]
        simp only [OrdSet.contains_iff, OrdSet.mem_insert, Bool.or_eq_true, List.contains_iff_mem,
          List.mem_cons] at hv ⊢
        tauto
      | false =>
        rw [RaftNode.step_grants hgrants hq'] at hself hsent
        rw [ih _ _ _ hself (hsent.trans (List.append_nil answers)) hrest hq', hmore]
        apply Configuration.hasQuorum_congr
        intro v _
        simp only [OrdSet.contains_iff, OrdSet.mem_insert, Bool.or_eq_true, List.contains_iff_mem,
          List.mem_cons]
        tauto

/-- With the requests to some peers pending before the answers, the votes that these peers
would grant count too. -/
theorem reaches_requests {term : ℕ} (hterm : term < core.term) (hq : c.hasQuorum core = false)
    (peers : List NodeId) (answers : List Message) (s : Cluster) (k : ℕ)
    (hnode : s.nodes core.id = { core := core, role := .candidate c })
    (hpending : s.pending k = peers.map core.voteRequest ++ answers)
    (hanswers : ∀ m ∈ answers, m.Ballot core.id core.term) (hnodup : peers.Nodup)
    (hpeers : ∀ v ∈ peers, v ≠ core.id ∧ s.nodes v = s₀.nodes v ∧ (s₀.nodes v).Asked core v) :
    Reaches (LeadsAfter core.id term) s k ↔
      core.effectiveConfig.hasQuorum (fun v => c.votes.contains v ||
        (granters answers core.term).contains v ||
        (peers.contains v && (s₀.nodes v).wouldGrant core.log)) = true := by
  induction peers generalizing s k answers with
  | nil =>
    rw [reaches_ballots hterm answers s c k hnode hpending hanswers hq]
    apply Configuration.hasQuorum_congr
    intro v _
    simp
  | cons peer peers ih =>
    obtain ⟨hne, hsame, hasked⟩ := hpeers peer List.mem_cons_self
    obtain ⟨hpeer, hnodup'⟩ := List.nodup_cons.mp hnodup
    rw [List.map_cons, List.cons_append] at hpending
    have hsent := pending_deliverMessage hpending
    have hreceiver : (core.voteRequest peer).receiver = peer := rfl
    -- the peer is still as it was, so its answer is the one that was expected of it
    obtain ⟨hballots, hgranters⟩ := RaftNode.step_voteRequest hasked
    rw [reaches_cons_iff hpending (not_leadsAfter hnode)]
    rw [hreceiver, hsame, List.append_assoc] at hsent
    rw [ih _ _ _ ?_ hsent ?_ hnodup' ?_]
    · apply Configuration.hasQuorum_congr
      intro v _
      simp only [granters_append, Bool.or_eq_true, Bool.and_eq_true, List.contains_iff_mem,
        List.mem_append, hgranters, List.mem_cons]
      by_cases hv : v = peer
      · rw [hv]
        tauto
      · tauto
    · rw [deliverMessage_ne hne.symm, hnode]
    · intro m hm
      rcases List.mem_append.mp hm with hm | hm
      · exact hanswers m hm
      · exact hballots m hm
    · intro v hv
      obtain ⟨hne', hsame', hasked'⟩ := hpeers v (List.mem_cons_of_mem peer hv)
      have hother : v ≠ peer := fun h => hpeer (h ▸ hv)
      exact ⟨hne', (deliverMessage_ne hother).trans hsame', hasked'⟩

end Cluster

end BasisDB.Raft
