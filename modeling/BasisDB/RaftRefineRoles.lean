import BasisDB.RaftRefine

/-! Refinement for the follower, pre-candidate and candidate roles. -/
namespace BasisDB.Raft

/-- A role's step, before its transition is carried out: small steps to a role
that is the step's own one when it stays, and a winning candidate when it leads. -/
def Settles (g : Guards) (net : Set Message) (core : Core) (r : RoleView) (role : RoleView)
    (core' : Core) (result : StepResult) : Prop :=
  ∃ r', Carries g net core r core' r' result.effects ∧ (result.transition = .stay → r' = role) ∧
    (result.transition = .toLeader → ∃ votes, r' = .candidate votes ∧
      core'.effectiveConfig.hasQuorum (fun p => votes.contains p) = true)

/-- What is known of a delivered message: it was sent to this node, unless it is a
`TimeoutNow`, and an append request it accepts meets a log the guards allow. -/
structure Delivery (g : Guards) (net : Set Message) (core : Core) (msg : Message) : Prop where
  sent : msg.payload ≠ .timeoutNow → msg ∈ net
  formed : msg.Formed
  receiver : msg.receiver = core.id
  plain : core.log.Plain

section
variable {g : Guards} {net : Set Message} {core core' : Core} {r r' role : RoleView} {eff : Effects}

theorem Settles.stay (h : Carries g net core r core' r' eff) :
    Settles g net core r r' core' (StepResult.stay eff) :=
  ⟨r', h, fun _ => rfl, fun ht => by cases ht⟩

theorem Settles.leave {result : StepResult} (h : Carries g net core r core' r' result.effects)
    (hs : result.transition ≠ .stay) (hl : result.transition ≠ .toLeader) :
    Settles g net core r role core' result :=
  ⟨r', h, fun ht => absurd ht hs, fun ht => absurd ht hl⟩

theorem Core.denyReply_carries (g : Guards) (net : Set Message) (core : Core) (r : RoleView)
    (msg : Message) : Carries g net core r core r (core.denyReply msg) := by
  unfold Core.denyReply
  split
  · exact Carries.emit ⟨rfl, trivial⟩
  · exact Carries.emit ⟨rfl, rfl⟩
  · exact Carries.refl g net core r

theorem Core.staleReply_carries (g : Guards) (net : Set Message) (core : Core) (r : RoleView)
    (msg : Message) : Carries g net core r core r (core.staleReply msg) := by
  unfold Core.staleReply
  split
  · exact Carries.emit ⟨rfl, rfl⟩
  · exact Carries.emit ⟨rfl, rfl⟩
  · exact Carries.refl g net core r

theorem Core.prevoteReply_carries (g : Guards) (net : Set Message) (core : Core) (r : RoleView)
    (sender : NodeId) (msgTerm : ℕ) (req : PreVoteRequest) :
    Carries g net core r core r (core.prevoteReply sender msgTerm req) :=
  Carries.emit ⟨rfl, trivial⟩

/-- A refused vote, as every role but a follower answers a vote request. -/
theorem Core.refuse_carries (g : Guards) (net : Set Message) (core : Core) (r : RoleView)
    (sender : NodeId) : Carries g net core r core r
      (Effects.none.withMessage (core.message sender (.voteResponse { granted := false }))) :=
  Carries.emit ⟨rfl, rfl⟩

theorem Core.maybeUpdateTerm_carries (r : RoleView) {t : ℕ} (ht : core.term < t) :
    Carries g net core r (core.maybeUpdateTerm t).1 .follower Effects.none.withPersist := by
  rw [Core.maybeUpdateTerm_newer ht]
  refine Carries.single ?_ (fun h => absurd h (by simp [Effects.withPersist])) rfl
  rw [Effects.sent_withPersist, Effects.sent_none]
  exact Micro.observe t ht

end

namespace Follower
variable {g : Guards} {net : Set Message} {core : Core}

theorem handleTick_settles (g : Guards) (net : Set Message) (f : Follower) (core : Core) :
    Settles g net core .follower .follower (f.handleTick core).core (f.handleTick core).result := by
  have hsame : Carries g net core .follower (f.handleTick core).core .follower Effects.none :=
    Carries.of_same rfl rfl rfl
  simp only [handleTick] at hsame ⊢
  split_ifs
  · exact Settles.leave hsame (by simp [StepResult.toPreCandidate])
      (by simp [StepResult.toPreCandidate])
  · exact Settles.leave hsame (by simp [StepResult.toCandidate]) (by simp [StepResult.toCandidate])
  · exact Settles.stay hsame

theorem handleVoteRequest_settles (f : Follower) {msg : Message} {req : VoteRequest}
    (hm : msg ∈ net) (hp : msg.payload = .voteRequest req) (ht : msg.term = core.term) :
    Settles g net core .follower .follower (f.handleVoteRequest core msg.sender req).core
      (f.handleVoteRequest core msg.sender req).result := by
  simp only [handleVoteRequest]
  split_ifs with hg
  · refine Settles.stay (Carries.single ?_ (fun h => absurd h (by
      simp [Effects.withPersist, Effects.withMessage])) rfl)
    simp only [Bool.and_eq_true, Core.canVoteFor, Core.logIsUpToDate, Bool.or_eq_true,
      decide_eq_true_eq] at hg
    rw [Effects.sent_withMessage, Effects.sent_withPersist, Effects.sent_none]
    exact Micro.grant msg req hm hp ht rfl hg.1.2 hg.2
  · exact Settles.stay (Core.refuse_carries g net core .follower msg.sender)

theorem handleAppendRequest_settles (f : Follower) {msg : Message} {req : AppendRequest}
    (hm : msg ∈ net) (hp : msg.payload = .appendRequest req) (ht : msg.term = core.term)
    (hplain : core.log.Plain) (hg : accepts core.log req = true → g.absorb msg core.log) :
    Settles g net core .follower .follower (f.handleAppendRequest core msg.sender req).core
      (f.handleAppendRequest core msg.sender req).result := by
  have hlog : (f.contact core msg.sender).2.log = core.log := rfl
  by_cases hacc : accepts core.log req = true
  · have heq : f.handleAppendRequest core msg.sender req =
        { role := (f.contact core msg.sender).1
          core := { (f.contact core msg.sender).2.setLog (appendEntries core.log req.entries).1 with
            commitIndex :=
              if core.commitIndex < req.leaderCommit then
                min req.leaderCommit (appendEntries core.log req.entries).1.lastIndex
              else core.commitIndex }
          result := StepResult.stay
            ((if (appendEntries core.log req.entries).2 then Effects.none.withPersist
              else Effects.none).withMessage
            { sender := core.id, receiver := msg.sender, term := core.term
              payload := .appendResponse
                { success := true
                  lastLogIndex := (appendEntries core.log req.entries).1.lastIndex } }) } := by
      have hci (log : Log) : ((f.contact core msg.sender).2.setLog log).commitIndex =
          core.commitIndex := rfl
      simp only [handleAppendRequest, hlog, hacc, hci, Bool.not_true, Bool.false_eq_true, if_false]
      by_cases hc : core.commitIndex < req.leaderCommit
      · simp only [if_pos hc]
        rfl
      · simp only [if_neg hc]
        rfl
    rw [heq]
    refine Settles.stay (Carries.single ?_ ?_ rfl)
    · have hsent : ((if (appendEntries core.log req.entries).2 then Effects.none.withPersist
          else Effects.none).sent net) = net := by split_ifs <;> simp
      rw [Effects.sent_withMessage, hsent]
      exact Micro.absorb (v := core.view .follower) msg req hm hp ht rfl hacc (hg hacc) _ rfl _ rfl
    · intro hpers
      have hflag : (appendEntries core.log req.entries).2 = false := by
        by_contra hne
        rw [if_pos (Bool.eq_true_of_not_eq_false hne)] at hpers
        cases hpers
      have hsame := appendEntries_unflagged hplain req.entries hflag
      have : (appendEntries core.log req.entries).1 = core.log := hsame
      rw [this]
      rfl
  · have heq : f.handleAppendRequest core msg.sender req =
        { role := (f.contact core msg.sender).1
          core := (f.contact core msg.sender).2
          result := StepResult.stay (Effects.none.withMessage
            (core.message msg.sender
              (.appendResponse { success := false, lastLogIndex := core.log.lastIndex }))) } := by
      simp only [handleAppendRequest, hlog, hacc]
      rfl
    rw [heq]
    have hsame : Carries g net core .follower (f.contact core msg.sender).2 .follower
        Effects.none := Carries.of_same rfl rfl rfl
    exact Settles.stay (hsame.trans (Carries.emit ⟨rfl, rfl⟩)).none_merge

theorem readIndexResponse_carries {core : Core} {r : RoleView} {msg : Message}
    {req : ReadIndexRequest} (hm : msg ∈ net) (hp : msg.payload = .readIndexRequest req)
    (ht : msg.term ≤ core.term) : Carries g net core r core r (Effects.none.withMessage
      (core.message msg.sender (.readIndexResponse { id := req.id, readIndex := req.readIndex }))) :=
  Carries.emit ⟨rfl, rfl, msg, hm, ht, hp⟩

theorem handleCurrent_settles (f : Follower) {msg : Message} (hd : Delivery g net core msg)
    (ht : msg.term = core.term)
    (hg : ∀ req, msg.payload = .appendRequest req → accepts core.log req = true →
      g.absorb msg core.log) :
    Settles g net core .follower .follower (f.handleCurrent core msg).core
      (f.handleCurrent core msg).result := by
  unfold handleCurrent
  cases hp : msg.payload with
  | voteRequest req => exact handleVoteRequest_settles f (hd.sent (by simp [hp])) hp ht
  | appendRequest req =>
    exact handleAppendRequest_settles f (hd.sent (by simp [hp])) hp ht hd.plain (hg req hp)
  | readIndexRequest req =>
    have hsame : Carries g net core .follower (f.contact core msg.sender).2 .follower
        Effects.none := Carries.of_same rfl rfl rfl
    refine Settles.stay (hsame.trans ?_).none_merge
    rw [Effects.sent_none]
    exact readIndexResponse_carries (hd.sent (by simp [hp])) hp ht.le
  | installSnapshotRequest req =>
    have hf := hd.formed
    simp only [Message.Formed, hp] at hf
  | timeoutNow =>
    exact Settles.leave (Carries.refl g net core .follower) (by simp [StepResult.toCandidate])
      (by simp [StepResult.toCandidate])
  | preVoteRequest | preVoteResponse | voteResponse | appendResponse | installSnapshotResponse
  | readIndexResponse => exact Settles.stay (Carries.refl g net core .follower)

theorem rejectStale_carries {r : RoleView} {msg : Message} (hd : Delivery g net core msg)
    (ht : msg.term ≤ core.term) : Carries g net core r core r (rejectStale core msg) := by
  unfold rejectStale
  split
  · rename_i req hp
    exact readIndexResponse_carries (hd.sent (by simp [hp])) hp ht
  · exact Core.staleReply_carries g net core r msg

/-- A message of a newer term is handled in that term, after adopting it. -/
theorem handleNewer_settles (f : Follower) {msg : Message} (hd : Delivery g net core msg)
    (ht : core.term < msg.term)
    (hg : ∀ req, msg.payload = .appendRequest req → accepts core.log req = true →
      g.absorb msg core.log) :
    Settles g net core .follower .follower
      ((f.observeTerm core msg).1.handleCurrent (f.observeTerm core msg).2 msg).core
      { ((f.observeTerm core msg).1.handleCurrent (f.observeTerm core msg).2 msg).result with
        effects := ((f.observeTerm core msg).1.handleCurrent
          (f.observeTerm core msg).2 msg).result.effects.withPersist } := by
  have hcore : (f.observeTerm core msg).2 =
      (f.resetDeadline (core.maybeUpdateTerm msg.term).1).2 := by
    unfold observeTerm
    dsimp only
    split_ifs <;> rfl
  have hup : Carries g net core .follower (core.maybeUpdateTerm msg.term).1 .follower
      Effects.none.withPersist := Core.maybeUpdateTerm_carries .follower ht
  have hobs : Carries g net core .follower (f.observeTerm core msg).2 .follower
      Effects.none.withPersist := by
    rw [hcore]
    exact hup.relax rfl rfl rfl
  have hlog : (f.observeTerm core msg).2.log = core.log := by
    rw [hcore]
    exact (core.maybeUpdateTerm_frame msg.term).1
  have hterm : msg.term = (f.observeTerm core msg).2.term := by
    rw [hcore, Core.maybeUpdateTerm_newer ht]
    rfl
  have hd' : Delivery g net (f.observeTerm core msg).2 msg :=
    { sent := hd.sent
      formed := hd.formed
      receiver := by rw [hd.receiver, Core.id, Core.id, hobs.config]
      plain := hlog ▸ hd.plain }
  obtain ⟨r', hcur, hstay, hlead⟩ := handleCurrent_settles (f.observeTerm core msg).1 hd' hterm
    (by rw [hlog]; exact hg)
  refine ⟨r', ?_, hstay, hlead⟩
  have hnet : Effects.none.withPersist.sent net = net := by simp
  refine (hobs.trans (hnet.symm ▸ hcur)).congr ?_ ?_
  · simp [Effects.merge, Effects.withPersist, Effects.none]
  · simp [Effects.merge, Effects.withPersist]

theorem handleMessage_settles (f : Follower) {msg : Message} (hd : Delivery g net core msg)
    (hg : ∀ req, msg.payload = .appendRequest req → core.term ≤ msg.term →
      accepts core.log req = true → g.absorb msg core.log) :
    Settles g net core .follower .follower (f.handleMessage core msg).core
      (f.handleMessage core msg).result := by
  unfold handleMessage
  by_cases hsol : (msg.payload.isVoteSolicitation && f.recentlyHeardFromLeader core) = true
  · rw [if_pos hsol]
    exact Settles.stay (Core.denyReply_carries g net core .follower msg)
  rw [if_neg hsol]
  split
  · exact Settles.stay (Core.prevoteReply_carries g net core .follower _ _ _)
  by_cases hlt : core.term < msg.term
  · rw [if_pos hlt]
    exact handleNewer_settles f hd hlt (fun req hp hacc => hg req hp hlt.le hacc)
  rw [if_neg hlt]
  by_cases hgt : msg.term < core.term
  · rw [if_pos hgt]
    exact Settles.stay (rejectStale_carries hd hgt.le)
  · rw [if_neg hgt]
    have ht : msg.term = core.term := by omega
    exact handleCurrent_settles f hd ht (fun req hp hacc => hg req hp ht.ge hacc)

end Follower

namespace PreCandidate
variable {g : Guards} {net : Set Message} {core : Core}

theorem handleTick_settles (g : Guards) (net : Set Message) (p : PreCandidate) (core : Core) :
    Settles g net core .follower .follower (p.handleTick core).core (p.handleTick core).result := by
  simp only [handleTick]
  split_ifs
  · exact Settles.stay (Carries.of_same rfl rfl rfl)
  · refine Settles.leave (Carries.of_same rfl rfl rfl) ?_ ?_ <;> simp [StepResult.toPreCandidate]
  · exact Settles.stay (Carries.of_same rfl rfl rfl)

theorem handlePrevoteResponse_settles (p : PreCandidate) (sender : NodeId)
    (resp : PreVoteResponse) :
    Settles g net core .follower .follower (p.handlePrevoteResponse core sender resp).core
      (p.handlePrevoteResponse core sender resp).result := by
  simp only [handlePrevoteResponse]
  split_ifs with hlt hold
  · refine Settles.leave (Core.maybeUpdateTerm_carries .follower hlt) ?_ ?_ <;>
      simp [StepResult.toFollower]
  · exact Settles.stay (Carries.refl g net core .follower)
  · refine Settles.leave (Carries.refl g net core .follower) ?_ ?_ <;>
      simp [StepResult.toCandidate]
  · exact Settles.stay (Carries.refl g net core .follower)

theorem handleMessage_settles (p : PreCandidate) (msg : Message) :
    Settles g net core .follower .follower (p.handleMessage core msg).core
      (p.handleMessage core msg).result := by
  unfold handleMessage
  by_cases hsol : (msg.payload.isVoteSolicitation && p.recentlyHeardFromLeader core) = true
  · rw [if_pos hsol]
    exact Settles.stay (Core.denyReply_carries g net core .follower msg)
  rw [if_neg hsol]
  by_cases hlt : core.term < msg.term
  · rw [if_pos hlt]
    refine Settles.leave (Core.maybeUpdateTerm_carries .follower hlt) ?_ ?_ <;>
      simp [StepResult.toFollower]
  rw [if_neg hlt]
  split
  · exact handlePrevoteResponse_settles p _ _
  · refine Settles.leave (Carries.refl g net core .follower) ?_ ?_ <;>
      simp [handleAppendRequest, StepResult.toFollowerAfterContact]
  · exact Settles.stay (Core.prevoteReply_carries g net core .follower _ _ _)
  · exact Settles.stay (Core.refuse_carries g net core .follower _)
  · refine Settles.leave (Carries.refl g net core .follower) ?_ ?_ <;>
      simp [StepResult.toCandidate]
  · exact Settles.stay (Carries.refl g net core .follower)

end PreCandidate

namespace Candidate
variable {g : Guards} {net : Set Message} {core : Core}

theorem handleTick_settles (g : Guards) (net : Set Message) (c : Candidate) (core : Core) :
    Settles g net core (.candidate c.votes) (.candidate (c.handleTick core).role.votes)
      (c.handleTick core).core (c.handleTick core).result := by
  simp only [handleTick]
  split_ifs
  · exact Settles.stay (Carries.of_same rfl rfl rfl)
  · refine Settles.leave (Carries.of_same rfl rfl rfl) ?_ ?_ <;> simp [StepResult.toCandidate]
  · exact Settles.stay (Carries.of_same rfl rfl rfl)

theorem handleVoteResponse_settles (c : Candidate) {msg : Message} {resp : VoteResponse}
    (hm : msg ∈ net) (hp : msg.payload = .voteResponse resp) (ht : msg.term = core.term)
    (hrec : msg.receiver = core.id) :
    Settles g net core (.candidate c.votes)
      (.candidate (c.handleVoteResponse core msg.sender resp).role.votes)
      (c.handleVoteResponse core msg.sender resp).core
      (c.handleVoteResponse core msg.sender resp).result := by
  simp only [handleVoteResponse]
  split_ifs with hresp hq
  · exact Settles.stay (Carries.refl g net core _)
  all_goals
    have hgranted : msg.payload = .voteResponse { granted := true } := by
      rw [hp]
      cases resp
      simpa using hresp
    have hcount : Carries g net core (.candidate c.votes) core
        (.candidate (c.votes.insert msg.sender)) Effects.none := by
      refine Carries.single ?_ (fun _ => rfl) rfl
      rw [Effects.sent_none]
      exact Micro.countVote (v := core.view (.candidate c.votes)) msg c.votes hm hgranted ht hrec rfl
  · exact ⟨_, hcount, fun _ => rfl, fun _ => ⟨_, rfl, hq⟩⟩
  · exact Settles.stay hcount

theorem handleMessage_settles (c : Candidate) {msg : Message} (hd : Delivery g net core msg) :
    Settles g net core (.candidate c.votes) (.candidate (c.handleMessage core msg).role.votes)
      (c.handleMessage core msg).core (c.handleMessage core msg).result := by
  unfold handleMessage
  by_cases hsol : (msg.payload.isVoteSolicitation && c.recentlyHeardFromLeader core) = true
  · rw [if_pos hsol]
    exact Settles.stay (Core.denyReply_carries g net core _ msg)
  rw [if_neg hsol]
  split
  · exact Settles.stay (Core.prevoteReply_carries g net core _ _ _ _)
  by_cases hlt : core.term < msg.term
  · rw [if_pos hlt]
    refine Settles.leave (Core.maybeUpdateTerm_carries _ hlt) ?_ ?_ <;>
      simp [StepResult.toFollower]
  rw [if_neg hlt]
  by_cases hgt : msg.term < core.term
  · rw [if_pos hgt]
    exact Settles.stay (Core.staleReply_carries g net core _ msg)
  rw [if_neg hgt]
  have ht : msg.term = core.term := by omega
  split
  · rename_i resp hp
    exact handleVoteResponse_settles c (hd.sent (by simp [hp])) hp ht hd.receiver
  · refine Settles.leave (Carries.refl g net core _) ?_ ?_ <;>
      simp [handleAppendRequest, StepResult.toFollowerAfterContact]
  · exact Settles.stay (Core.refuse_carries g net core _ _)
  · refine Settles.leave (Carries.refl g net core _) ?_ ?_ <;> simp [StepResult.toCandidate]
  · exact Settles.stay (Carries.refl g net core _)

end Candidate
end BasisDB.Raft
