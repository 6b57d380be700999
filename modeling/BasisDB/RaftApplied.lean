import BasisDB.RaftRefineCommit
import BasisDB.RaftRuntime

/-! Only the driver moves `last_applied`: no event of a node touches it, except a snapshot that
it installs. -/
namespace BasisDB.Raft

def Payload.isInstallSnapshot : Payload → Bool
  | .installSnapshotRequest _ => true
  | _ => false

@[simp] theorem Core.maybeUpdateTerm_lastApplied (core : Core) (term : ℕ) :
    (core.maybeUpdateTerm term).1.lastApplied = core.lastApplied := by
  unfold maybeUpdateTerm
  split_ifs <;> rfl

namespace Follower
variable (f : Follower) (core : Core)

theorem observeTerm_lastApplied (msg : Message) :
    (f.observeTerm core msg).2.lastApplied = core.lastApplied := by
  have hreset : (f.resetDeadline (core.maybeUpdateTerm msg.term).1).2.lastApplied =
      (core.maybeUpdateTerm msg.term).1.lastApplied := rfl
  unfold observeTerm
  dsimp only
  split_ifs <;> simp [hreset]

theorem handleAppendRequest_lastApplied (sender : NodeId) (req : AppendRequest) :
    (f.handleAppendRequest core sender req).core.lastApplied = core.lastApplied := by
  unfold handleAppendRequest
  dsimp only
  split_ifs <;> rfl

theorem handleCurrent_lastApplied {msg : Message} (h : msg.payload.isInstallSnapshot = false) :
    (f.handleCurrent core msg).core.lastApplied = core.lastApplied := by
  unfold handleCurrent
  split
  · unfold handleVoteRequest
    dsimp only
    split_ifs <;> rfl
  · exact handleAppendRequest_lastApplied f core _ _
  · rfl
  · rename_i hp
    rw [hp] at h
    cases h
  · rfl
  · rfl

theorem step_lastApplied (event : Event)
    (h : ∀ msg, event = .message msg → msg.payload.isInstallSnapshot = false) :
    (f.step core event).core.lastApplied = core.lastApplied := by
  cases event with
  | tick => rfl
  | diskWriteComplete index => rfl
  | message msg =>
    have hcurrent (f : Follower) (core : Core) := handleCurrent_lastApplied f core (h msg rfl)
    unfold step handleMessage
    dsimp only
    split
    · rfl
    split
    · rfl
    split
    · exact (hcurrent _ _).trans (observeTerm_lastApplied f core msg)
    split
    · rfl
    · exact hcurrent _ _

end Follower

theorem PreCandidate.step_lastApplied (p : PreCandidate) (core : Core) (event : Event) :
    (p.step core event).core.lastApplied = core.lastApplied := by
  cases event with
  | tick =>
    unfold step handleTick
    dsimp only
    split_ifs <;> rfl
  | diskWriteComplete index => rfl
  | message msg =>
    unfold step handleMessage handlePrevoteResponse
    dsimp only
    split
    · rfl
    split
    · simp
    split
    · split_ifs <;> simp
    all_goals rfl

theorem Candidate.step_lastApplied (c : Candidate) (core : Core) (event : Event) :
    (c.step core event).core.lastApplied = core.lastApplied := by
  cases event with
  | tick =>
    unfold step handleTick
    dsimp only
    split_ifs <;> rfl
  | diskWriteComplete index => rfl
  | message msg =>
    unfold step handleMessage handleVoteResponse
    dsimp only
    split
    · rfl
    split
    · rfl
    split
    · simp
    split
    · rfl
    split
    · split_ifs <;> rfl
    all_goals rfl

namespace Leader
variable (l : Leader) (core : Core)

theorem maybeCommitLoop_lastApplied (fuel : ℕ) (l : Leader) (core : Core) (effects : Effects) :
    (maybeCommitLoop fuel l core effects).2.1.lastApplied = core.lastApplied := by
  induction fuel generalizing l core effects with
  | zero => rfl
  | succ fuel ih =>
    have hround := maybeCommitLoop_round fuel l core effects
    generalize maybeCommitLoop (fuel + 1) l core effects = r at hround
    cases hround with
    | unchanged => rfl
    | transition i idx e cfg target heq _ _ _ _ _ _ _ => exact ih _ _ _
    | stepDown i cfg heq _ => rfl
    | done i heq _ _ => rfl

theorem maybeCommit_lastApplied : (l.maybeCommit core).2.1.lastApplied = core.lastApplied :=
  maybeCommitLoop_lastApplied _ l core Effects.none

theorem commitStep_lastApplied : (l.commitStep core).core.lastApplied = core.lastApplied :=
  maybeCommit_lastApplied l core

theorem handleAppendResponse_lastApplied (sender : NodeId) (resp : AppendResponse) :
    (l.handleAppendResponse core sender resp).core.lastApplied = core.lastApplied := by
  unfold handleAppendResponse
  split
  · rfl
  split
  · exact commitStep_lastApplied _ core
  · rfl

theorem handleInstallSnapshotResponse_lastApplied (sender : NodeId)
    (resp : InstallSnapshotResponse) :
    (l.handleInstallSnapshotResponse core sender resp).core.lastApplied = core.lastApplied := by
  unfold handleInstallSnapshotResponse
  split
  · rfl
  split
  · rfl
  · exact commitStep_lastApplied _ core

theorem step_lastApplied (event : Event) :
    (l.step core event).core.lastApplied = core.lastApplied := by
  cases event with
  | tick =>
    unfold step handleTick
    dsimp only
    split_ifs <;> rfl
  | diskWriteComplete index =>
    unfold step handleDiskWriteComplete
    dsimp only
    split_ifs
    · exact commitStep_lastApplied _ core
    · rfl
  | message msg =>
    unfold step handleMessage
    dsimp only
    split
    · rfl
    split
    · simp
    split
    · rfl
    split
    · exact handleAppendResponse_lastApplied l core _ _
    · exact handleInstallSnapshotResponse_lastApplied l core _ _
    all_goals rfl

theorem propose_lastApplied (cmd : Command) :
    (l.propose core cmd).2.2.1.lastApplied = core.lastApplied :=
  maybeCommit_lastApplied _ (appendOwn core (.command cmd))

end Leader

namespace RaftNode
variable {n : RaftNode}

theorem becomeCandidate_lastApplied (core : Core) :
    (becomeCandidate core).1.core.lastApplied = core.lastApplied := by
  have hnew : (Candidate.new core).2.1.lastApplied = core.lastApplied := by
    unfold Candidate.new
    dsimp only
    split_ifs <;> rfl
  unfold becomeCandidate
  dsimp only
  split_ifs <;> exact hnew

theorem becomePreCandidate_lastApplied (core : Core) :
    (becomePreCandidate core).1.core.lastApplied = core.lastApplied := by
  have hnew : (PreCandidate.new core).2.1.lastApplied = core.lastApplied := by
    unfold PreCandidate.new
    dsimp only
    split_ifs <;> rfl
  unfold becomePreCandidate
  dsimp only
  split_ifs
  · exact (becomeCandidate_lastApplied _).trans hnew
  · exact hnew

theorem settle_lastApplied (n : RaftNode) (result : StepResult) :
    (n.settle result).1.core.lastApplied = n.core.lastApplied := by
  unfold settle
  cases result.transition with
  | stay => rfl
  | toFollower leader | toFollowerAfterContact leader => rfl
  | toPreCandidate => exact becomePreCandidate_lastApplied n.core
  | toCandidate => exact becomeCandidate_lastApplied n.core
  | toLeader => rfl

theorem stepEvent_lastApplied (n : RaftNode) (event : Event)
    (h : ∀ msg, event = .message msg → msg.payload.isInstallSnapshot = false) :
    (n.stepEvent event).1.core.lastApplied = n.core.lastApplied := by
  unfold stepEvent
  cases n.role with
  | follower f => exact (settle_lastApplied _ _).trans (Follower.step_lastApplied f n.core event h)
  | preCandidate p => exact (settle_lastApplied _ _).trans (p.step_lastApplied n.core event)
  | candidate c => exact (settle_lastApplied _ _).trans (c.step_lastApplied n.core event)
  | leader l => exact (settle_lastApplied _ _).trans (l.step_lastApplied n.core event)

theorem propose_lastApplied {cmd : Command} {index : ℕ} {eff : Effects} {n' : RaftNode}
    (h : n.propose cmd = .ok (index, eff, n')) : n'.core.lastApplied = n.core.lastApplied := by
  unfold propose at h
  cases hr : n.role with
  | leader l =>
    simp only [hr] at h
    split_ifs at h
    simp only [Except.ok.injEq, Prod.mk.injEq] at h
    obtain ⟨-, -, rfl⟩ := h
    have hpropose := l.propose_lastApplied n.core cmd
    unfold afterProposal
    split_ifs <;> exact hpropose
  | follower f | preCandidate p | candidate c =>
    simp only [hr] at h
    cases h

end RaftNode
end BasisDB.Raft
