import BasisDB.RaftProgress
import BasisDB.RaftSends
import BasisDB.RaftSnapshot

/-! One round of a snapshot transfer: the leader's request is delivered, and then the
follower's reply. A follower that has the snapshot already refuses it, and the leader does
nothing about a refusal. -/
namespace BasisDB.Raft

namespace Leader
variable {l : Leader} {core : Core} {p : NodeId}

/-- Sending never moves a next index back. -/
theorem nextOf_le_sendAppendTo (l : Leader) (core : Core) (receiver p : NodeId) :
    l.nextOf p ≤ (l.sendAppendTo core receiver).1.nextOf p := by
  unfold sendAppendTo
  dsimp only
  by_cases hsnap : (l.nextIndex.get receiver).getD 1 ≤ core.log.snapshotIndex
  · rw [if_pos hsnap]
  rw [if_neg hsnap]
  dsimp only
  split_ifs with hsent
  · rw [nextOf, nextOf, OrdMap.get_insert]
    by_cases hp : receiver = p
    · subst hp
      rw [if_pos rfl]
      exact hsent.2.le
    · rw [if_neg hp]
  · exact le_rfl

theorem nextOf_le_broadcastAppend (l : Leader) (core : Core) (p : NodeId) :
    l.nextOf p ≤ (l.broadcastAppend core).1.nextOf p := by
  have hfold (peers : List NodeId) (acc : Leader × Effects) :
      acc.1.nextOf p ≤ (peers.foldl (sendAppends core) acc).1.nextOf p := by
    induction peers generalizing acc with
    | nil => exact le_rfl
    | cons peer peers ih =>
      rw [List.foldl_cons]
      exact (nextOf_le_sendAppendTo acc.1 core peer p).trans (ih (sendAppends core acc peer))
  exact hfold _ (l, Effects.none)

theorem nextOf_le_reinitProgress (l : Leader) (core : Core) (p : NodeId) :
    l.nextOf p ≤ (l.reinitProgress core).nextOf p := by
  have hfold (nodes : List NodeId) (m : OrdMap NodeId ℕ) :
      (m.get p).getD 1 ≤ ((nodes.foldl
        (fun m id => m.orInsert id (core.log.lastIndex + 1)) m).get p).getD 1 := by
    induction nodes generalizing m with
    | nil => exact le_rfl
    | cons node nodes ih =>
      rw [List.foldl_cons]
      apply le_trans _ (ih _)
      rw [OrdMap.get_orInsert]
      split_ifs
      · cases m.get p with
        | none => simp
        | some next => exact le_rfl
      · exact le_rfl
  have hrecord (l : Leader) (index : ℕ) : (l.recordOwn core index).nextOf p = l.nextOf p := by
    unfold recordOwn
    split_ifs <;> rfl
  rw [reinitProgress, hrecord]
  exact hfold _ _

theorem nextOf_le_maybeCommitLoop (fuel : ℕ) (l : Leader) (core : Core) (effects : Effects)
    (p : NodeId) : l.nextOf p ≤ (maybeCommitLoop fuel l core effects).1.nextOf p := by
  induction fuel generalizing l core effects with
  | zero => exact le_rfl
  | succ fuel ih =>
    rw [maybeCommitLoop_succ]
    cases hb : commitBody (l, core, effects) with
    | inl t =>
      obtain ⟨i, _, _, _, _, _, target, _, _, _, _, _, _, hrole⟩ := commitBody_continue hb
      have hround : l.nextOf p ≤ t.1.nextOf p := by
        rw [hrole]
        exact (nextOf_le_reinitProgress l _ p).trans (nextOf_le_broadcastAppend _ _ p)
      exact hround.trans (ih t.1 t.2.1 t.2.2)
    | inr r =>
      dsimp only
      rw [(commitBody_result hb).1]

theorem nextOf_le_commitStep (l : Leader) (core : Core) (p : NodeId) :
    l.nextOf p ≤ (l.commitStep core).role.nextOf p :=
  nextOf_le_maybeCommitLoop (pendingJoints core + 1) l core Effects.none p

/-- The request for the leader's snapshot, with what `send_append_to` hands to the
application. -/
def snapshotRequest (core : Core) : InstallSnapshotRequest :=
  { lastIncludedIndex := core.log.snapshotIndex
    lastIncludedTerm := core.log.snapshotTerm
    configuration := core.configAt core.log.snapshotIndex }

/-- A peer whose next index is compacted is sent the snapshot. -/
theorem sendAppendTo_snapshot (h : l.nextOf p ≤ core.log.snapshotIndex) :
    l.sendAppendTo core p = (l, Effects.none.withSendSnapshot
      { receiver := p
        lastIncludedIndex := (snapshotRequest core).lastIncludedIndex
        lastIncludedTerm := (snapshotRequest core).lastIncludedTerm
        configuration := (snapshotRequest core).configuration }) := by
  unfold sendAppendTo
  dsimp only
  rw [if_pos (show (l.nextIndex.get p).getD 1 ≤ core.log.snapshotIndex from h)]
  rfl

theorem sendAppendTo_noSnapshot (h : core.log.snapshotIndex < l.nextOf p) :
    (l.sendAppendTo core p).2.sendSnapshots = [] := by
  unfold sendAppendTo
  dsimp only
  rw [if_neg (show ¬ (l.nextIndex.get p).getD 1 ≤ core.log.snapshotIndex from not_le.mpr h)]
  rfl

theorem handleMessage_installSnapshotResponse {msg : Message} {resp : InstallSnapshotResponse}
    (hterm : msg.term = core.term) (hresp : msg.payload = .installSnapshotResponse resp) :
    l.handleMessage core msg = l.handleInstallSnapshotResponse core msg.sender resp := by
  have hnewer : ¬ core.term < msg.term := by omega
  have holder : ¬ msg.term < core.term := by omega
  simp only [handleMessage, hresp, if_neg hnewer, if_neg holder]

/-- A refusal is ignored. -/
theorem handleInstallSnapshotResponse_refused (l : Leader) (core : Core) (sender : NodeId)
    {resp : InstallSnapshotResponse} (h : resp.success = false) :
    l.handleInstallSnapshotResponse core sender resp =
      { role := l, core := core, result := StepResult.none } := by
  rw [handleInstallSnapshotResponse, if_pos (Or.inl h)]

/-- A success moves both indices of its sender past the snapshot. -/
theorem handleInstallSnapshotResponse_success {resp : InstallSnapshotResponse}
    (hsuccess : resp.success = true) (hmember : core.effectiveConfig.isMember p = true)
    (hne : p ≠ core.id) (hbehind : l.matchOf p < resp.lastIncludedIndex) :
    let out := l.handleInstallSnapshotResponse core p resp
    out.role.matchOf p = resp.lastIncludedIndex ∧ resp.lastIncludedIndex < out.role.nextOf p ∧
      out.core.log.snapshotIndex = core.log.snapshotIndex := by
  let moved : Leader :=
    { l with
      matchIndex := l.matchIndex.insert p resp.lastIncludedIndex
      nextIndex := l.nextIndex.insert p (resp.lastIncludedIndex + 1) }
  have hcounted : ¬ (resp.success = false ∨ core.effectiveConfig.isMember p = false) := by
    rw [hsuccess, hmember]
    decide
  have hout : l.handleInstallSnapshotResponse core p resp = moved.commitStep core := by
    rw [handleInstallSnapshotResponse, if_neg hcounted, if_neg (not_le.mpr hbehind)]
  have hgrows : Grows p moved core (moved.commitStep core).role (moved.commitStep core).core :=
    commitStep_grows (Or.inr hne) moved
  dsimp only
  rw [hout]
  refine ⟨?_, ?_, ?_⟩
  · rw [hgrows.matched]
    simp [moved, matchOf]
  · have hnext := nextOf_le_commitStep moved core p
    have hmoved : moved.nextOf p = resp.lastIncludedIndex + 1 := by simp [moved, nextOf]
    omega
  · obtain ⟨es, hes⟩ := hgrows.log
    rw [hes]

end Leader

/-- A leader and a follower between which a snapshot is to be transferred. -/
structure Transfer where
  leader : Leader
  leaderCore : Core
  follower : Follower
  followerCore : Core

namespace Transfer
open Leader
variable {t : Transfer}

def peer (t : Transfer) : NodeId := t.followerCore.id

/-- The index of the leader's snapshot. -/
def index (t : Transfer) : ℕ := t.leaderCore.log.snapshotIndex

def request (t : Transfer) : Message :=
  t.leaderCore.message t.peer (.installSnapshotRequest (snapshotRequest t.leaderCore))

/-- The request is delivered to the follower, and its answers to the leader. -/
def round (t : Transfer) : Transfer :=
  let out := t.follower.handleMessage t.followerCore t.request
  let answered := out.result.effects.messages.foldl
    (fun (s : Leader × Core) msg =>
      ((s.1.handleMessage s.2 msg).role, (s.1.handleMessage s.2 msg).core))
    (t.leader, t.leaderCore)
  { leader := answered.1
    leaderCore := answered.2
    follower := out.role
    followerCore := out.core }

/-- The leader counts the snapshot as received and sends entries again. -/
structure CaughtUp (t : Transfer) (s : ℕ) : Prop where
  matched : s ≤ t.leader.matchOf t.peer
  next : s < t.leader.nextOf t.peer
  appends : (t.leader.sendAppendTo t.leaderCore t.peer).2.sendSnapshots = []

section Round
variable (hterm : t.followerCore.term = t.leaderCore.term)
include hterm

theorem handleMessage_request : t.follower.handleMessage t.followerCore t.request =
    t.follower.handleInstallSnapshot t.followerCore t.leaderCore.id
      (snapshotRequest t.leaderCore) := by
  apply Follower.handleMessage_installSnapshot rfl
  exact hterm.symm

theorem round_peer : t.round.peer = t.peer := by
  have hframe := (Follower.handleInstallSnapshot_frame t.follower t.followerCore t.leaderCore.id
    (snapshotRequest t.leaderCore)).1
  show Core.id (t.follower.handleMessage t.followerCore t.request).core = t.followerCore.id
  rw [handleMessage_request hterm, Core.id, hframe, Core.id]

/-- The snapshot is already there: the round changes nothing at the leader, and neither the
log nor the term of the follower. -/
theorem round_installed (h : t.index ≤ t.followerCore.log.snapshotIndex) :
    t.round.leader = t.leader ∧ t.round.leaderCore = t.leaderCore ∧
      t.round.followerCore.log = t.followerCore.log ∧
      t.round.followerCore.term = t.followerCore.term := by
  have hrefuse : ¬ Follower.Accepts t.followerCore (snapshotRequest t.leaderCore) := by
    intro haccept
    exact absurd haccept.1 (not_lt.mpr h)
  obtain ⟨hlog, -, -, hreply⟩ :=
    Follower.handleInstallSnapshot_refused (f := t.follower) t.leaderCore.id hrefuse
  have hframe := Follower.handleInstallSnapshot_frame t.follower t.followerCore t.leaderCore.id
    (snapshotRequest t.leaderCore)
  have hignored : t.leader.handleMessage t.leaderCore (Follower.snapshotReply t.followerCore
      t.leaderCore.id (snapshotRequest t.leaderCore) false) =
      { role := t.leader, core := t.leaderCore, result := StepResult.none } := by
    rw [handleMessage_installSnapshotResponse hterm rfl]
    exact handleInstallSnapshotResponse_refused _ _ _ rfl
  unfold round
  dsimp only
  rw [handleMessage_request hterm, hreply]
  simp only [List.foldl_cons, List.foldl_nil, hignored]
  exact ⟨trivial, trivial, hlog, hframe.2⟩

end Round

/-- Once the follower has the snapshot, every further round leaves the leader as it is. -/
theorem rounds_installed (hterm : t.followerCore.term = t.leaderCore.term)
    (h : t.index ≤ t.followerCore.log.snapshotIndex) (n : ℕ) :
    (round^[n] t).leader = t.leader ∧ (round^[n] t).leaderCore = t.leaderCore ∧
      (round^[n] t).followerCore.log = t.followerCore.log ∧
      (round^[n] t).followerCore.term = t.followerCore.term ∧ (round^[n] t).peer = t.peer := by
  induction n with
  | zero => exact ⟨rfl, rfl, rfl, rfl, rfl⟩
  | succ n ih =>
    obtain ⟨hleader, hcore, hlog, hfterm, hpeer⟩ := ih
    have hterm' : (round^[n] t).followerCore.term = (round^[n] t).leaderCore.term := by
      rw [hfterm, hcore, hterm]
    have hinstalled : (round^[n] t).index ≤ (round^[n] t).followerCore.log.snapshotIndex := by
      rw [index, hcore, hlog]
      exact h
    obtain ⟨hl, hc, hf, ht⟩ := round_installed hterm' hinstalled
    rw [Function.iterate_succ_apply']
    exact ⟨hl.trans hleader, hc.trans hcore, hf.trans hlog, ht.trans hfterm,
      (round_peer hterm').trans hpeer⟩

/-- The leader then sends the same snapshot for ever. -/
theorem snapshot_resent_forever (hterm : t.followerCore.term = t.leaderCore.term)
    (h : t.index ≤ t.followerCore.log.snapshotIndex) (hnext : t.leader.nextOf t.peer ≤ t.index)
    (n : ℕ) :
    ((round^[n] t).leader.sendAppendTo (round^[n] t).leaderCore (round^[n] t).peer).2 =
      Effects.none.withSendSnapshot
        { receiver := t.peer
          lastIncludedIndex := (snapshotRequest t.leaderCore).lastIncludedIndex
          lastIncludedTerm := (snapshotRequest t.leaderCore).lastIncludedTerm
          configuration := (snapshotRequest t.leaderCore).configuration } := by
  obtain ⟨hleader, hcore, -, -, hpeer⟩ := rounds_installed hterm h n
  rw [hleader, hcore, hpeer, sendAppendTo_snapshot hnext]

/-- A round of the transfer gets a lagging leader past the snapshot exactly when the follower
does not have the snapshot yet. -/
theorem snapshot_transfer_completes_iff (t : Transfer)
    (hterm : t.followerCore.term = t.leaderCore.term) (hne : t.peer ≠ t.leaderCore.id)
    (hmember : t.leaderCore.effectiveConfig.isMember t.peer = true)
    (hbehind : t.leader.matchOf t.peer < t.index)
    (hagrees : t.followerCore.log.snapshotIndex < t.index →
      t.index < t.followerCore.commitIndex →
      t.followerCore.log.termAt t.index = t.leaderCore.log.snapshotTerm) :
    t.round.CaughtUp t.index ↔ t.followerCore.log.snapshotIndex < t.index := by
  constructor
  · intro hcaught
    by_contra hinstalled
    obtain ⟨hleader, -⟩ := round_installed hterm (not_lt.mp hinstalled)
    have hmatched := hcaught.matched
    rw [hleader, round_peer hterm] at hmatched
    omega
  · intro hfresh
    have haccept : Follower.Accepts t.followerCore (snapshotRequest t.leaderCore) := by
      refine ⟨hfresh, ?_⟩
      rcases Nat.lt_or_ge t.index t.followerCore.commitIndex with hlt | hge
      · right
        rw [Log.snapshotMatchesPrefix_iff]
        exact ⟨hfresh, hagrees hfresh hlt⟩
      · exact Or.inl hge
    obtain ⟨-, -, -, hreply⟩ :=
      Follower.handleInstallSnapshot_accepted (f := t.follower) t.leaderCore.id haccept
    let reply := Follower.snapshotReply t.followerCore t.leaderCore.id
      (snapshotRequest t.leaderCore) true
    have hanswer : t.leader.handleMessage t.leaderCore reply =
        t.leader.handleInstallSnapshotResponse t.leaderCore t.peer
          { success := true, lastIncludedIndex := t.index } :=
      handleMessage_installSnapshotResponse hterm rfl
    have hround : t.round.leader = (t.leader.handleMessage t.leaderCore reply).role ∧
        t.round.leaderCore = (t.leader.handleMessage t.leaderCore reply).core := by
      unfold round
      dsimp only
      rw [handleMessage_request hterm, hreply]
      exact ⟨rfl, rfl⟩
    obtain ⟨hmatched, hnext, hsnap⟩ :
        ((t.leader.handleInstallSnapshotResponse t.leaderCore t.peer
          { success := true, lastIncludedIndex := t.index }).role.matchOf t.peer = t.index) ∧ _ :=
      handleInstallSnapshotResponse_success rfl hmember hne hbehind
    rw [hanswer] at hround
    refine ⟨?_, ?_, ?_⟩
    · rw [hround.1, round_peer hterm]
      exact hmatched.ge
    · rw [hround.1, round_peer hterm]
      exact hnext
    · apply sendAppendTo_noSnapshot
      rw [hround.1, hround.2, round_peer hterm, hsnap]
      exact hnext

/-- Node 0 leads with everything compacted up to index 2; it takes node 1 to be empty. -/
def compactedLeader : Core :=
  Core.restore (Config.new 0)
    { term := 1
      votedFor := some 0
      log := { entries := [], snapshotIndex := 2, snapshotTerm := 1, snapshotConfig := none }
      bootstrapConfig := .ofVoters [0, 1] }

def firstDelivery : Transfer :=
  let node1 := Core.restore (Config.new 1)
    { term := 1, votedFor := some 0, log := Log.empty, bootstrapConfig := .ofVoters [0, 1] }
  { leader :=
      { (Leader.new compactedLeader).1 with
        nextIndex := (Leader.new compactedLeader).1.nextIndex.insert 1 1 }
    leaderCore := compactedLeader
    follower := (Follower.new node1 none).1
    followerCore := node1 }

/-- The first delivery went through, and the reply to it was lost. -/
def afterLostReply : Transfer :=
  { firstDelivery with
    follower := firstDelivery.round.follower
    followerCore := firstDelivery.round.followerCore }

/-- The second delivery does not help, nor does any later one. -/
theorem lost_snapshot_reply_never_repaired :
    afterLostReply.followerCore.term = afterLostReply.leaderCore.term ∧
    afterLostReply.index = 2 ∧ afterLostReply.followerCore.log.snapshotIndex = 2 ∧
    afterLostReply.followerCore.log.termAt 2 = afterLostReply.leaderCore.log.termAt 2 ∧
    afterLostReply.leader.matchOf 1 = 0 ∧
    ¬ afterLostReply.round.CaughtUp 2 ∧
    (∀ n, ((round^[n] afterLostReply).leader.sendAppendTo (round^[n] afterLostReply).leaderCore
        (round^[n] afterLostReply).peer).2.sendSnapshots.length = 1) := by
  have hterm : afterLostReply.followerCore.term = afterLostReply.leaderCore.term := by
    decide +kernel
  have hinstalled :
      afterLostReply.index ≤ afterLostReply.followerCore.log.snapshotIndex := by
    decide +kernel
  refine ⟨hterm, rfl, by decide +kernel, by decide +kernel, by decide +kernel, ?_, ?_⟩
  · intro hcaught
    have hmatched := hcaught.matched
    rw [(round_installed hterm hinstalled).1, round_peer hterm] at hmatched
    revert hmatched
    decide +kernel
  · intro n
    rw [snapshot_resent_forever hterm hinstalled (by decide +kernel) n]
    rfl

theorem snapshot_transfer_completes_firstDelivery : firstDelivery.round.CaughtUp 2 :=
  (snapshot_transfer_completes_iff firstDelivery rfl (by decide) (by decide +kernel)
    (by decide +kernel) (fun _ h => absurd h (by decide))).mpr (by decide)

end Transfer
end BasisDB.Raft
