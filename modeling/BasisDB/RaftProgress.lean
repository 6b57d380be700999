import BasisDB.RaftCommitRule
import BasisDB.RaftRefineCommit

/-! Replication progress of a leader: its log only grows at the end, and `match_index` of a
node moves only on an answer of that node, or on a finished disk write for our own. -/
namespace BasisDB.Raft

/-- The answers that report progress. -/
def Payload.reportsProgress : Payload → Bool
  | appendResponse _ => true
  | installSnapshotResponse _ => true
  | _ => false

namespace Leader
variable {p : NodeId} {l l' l'' : Leader} {core core' core'' : Core}

/-- The log has grown at its end, and the term and the progress of `p` are what they were. -/
structure Grows (p : NodeId) (l : Leader) (core : Core) (l' : Leader) (core' : Core) : Prop where
  config : core'.config = core.config
  term : core'.term = core.term
  log : ∃ es, core'.log = { core.log with entries := core.log.entries ++ es }
  matched : l'.matchOf p = l.matchOf p

theorem Grows.refl (p : NodeId) (l : Leader) (core : Core) : Grows p l core l core :=
  ⟨rfl, rfl, ⟨[], by simp⟩, rfl⟩

theorem Grows.trans (h : Grows p l core l' core') (h' : Grows p l' core' l'' core'') :
    Grows p l core l'' core'' := by
  obtain ⟨es, hes⟩ := h.log
  obtain ⟨es', hes'⟩ := h'.log
  refine ⟨h'.config.trans h.config, h'.term.trans h.term, ⟨es ++ es', ?_⟩,
    h'.matched.trans h.matched⟩
  rw [hes', hes, List.append_assoc]

/-- A change of the role alone, or of what is neither saved nor configured. -/
theorem Grows.of_eq (hmatch : l'.matchIndex = l.matchIndex)
    (hsaved : core'.persistent = core.persistent) (hconfig : core'.config = core.config) :
    Grows p l core l' core' :=
  ⟨hconfig, congrArg Persistent.term hsaved, ⟨[], by simp [Core.log, hsaved]⟩,
    by rw [matchOf, hmatch, matchOf]⟩

/-- The leader does not record its own log end for `p` by itself. -/
def Reported (p : NodeId) (core : Core) : Prop :=
  core.config.parallelDiskWrite = true ∨ p ≠ core.id

theorem Reported.of_config (h : Reported p core) (hconfig : core'.config = core.config) :
    Reported p core' := by
  unfold Reported Core.id at h ⊢
  rw [hconfig]
  exact h

theorem matchOf_insert_self (l : Leader) (id k : ℕ) :
    matchOf { l with matchIndex := l.matchIndex.insert id k } id = k := by
  simp [matchOf]

theorem matchOf_insert_ne (l : Leader) {id : ℕ} (k : ℕ) (hne : id ≠ p) :
    matchOf { l with matchIndex := l.matchIndex.insert id k } p = l.matchOf p := by
  rw [matchOf, matchOf, OrdMap.get_insert_ne _ _ hne]

theorem sendAppendTo_matchIndex (l : Leader) (core : Core) (receiver : NodeId) :
    (l.sendAppendTo core receiver).1.matchIndex = l.matchIndex := by
  unfold sendAppendTo
  dsimp only
  split_ifs <;> rfl

theorem broadcastAppend_matchIndex (l : Leader) (core : Core) :
    (l.broadcastAppend core).1.matchIndex = l.matchIndex := by
  have hfold (peers : List NodeId) (acc : Leader × Effects) :
      (peers.foldl (sendAppends core) acc).1.matchIndex = acc.1.matchIndex := by
    induction peers generalizing acc with
    | nil => rfl
    | cons peer peers ih =>
      rw [List.foldl_cons, ih]
      exact sendAppendTo_matchIndex acc.1 core peer
  exact hfold _ _

theorem broadcastAppend_grows (l : Leader) (core : Core) :
    Grows p l core (l.broadcastAppend core).1 core :=
  Grows.of_eq (broadcastAppend_matchIndex l core) rfl rfl

theorem recordOwn_grows (h : Reported p core) (l : Leader) (index : ℕ) :
    Grows p l core (l.recordOwn core index) core := by
  refine ⟨rfl, rfl, ⟨[], by simp⟩, ?_⟩
  unfold recordOwn
  split_ifs with hparallel
  · rfl
  · have hne : core.id ≠ p := Ne.symm (h.resolve_left hparallel)
    exact matchOf_insert_ne l index hne

theorem reinitProgress_grows (h : Reported p core) (l : Leader) :
    Grows p l core (l.reinitProgress core) core := by
  unfold reinitProgress
  apply Grows.trans _ (recordOwn_grows h _ _)
  exact ⟨rfl, rfl, ⟨[], by simp⟩, matchOf_orInsert _ _ p⟩

theorem appendOwn_grows (l : Leader) (core : Core) (payload : EntryPayload) :
    Grows p l core l (appendOwn core payload) := ⟨rfl, rfl, ⟨[_], rfl⟩, rfl⟩

theorem advanceCommitIndex_grows (l : Leader) (core : Core) :
    Grows p l core l (l.advanceCommitIndex core) := by
  rcases l.advanceCommitIndex_cases core with hstays | ⟨i, hadv, _⟩
  · rw [hstays]
    exact Grows.refl p l core
  · rw [hadv]
    exact Grows.of_eq rfl rfl rfl

/-- One further round of the commit loop. -/
theorem commitBody_grows {s t : Leader × Core × Effects} (hr : Reported p s.2.1)
    (h : commitBody s = .inl t) : Grows p s.1 s.2.1 t.1 t.2.1 := by
  obtain ⟨i, _, _, _, _, _, target, _, _, _, _, _, hcore, hrole⟩ := commitBody_continue h
  have happend : Grows p s.1 s.2.1 s.1 t.2.1 := by
    have hcommit : Grows p s.1 s.2.1 s.1 (s.2.1.setCommitIndex i) := Grows.of_eq rfl rfl rfl
    rw [hcore]
    exact hcommit.trans (appendOwn_grows s.1 _ _)
  rw [hrole]
  exact (happend.trans (reinitProgress_grows (hr.of_config happend.config) s.1)).trans
    (broadcastAppend_grows _ _)

theorem maybeCommitLoop_grows (fuel : ℕ) (l : Leader) (core : Core) (effects : Effects)
    (hr : Reported p core) :
    Grows p l core (maybeCommitLoop fuel l core effects).1
      (maybeCommitLoop fuel l core effects).2.1 := by
  induction fuel generalizing l core effects with
  | zero => exact Grows.refl p l core
  | succ fuel ih =>
    rw [maybeCommitLoop_succ]
    cases hb : commitBody (l, core, effects) with
    | inl t =>
      have hround := commitBody_grows hr hb
      exact hround.trans (ih t.1 t.2.1 t.2.2 (hr.of_config hround.config))
    | inr r =>
      obtain ⟨hrole, hcore⟩ := commitBody_result hb
      dsimp only
      rw [hrole, hcore]
      exact advanceCommitIndex_grows l core

theorem maybeCommit_grows (hr : Reported p core) (l : Leader) :
    Grows p l core (l.maybeCommit core).1 (l.maybeCommit core).2.1 :=
  maybeCommitLoop_grows _ l core _ hr

theorem commitStep_grows (hr : Reported p core) (l : Leader) :
    Grows p l core (l.commitStep core).role (l.commitStep core).core := maybeCommit_grows hr l

theorem commitAndReplicate_grows (hr : Reported p core) (l : Leader) :
    Grows p l core (l.commitAndReplicate core).1 (l.commitAndReplicate core).2.1 :=
  (maybeCommit_grows hr l).trans (broadcastAppend_grows _ _)

theorem propose_grows (hr : Reported p core) (l : Leader) (cmd : Command) :
    Grows p l core (l.propose core cmd).2.1 (l.propose core cmd).2.2.1 := by
  have happend := appendOwn_grows (p := p) l core (.command cmd)
  have hr' := hr.of_config happend.config
  exact (happend.trans (recordOwn_grows hr' l _)).trans (commitAndReplicate_grows hr' _)

theorem proposeConfigChange_grows (hr : Reported p core) (l : Leader) (change : ConfigChange)
    {x : ℕ × Leader × Core × Effects × Bool} (h : l.proposeConfigChange core change = .ok x) :
    Grows p l core x.2.1 x.2.2.1 := by
  obtain ⟨-, -, rfl⟩ := proposeConfigChange_ok h
  have happend := appendOwn_grows (p := p) l core
    (.config (change.apply core.effectiveConfig core.config.membershipMode))
  have hr' := hr.of_config happend.config
  exact ((happend.trans (recordOwn_grows hr' l _)).trans (reinitProgress_grows hr' _)).trans
    (commitAndReplicate_grows hr' _)

theorem requestReadIndex_grows (l : Leader) (core : Core) {x : ℕ × Effects × Leader}
    (h : l.requestReadIndex core = .ok x) : Grows p l core x.2.2 core := by
  unfold requestReadIndex at h
  dsimp only at h
  cases hpending : l.pendingReadIndex with
  | some pending => rw [hpending] at h; cases h
  | none =>
    rw [hpending] at h
    dsimp only at h
    split_ifs at h
    · rw [← Except.ok.inj h]
      exact Grows.of_eq rfl rfl rfl
    · rw [← Except.ok.inj h]
      exact Grows.of_eq rfl rfl rfl

theorem handleTick_grows (l : Leader) (core : Core) :
    Grows p l core (l.handleTick core).role (l.handleTick core).core := by
  unfold handleTick
  dsimp only
  split_ifs
  · exact Grows.of_eq (broadcastAppend_matchIndex _ _) rfl rfl
  · exact Grows.of_eq rfl rfl rfl

theorem handleAppendResponse_grows (hr : Reported p core) (l : Leader) {sender : NodeId}
    (resp : AppendResponse) (h : sender ≠ p ∨ core.effectiveConfig.isMember sender = false ∨
      resp.success = false) :
    Grows p l core (l.handleAppendResponse core sender resp).role
      (l.handleAppendResponse core sender resp).core := by
  unfold handleAppendResponse
  by_cases hmember : (!core.effectiveConfig.isMember sender) = true
  · rw [if_pos hmember]
    exact Grows.refl p l core
  · rw [if_neg hmember]
    cases hsuccess : resp.success with
    | true =>
      have hne : sender ≠ p := by
        rcases h with h | h | h
        · exact h
        · simp [h] at hmember
        · rw [h] at hsuccess
          cases hsuccess
      dsimp only
      rw [if_pos rfl]
      refine Grows.trans ⟨rfl, rfl, ⟨[], by simp⟩, ?_⟩ (commitStep_grows hr _)
      split_ifs
      · exact matchOf_insert_ne l _ hne
      · exact matchOf_insert_ne l _ hne
    | false =>
      exact Grows.of_eq (sendAppendTo_matchIndex _ _ _) rfl rfl

theorem handleInstallSnapshotResponse_grows (hr : Reported p core) (l : Leader) {sender : NodeId}
    (hne : sender ≠ p) (resp : InstallSnapshotResponse) :
    Grows p l core (l.handleInstallSnapshotResponse core sender resp).role
      (l.handleInstallSnapshotResponse core sender resp).core := by
  unfold handleInstallSnapshotResponse
  split_ifs
  · exact Grows.refl p l core
  · exact Grows.refl p l core
  · refine Grows.trans ⟨rfl, rfl, ⟨[], by simp⟩, ?_⟩ (commitStep_grows hr _)
    rw [matchOf, matchOf, OrdMap.get_insert_ne _ _ hne]

theorem handleReadIndexResponse_matchIndex (l : Leader) (sender : NodeId)
    (resp : ReadIndexResponse) :
    (l.handleReadIndexResponse sender resp).matchIndex = l.matchIndex := by
  unfold handleReadIndexResponse
  cases l.pendingReadIndex with
  | none => rfl
  | some pending =>
    dsimp only
    split_ifs <;> rfl

/-- A message that brings no newer term leaves the progress of `p` alone unless it is an answer
of `p`. -/
theorem handleMessage_grows (hr : Reported p core) (l : Leader) {msg : Message}
    (hnewer : ¬core.term < msg.term) (h : msg.sender ≠ p ∨ msg.payload.reportsProgress = false) :
    Grows p l core (l.handleMessage core msg).role (l.handleMessage core msg).core := by
  unfold handleMessage
  split
  · exact Grows.refl p l core
  rw [if_neg hnewer]
  by_cases hstale : msg.term < core.term
  · rw [if_pos hstale]
    exact Grows.refl p l core
  rw [if_neg hstale]
  cases hp : msg.payload with
  | appendResponse resp =>
    rw [hp] at h
    have hsender : msg.sender ≠ p := h.resolve_right (by simp [Payload.reportsProgress])
    exact handleAppendResponse_grows hr l resp (Or.inl hsender)
  | installSnapshotResponse resp =>
    rw [hp] at h
    have hsender : msg.sender ≠ p := h.resolve_right (by simp [Payload.reportsProgress])
    exact handleInstallSnapshotResponse_grows hr l hsender resp
  | readIndexResponse resp =>
    exact Grows.of_eq (handleReadIndexResponse_matchIndex l msg.sender resp) rfl rfl
  | preVoteRequest _ | preVoteResponse _ | voteRequest _ | voteResponse _ | appendRequest _
  | installSnapshotRequest _ | readIndexRequest _ | timeoutNow => exact Grows.refl p l core

/-- The only events that move the term, or the progress of `p`. -/
theorem step_grows (hr : Reported p core) (l : Leader) {event : Event}
    (hmsg : ∀ msg, event = .message msg → ¬core.term < msg.term ∧
      (msg.sender ≠ p ∨ msg.payload.reportsProgress = false))
    (hdisk : ∀ index, event = .diskWriteComplete index → core.id ≠ p) :
    Grows p l core (l.step core event).role (l.step core event).core := by
  cases event with
  | tick => exact handleTick_grows l core
  | message msg => exact handleMessage_grows hr l (hmsg msg rfl).1 (hmsg msg rfl).2
  | diskWriteComplete index =>
    show Grows p l core (l.handleDiskWriteComplete core index).role
      (l.handleDiskWriteComplete core index).core
    unfold handleDiskWriteComplete
    split_ifs
    · exact Grows.trans ⟨rfl, rfl, ⟨[], by simp⟩, matchOf_insert_ne l _ (hdisk index rfl)⟩
        (commitStep_grows hr _)
    · exact Grows.refl p l core

end Leader
end BasisDB.Raft
