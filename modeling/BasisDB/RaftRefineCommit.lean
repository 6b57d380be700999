import BasisDB.RaftRefineLeader

/-! Refinement for the commit loop and for everything a leader does that ends in it. -/
namespace BasisDB.Raft
open ReplicatedLog

theorem effectiveConfig_of_plain {core : Core} (hplain : core.log.Plain) :
    core.effectiveConfig =
      config (scheme core.persistent.bootstrapConfig) core.log.entries := by
  rw [← hplain.configAt_last]
  rfl

namespace Leader
variable {g : Guards} {net : Set Message} {core : Core} {l : Leader}

theorem tryAutoTransfer_sends (l : Leader) (core : Core) (cfg : Configuration) :
    Sends core (l.tryAutoTransfer core cfg) := by
  simp only [tryAutoTransfer]
  split
  · split_ifs
    · refine ⟨rfl, ?_⟩
      intro m hm lv net
      rw [Effects.withMessage, Effects.none, List.nil_append, List.mem_singleton] at hm
      subst hm
      exact ⟨rfl, trivial⟩
    · exact Sends.none core
  · exact Sends.none core

theorem appendOwn_plain (hplain : core.log.Plain) (hterm : 0 < core.term) (p : EntryPayload) :
    (appendOwn core p).log.Plain :=
  hplain.append (by simp [hplain.lastIndex]) hterm

/-- Once no configuration is pending, a simple one may be appended. -/
theorem Crossable.append_simple {log : Log} {commit : ℕ} {e : Entry} {cfg target : Configuration}
    (hg : g.reconfig) (hpending : g.strict → log.pendingConfigIndex commit = none)
    (he : e.payload = .config target) (htarget : cfg.transitionTarget = some target) :
    Crossable g (log.append e) commit := by
  intro x hx c hxc hjoint hlt
  rcases List.mem_append.mp hx with hx | hx
  · refine ⟨hg, fun hs => ?_⟩
    have := pendingConfigIndex_eq_none.mp (hpending hs) x hx (by simp [hxc, EntryPayload.isConfig])
    omega
  · rw [List.mem_singleton] at hx
    subst hx
    rw [he, EntryPayload.config.injEq] at hxc
    subst hxc
    rw [(Configuration.transitionTarget_isJoint htarget).2] at hjoint
    cases hjoint

theorem maybeCommitLoop_carries (fuel : ℕ) (l : Leader) (core : Core) (effects : Effects)
    {core₀ : Core} {r₀ : RoleView} (hplain : core.log.Plain) (hterm : 0 < core.term)
    (hcross : Crossable g core.log core.commitIndex)
    (h : Carries g net core₀ r₀ core (.leader l.view) effects) :
    Carries g net core₀ r₀ (maybeCommitLoop fuel l core effects).2.1
      (.leader (maybeCommitLoop fuel l core effects).1.view)
      (maybeCommitLoop fuel l core effects).2.2.1 ∧
    (maybeCommitLoop fuel l core effects).2.1.log.Plain := by
  induction fuel generalizing l core effects with
  | zero => exact ⟨h, hplain⟩
  | succ fuel ih =>
    have hadv := (h.trans (advanceCommitIndex_carries l core)).merge_none
    have hround := maybeCommitLoop_round fuel l core effects
    generalize maybeCommitLoop (fuel + 1) l core effects = r at hround
    cases hround with
    | unchanged => exact ⟨h, hplain⟩
    | transition i idx e cfg target heq _ hi hold hnew hget hcfg htarget =>
      rw [heq] at hadv
      have hplain' : (core.setCommitIndex i).log.Plain := hplain
      obtain ⟨hg, hlast⟩ := hcross.crossed hplain hget hcfg htarget hold hnew
        core.persistent.bootstrapConfig
      have hown : ((core.setCommitIndex i).view (.leader l.view)).TermCommitted :=
        ⟨i, by omega, le_rfl, hi⟩
      have happ := hadv.trans (appendTransitionTarget_carries l hplain' target hg (by
        intro hs
        refine ⟨hown, (hlast hs).1, Or.inr ?_⟩
        rw [effectiveConfig_of_plain hplain']
        exact (hlast hs).2 ▸ htarget))
      exact ih _ _ _ (appendOwn_plain hplain hterm _) hterm
        (Crossable.append_simple hg (fun hs => (hlast hs).1) rfl htarget) happ
    | stepDown i cfg heq _ =>
      rw [heq] at hadv
      exact ⟨hadv.trans ((tryAutoTransfer_sends l (core.setCommitIndex i) cfg).carries l.view),
        hplain⟩
    | done i heq _ _ =>
      rw [heq] at hadv
      exact ⟨hadv, hplain⟩

theorem maybeCommit_carries (g : Guards) (net : Set Message) (l : Leader)
    (hplain : core.log.Plain) (hterm : 0 < core.term) (hcross : Crossable g core.log core.commitIndex) :
    Carries g net core (.leader l.view) (l.maybeCommit core).2.1
      (.leader (l.maybeCommit core).1.view) (l.maybeCommit core).2.2.1 ∧
    (l.maybeCommit core).2.1.log.Plain :=
  maybeCommitLoop_carries _ l core Effects.none hplain hterm hcross (Carries.refl g net core _)

theorem commitStep_settles (l : Leader) (hplain : core.log.Plain) (hterm : 0 < core.term)
    (hcross : Crossable g core.log core.commitIndex) :
    Settles g net core (.leader l.view) (.leader (l.commitStep core).role.view)
      (l.commitStep core).core (l.commitStep core).result := by
  have h := (maybeCommit_carries g net l hplain hterm hcross).1
  simp only [commitStep]
  split_ifs
  · refine Settles.leave h ?_ ?_ <;> simp [StepResult.toFollower]
  · exact Settles.stay h

theorem commitAndReplicate_carries (l : Leader) (hplain : core.log.Plain) (hterm : 0 < core.term)
    (hcross : Crossable g core.log core.commitIndex) :
    Carries g net core (.leader l.view) (l.commitAndReplicate core).2.1
      (.leader (l.commitAndReplicate core).1.view) (l.commitAndReplicate core).2.2.1 := by
  obtain ⟨h, hp⟩ := maybeCommit_carries g net l hplain hterm hcross
  have h2 := h.trans (broadcastAppend_carries (l.maybeCommit core).1 hp.snapshotIndex)
  refine h2.withPersist.congr ?_ ?_
  · intro m
    simp only [commitAndReplicate, Effects.merge, Effects.withPersist, List.mem_append]
    tauto
  · simp [commitAndReplicate, Effects.merge, Effects.withPersist]

theorem propose_carries (l : Leader) (hplain : core.log.Plain) (hterm : 0 < core.term)
    (hcross : Crossable g core.log core.commitIndex) (cmd : Command)
    (hg : g.command
      { term := core.term, index := core.log.lastIndex + 1, payload := .command cmd }) :
    Carries g net core (.leader l.view) (l.propose core cmd).2.2.1
      (.leader (l.propose core cmd).2.1.view) (l.propose core cmd).2.2.2.1 := by
  have happ : Carries g net core (.leader l.view) (appendOwn core (.command cmd))
      (.leader l.view) Effects.none.withPersist := by
    refine Carries.single ?_ (fun h => absurd h (by simp [Effects.withPersist])) rfl
    rw [Effects.sent_withPersist, Effects.sent_none]
    exact Micro.appendCommand (v := core.view (.leader l.view)) l.view cmd rfl hg
  have hcross' : Crossable g (appendOwn core (.command cmd)).log core.commitIndex := by
    intro x hx c hxc hjoint hlt
    have hold (y : Entry) (hy : y ∈ (appendOwn core (.command cmd)).log.entries)
        (hyc : y.payload.isConfig = true) : y ∈ core.log.entries := by
      rcases List.mem_append.mp hy with hy | hy
      · exact hy
      · rw [List.mem_singleton] at hy
        subst hy
        cases hyc
    obtain ⟨hg, hlast⟩ := hcross x (hold x hx (by simp [hxc, EntryPayload.isConfig])) c hxc hjoint
      hlt
    exact ⟨hg, fun hs y hy hyc => hlast hs y (hold y hy hyc) hyc⟩
  have h2 := (happ.trans (recordOwn_carries l (core.log.lastIndex + 1))).merge_none
  have h3 := h2.trans (commitAndReplicate_carries _ (appendOwn_plain hplain hterm _) hterm hcross')
  refine h3.congr ?_ ?_
  · simp [propose, Effects.merge, Effects.withPersist, Effects.none]
  · simp [propose, commitAndReplicate, Effects.merge, Effects.withPersist]

/-- An accepted configuration change passed all three checks. -/
theorem proposeConfigChange_ok {l : Leader} {core : Core} {change : ConfigChange}
    {res : ℕ × Leader × Core × Effects × Bool} (h : l.proposeConfigChange core change = .ok res) :
    change.validate core.effectiveConfig core.config.membershipMode = .ok () ∧
    core.log.pendingConfigIndex core.commitIndex = none ∧
    res = (core.log.lastIndex + 1,
      ((l.recordOwn (appendOwn core (.config (change.apply core.effectiveConfig
        core.config.membershipMode))) (core.log.lastIndex + 1)).reinitProgress
        (appendOwn core (.config (change.apply core.effectiveConfig
        core.config.membershipMode)))).commitAndReplicate
        (appendOwn core (.config (change.apply core.effectiveConfig
        core.config.membershipMode)))) := by
  simp only [proposeConfigChange, bind, Except.bind, pure, Except.pure] at h
  cases hv : change.validate core.effectiveConfig core.config.membershipMode with
  | error e =>
    rw [hv] at h
    cases h
  | ok u =>
    rw [hv] at h
    cases hc : l.checkPromotion core core.effectiveConfig change with
    | error e =>
      simp only [hc] at h
      cases h
    | ok u' =>
      simp only [hc] at h
      cases hp : core.hasPendingConfig with
      | true =>
        simp only [hp, if_true] at h
        cases h
      | false =>
        simp only [hp, Bool.false_eq_true, if_false, Except.ok.injEq] at h
        refine ⟨rfl, ?_, h.symm⟩
        simpa [Core.hasPendingConfig, Core.pendingConfigIndex, Core.log] using hp

theorem proposeConfigChange_carries {change : ConfigChange}
    {res : ℕ × Leader × Core × Effects × Bool} (h : l.proposeConfigChange core change = .ok res)
    (hplain : core.log.Plain) (hterm : 0 < core.term) (hg : g.reconfig)
    (hrule : g.strict → core.config.membershipMode = g.mode ∧
      (core.view (.leader l.view)).TermCommitted) :
    Carries g net core (.leader l.view) res.2.2.1 (.leader res.2.1.view) res.2.2.2.1 := by
  obtain ⟨hv, hpending, rfl⟩ := proposeConfigChange_ok h
  have happ : Carries g net core (.leader l.view)
      (appendOwn core (.config (change.apply core.effectiveConfig core.config.membershipMode)))
      (.leader l.view) Effects.none.withPersist := by
    refine Carries.single ?_ (fun h => absurd h (by simp [Effects.withPersist])) rfl
    rw [Effects.sent_withPersist, Effects.sent_none]
    refine Micro.appendConfig (v := core.view (.leader l.view)) l.view _ rfl hg (fun hs => ?_)
    obtain ⟨hmode, hown⟩ := hrule hs
    refine ⟨hown, hpending, Or.inl ⟨change, hmode ▸ hv, ?_⟩⟩
    rw [hmode]
    rfl
  have hcross : Crossable g (appendOwn core
      (.config (change.apply core.effectiveConfig core.config.membershipMode))).log
      core.commitIndex := by
    rw [pendingConfigIndex_eq_none] at hpending
    intro x hx c hxc hjoint hlt
    rcases List.mem_append.mp hx with hx | hx
    · have := hpending x hx (by simp [hxc, EntryPayload.isConfig])
      omega
    · rw [List.mem_singleton] at hx
      subst hx
      refine ⟨hg, ?_⟩
      intro _ y hy _
      rcases List.mem_append.mp hy with hy | hy
      · obtain ⟨i, hi⟩ := List.getElem?_of_mem hy
        have h1 := hplain.numbered.index_of_getElem? hi
        have h2 := (List.getElem?_eq_some_iff.mp hi).1
        dsimp only
        rw [hplain.lastIndex]
        omega
      · rw [List.mem_singleton] at hy
        rw [hy]
  have h2 := (happ.trans (recordOwn_carries l (core.log.lastIndex + 1))).merge_none
  have h3 := (h2.trans (reinitProgress_carries _)).merge_none
  have h4 := h3.trans (commitAndReplicate_carries _ (appendOwn_plain hplain hterm _) hterm hcross)
  refine h4.congr ?_ ?_
  · simp [Effects.merge, Effects.withPersist, Effects.none]
  · simp [commitAndReplicate, Effects.merge, Effects.withPersist]

theorem currentTermCommitFrom_some {core : Core} {idx i : ℕ}
    (h : currentTermCommitFrom core idx = some i) :
    0 < i ∧ i ≤ idx ∧ core.log.termAt i = core.term := by
  induction idx with
  | zero => cases h
  | succ idx ih =>
    unfold currentTermCommitFrom at h
    split_ifs at h with h1 h2
    · rw [Option.some.injEq] at h
      subst h
      exact ⟨Nat.succ_pos _, le_rfl, h1⟩
    · obtain ⟨ha, hb, hc⟩ := ih h
      exact ⟨ha, by omega, hc⟩

theorem termCommitted_of_isSome {core : Core} (r : RoleView)
    (h : (currentTermCommitIndex core).isSome = true) : (core.view r).TermCommitted := by
  obtain ⟨i, hi⟩ := Option.isSome_iff_exists.mp h
  exact ⟨i, currentTermCommitFrom_some hi⟩

theorem readIndexRequests_sends {pending : PendingReadIndex} (lv : LeaderView)
    (hp : lv.pending = some pending) :
    Carries g net core (.leader lv) core (.leader lv) (readIndexRequests core pending) := by
  refine Carries.emits ?_
  intro m hm
  rw [readIndexRequests, Effects.withMessages, Effects.none, List.nil_append, List.mem_map] at hm
  obtain ⟨receiver, -, rfl⟩ := hm
  exact ⟨rfl, rfl, lv, pending, rfl, hp, rfl⟩

theorem requestReadIndex_carries {l' : Leader} {readIndex : ℕ} {eff : Effects}
    (h : l.requestReadIndex core = .ok (readIndex, eff, l')) :
    Carries g net core (.leader l.view) core (.leader l'.view) eff := by
  unfold requestReadIndex at h
  cases hpend : l.pendingReadIndex with
  | some p =>
    rw [hpend] at h
    cases h
  | none =>
    simp only [hpend] at h
    split_ifs at h with hnone hq
    · -- our own acknowledgement is a quorum
      simp only [Except.ok.injEq, Prod.mk.injEq] at h
      obtain ⟨rfl, rfl, rfl⟩ := h
      have hown : (core.view (.leader l.view)).TermCommitted :=
        termCommitted_of_isSome _ (Option.isSome_iff_ne_none.mpr (fun h => hnone (by simp [h])))
      refine Carries.single ?_ (fun _ => rfl) rfl
      rw [Effects.sent_none]
      have hnow : Micro g core.id _ net _ net :=
        Micro.readNow (v := core.view (.leader l.view)) l.view rfl hpend hown hq
      rw [show l.view.pending = none from hpend] at hnow
      exact hnow
    · simp only [Except.ok.injEq, Prod.mk.injEq] at h
      obtain ⟨rfl, rfl, rfl⟩ := h
      have hown : (core.view (.leader l.view)).TermCommitted :=
        termCommitted_of_isSome _ (Option.isSome_iff_ne_none.mpr (fun h => hnone (by simp [h])))
      have hstart : Carries g net core (.leader l.view) core
          (.leader (Leader.view
            { l with
              nextReadId := l.nextReadId + 1
              pendingReadIndex := some
                { id := l.nextReadId
                  readIndex := core.commitIndex
                  configuration := core.effectiveConfig
                  acks := OrdSet.singleton core.id } })) Effects.none := by
        refine Carries.single ?_ (fun _ => rfl) rfl
        rw [Effects.sent_none]
        exact Micro.startRead (v := core.view (.leader l.view)) l.view rfl hpend hown
          ((Bool.not_eq_true _).mp hq)
      exact (hstart.trans (readIndexRequests_sends _ rfl)).none_merge

theorem handleReadIndexResponse_carries (l : Leader) {msg : Message} {resp : ReadIndexResponse}
    (hm : msg ∈ net) (hp : msg.payload = .readIndexResponse resp) (ht : msg.term = core.term)
    (hrec : msg.receiver = core.id) :
    Carries g net core (.leader l.view) core
      (.leader (l.handleReadIndexResponse msg.sender resp).view) Effects.none := by
  unfold handleReadIndexResponse
  cases hpend : l.pendingReadIndex with
  | none => exact Carries.refl g net core _
  | some p =>
    simp only
    by_cases hv : (!p.configuration.isVoter msg.sender) = true
    · rw [if_pos hv]
      exact Carries.refl g net core _
    rw [if_neg hv]
    by_cases hid : p.id ≠ resp.id ∨ p.readIndex ≠ resp.readIndex
    · rw [if_pos hid]
      exact Carries.refl g net core _
    rw [if_neg hid]
    rw [not_or, not_not, not_not] at hid
    have hresp : msg.payload = .readIndexResponse { id := p.id, readIndex := p.readIndex } := by
      rw [hp, hid.1, hid.2]
    by_cases hq : p.configuration.hasQuorum
        (fun voter => (p.acks.insert msg.sender).contains voter) = true
    · rw [if_pos hq]
      refine Carries.single ?_ (fun _ => rfl) rfl
      rw [Effects.sent_none]
      exact Micro.confirmRead (v := core.view (.leader l.view)) l.view p msg hm hresp ht hrec rfl
        hpend hq
    · rw [if_neg hq]
      refine Carries.single ?_ (fun _ => rfl) rfl
      rw [Effects.sent_none]
      exact Micro.ackRead (v := core.view (.leader l.view)) l.view p msg hm hresp ht hrec rfl hpend
        ((Bool.not_eq_true _).mp hq)

theorem handleTick_settles (g : Guards) (net : Set Message) (l : Leader) (core : Core)
    (h0 : core.log.snapshotIndex = 0) :
    Settles g net core (.leader l.view) (.leader (l.handleTick core).role.view)
      (l.handleTick core).core (l.handleTick core).result := by
  have hsame : Carries g net core (.leader l.view) { core with ticks := core.ticks + 1 }
      (.leader l.view) Effects.none := Carries.of_same rfl rfl rfl
  simp only [handleTick]
  split_ifs
  · have hcast : Carries g (Effects.none.sent net) { core with ticks := core.ticks + 1 }
        (.leader l.view) { core with ticks := core.ticks + 1 } _ _ := broadcastAppend_carries
      { l with heartbeatDeadline := core.ticks + 1 + core.config.heartbeatInterval } h0
    have hb := (hsame.trans hcast).none_merge
    cases hpend : (broadcastAppend
        { l with heartbeatDeadline := core.ticks + 1 + core.config.heartbeatInterval }
        { core with ticks := core.ticks + 1 }).1.pendingReadIndex with
    | none => exact Settles.stay hb
    | some p => exact Settles.stay (hb.trans (readIndexRequests_sends _ hpend))
  · exact Settles.stay hsame

theorem handleDiskWriteComplete_settles (l : Leader) (hplain : core.log.Plain)
    (hterm : 0 < core.term) (hcross : Crossable g core.log core.commitIndex) (index : ℕ) :
    Settles g net core (.leader l.view) (.leader (l.handleDiskWriteComplete core index).role.view)
      (l.handleDiskWriteComplete core index).core
      (l.handleDiskWriteComplete core index).result := by
  unfold handleDiskWriteComplete
  by_cases hlt : l.matchOf core.id < index
  · rw [if_pos hlt]
    have hown : Carries g net core (.leader l.view) core
        (.leader (Leader.view { l with matchIndex := l.matchIndex.insert core.id index }))
        Effects.none := by
      rw [matchOf_insert]
      refine Carries.single ?_ (fun _ => rfl) rfl
      rw [Effects.sent_none]
      exact Micro.ownMatch (v := core.view (.leader l.view)) l.view index rfl
    obtain ⟨r', hc, hstay, hlead⟩ := commitStep_settles
      { l with matchIndex := l.matchIndex.insert core.id index } hplain hterm hcross
    exact ⟨r', (hown.trans hc).none_merge, hstay, hlead⟩
  · rw [if_neg hlt]
    exact Settles.stay (Carries.refl g net core _)

theorem handleAppendResponse_settles (l : Leader) {msg : Message} {resp : AppendResponse}
    (hm : msg ∈ net) (hp : msg.payload = .appendResponse resp) (ht : msg.term = core.term)
    (hrec : msg.receiver = core.id) (hplain : core.log.Plain) (hterm : 0 < core.term)
    (hcross : resp.success = true → Crossable g core.log core.commitIndex) :
    Settles g net core (.leader l.view)
      (.leader (l.handleAppendResponse core msg.sender resp).role.view)
      (l.handleAppendResponse core msg.sender resp).core
      (l.handleAppendResponse core msg.sender resp).result := by
  unfold handleAppendResponse
  by_cases hmem : (!core.effectiveConfig.isMember msg.sender) = true
  · rw [if_pos hmem]
    exact Settles.stay (Carries.refl g net core _)
  rw [if_neg hmem]
  by_cases hs : resp.success = true
  · rw [if_pos hs]
    have hresp : msg.payload =
        .appendResponse { success := true, lastLogIndex := resp.lastLogIndex } := by rw [hp, ← hs]
    have hpeer : Carries g net core (.leader l.view) core
        (.leader (Leader.view
          { l with matchIndex := l.matchIndex.insert msg.sender resp.lastLogIndex }))
        Effects.none := by
      rw [matchOf_insert]
      refine Carries.single ?_ (fun _ => rfl) rfl
      rw [Effects.sent_none]
      exact Micro.peerMatch (v := core.view (.leader l.view)) l.view msg _ hm hresp ht hrec rfl
    dsimp only
    by_cases hpipe : core.config.pipelining = true
    · rw [if_pos hpipe]
      obtain ⟨r', hc, hstay, hlead⟩ := commitStep_settles
        { l with matchIndex := l.matchIndex.insert msg.sender resp.lastLogIndex } hplain hterm
        (hcross hs)
      exact ⟨r', (hpeer.trans hc).none_merge, hstay, hlead⟩
    · rw [if_neg hpipe]
      obtain ⟨r', hc, hstay, hlead⟩ := commitStep_settles
        { l with
          matchIndex := l.matchIndex.insert msg.sender resp.lastLogIndex
          nextIndex := l.nextIndex.insert msg.sender (resp.lastLogIndex + 1) } hplain hterm
        (hcross hs)
      exact ⟨r', (hpeer.trans hc).none_merge, hstay, hlead⟩
  · rw [if_neg hs]
    dsimp only
    refine Settles.stay ?_
    obtain ⟨hview, hsends⟩ := sendAppendTo_spec
      (Leader.mk (l.nextIndex.insert msg.sender
        (if core.config.pipelining = true then
          max (max (resp.lastLogIndex + 1) 1) (l.matchOf msg.sender + 1)
        else max (resp.lastLogIndex + 1) 1)) l.matchIndex l.heartbeatDeadline l.nextReadId
        l.pendingReadIndex l.confirmedReadIndex) hplain.snapshotIndex msg.sender
    rw [hview]
    exact hsends.carries l.view

theorem handleMessage_settles (l : Leader) {msg : Message} (hd : Delivery g net core msg)
    (hterm : 0 < core.term) (hcross : ∀ resp, msg.payload = .appendResponse resp →
      resp.success = true → msg.term = core.term → Crossable g core.log core.commitIndex) :
    Settles g net core (.leader l.view) (.leader (l.handleMessage core msg).role.view)
      (l.handleMessage core msg).core (l.handleMessage core msg).result := by
  unfold handleMessage
  split
  · exact Settles.stay (Carries.emit ⟨rfl, trivial⟩)
  by_cases hlt : core.term < msg.term
  · rw [if_pos hlt]
    refine Settles.leave (Core.maybeUpdateTerm_carries _ hlt) ?_ ?_ <;>
      simp [StepResult.toFollower]
  rw [if_neg hlt]
  by_cases hgt : msg.term < core.term
  · rw [if_pos hgt]
    exact Settles.stay (Core.staleReply_carries g net core _ msg)
  rw [if_neg hgt]
  have ht : msg.term = core.term := by omega
  split
  · rename_i resp hp
    exact handleAppendResponse_settles l (hd.sent (by simp [hp])) hp ht hd.receiver hd.plain hterm
      (fun hs => hcross resp hp hs ht)
  · rename_i resp hp
    have hf := hd.formed
    simp only [Message.Formed, hp] at hf
  · rename_i resp hp
    exact Settles.stay (handleReadIndexResponse_carries l (hd.sent (by simp [hp])) hp ht hd.receiver)
  · exact Settles.stay (Core.refuse_carries g net core _ _)
  · exact Settles.stay (Carries.refl g net core _)

end Leader
end BasisDB.Raft
