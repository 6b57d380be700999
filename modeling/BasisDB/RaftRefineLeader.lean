import BasisDB.RaftRefineRoles

/-! Refinement for the leader role: replication, the commit loop with its
configuration entries, and read-index rounds. -/
namespace BasisDB.Raft
open ReplicatedLog

namespace Leader
variable {g : Guards} {net : Set Message} {core : Core} {l : Leader}

/-- Effects that only send what a leader may send in this state. -/
structure Sends (core : Core) (eff : Effects) : Prop where
  unsaved : eff.persist = false
  emits : ∀ m ∈ eff.messages, ∀ lv net, Emits core.id (core.view (.leader lv)) net m

theorem Sends.none (core : Core) : Sends core Effects.none :=
  ⟨rfl, fun _ hm => absurd hm List.not_mem_nil⟩

theorem Sends.merge {e₁ e₂ : Effects} (h₁ : Sends core e₁) (h₂ : Sends core e₂) :
    Sends core (e₁.merge e₂) where
  unsaved := by simp [Effects.merge, h₁.unsaved, h₂.unsaved]
  emits := by
    intro m hm
    rcases List.mem_append.mp hm with hm | hm
    · exact h₁.emits m hm
    · exact h₂.emits m hm

theorem Sends.carries {eff : Effects} (h : Sends core eff) (lv : LeaderView) :
    Carries g net core (.leader lv) core (.leader lv) eff :=
  Carries.emits (fun m hm => h.emits m hm lv net)

theorem sendAppendTo_spec (l : Leader) (h0 : core.log.snapshotIndex = 0) (receiver : NodeId) :
    (l.sendAppendTo core receiver).1.view = l.view ∧
      Sends core (l.sendAppendTo core receiver).2 := by
  simp only [sendAppendTo, h0]
  by_cases hn : (l.nextIndex.get receiver).getD 1 ≤ 0
  · rw [if_pos hn]
    exact ⟨rfl, rfl, fun m hm => absurd hm List.not_mem_nil⟩
  · rw [if_neg hn]
    refine ⟨?_, rfl, ?_⟩
    · split_ifs <;> rfl
    · intro m hm lv net
      rw [Effects.withMessage, Effects.none, List.nil_append, List.mem_singleton] at hm
      subst hm
      have hprev : (l.nextIndex.get receiver).getD 1 - 1 + 1 = (l.nextIndex.get receiver).getD 1 := by
        omega
      refine ⟨rfl, rfl, ⟨lv, rfl⟩, ?_, rfl, ?_⟩
      · have hno : ¬((l.nextIndex.get receiver).getD 1 - 1 ≤ 0 ∧
            0 < (l.nextIndex.get receiver).getD 1 - 1) := by omega
        simp only [if_neg hno]
        rfl
      · refine ⟨min ((l.nextIndex.get receiver).getD 1 + core.config.maxEntriesPerMsg)
          (core.log.lastIndex + 1), ?_⟩
        simp only [hprev]
        rfl

theorem sendAppends_spec (h0 : core.log.snapshotIndex = 0) (peers : List NodeId)
    (acc : Leader × Effects) (hacc : Sends core acc.2) :
    (peers.foldl (sendAppends core) acc).1.view = acc.1.view ∧
      Sends core (peers.foldl (sendAppends core) acc).2 := by
  induction peers generalizing acc with
  | nil => exact ⟨rfl, hacc⟩
  | cons p ps ih =>
    obtain ⟨hview, hsends⟩ := sendAppendTo_spec acc.1 h0 p
    obtain ⟨h1, h2⟩ := ih (sendAppends core acc p) (hacc.merge hsends)
    exact ⟨h1.trans hview, h2⟩

theorem broadcastAppend_spec (l : Leader) (h0 : core.log.snapshotIndex = 0) :
    (l.broadcastAppend core).1.view = l.view ∧ Sends core (l.broadcastAppend core).2 :=
  sendAppends_spec h0 _ _ (Sends.none core)

theorem broadcastAppend_carries (l : Leader) (h0 : core.log.snapshotIndex = 0) :
    Carries g net core (.leader l.view) core (.leader (l.broadcastAppend core).1.view)
      (l.broadcastAppend core).2 := by
  obtain ⟨hview, hsends⟩ := broadcastAppend_spec l h0
  rw [hview]
  exact hsends.carries l.view

theorem matchOf_insert (l : Leader) (id k : ℕ) :
    Leader.view { l with matchIndex := l.matchIndex.insert id k } =
      { l.view with matched := Function.update l.view.matched id k } := by
  simp only [view]
  congr 1
  funext p
  by_cases hp : p = id
  · subst hp
    simp [matchOf]
  · rw [Function.update_of_ne hp, matchOf, matchOf, OrdMap.get_insert_ne _ _ (Ne.symm hp)]

theorem recordOwn_carries (l : Leader) (k : ℕ) :
    Carries g net core (.leader l.view) core (.leader (l.recordOwn core k).view) Effects.none := by
  unfold recordOwn
  split_ifs
  · exact Carries.refl g net core _
  · rw [matchOf_insert]
    refine Carries.single ?_ (fun _ => rfl) rfl
    rw [Effects.sent_none]
    exact Micro.ownMatch (v := core.view (.leader l.view)) l.view k rfl

/-- New nodes enter the progress table with nothing replicated. -/
theorem matchOf_orInsert (m : OrdMap NodeId ℕ) (nodes : List NodeId) (p : NodeId) :
    ((nodes.foldl (fun m id => m.orInsert id 0) m).get p).getD 0 = (m.get p).getD 0 := by
  induction nodes generalizing m with
  | nil => rfl
  | cons n ns ih =>
    rw [List.foldl_cons, ih, OrdMap.get_orInsert]
    split_ifs <;> simp

theorem reinitProgress_carries (l : Leader) :
    Carries g net core (.leader l.view) core (.leader (l.reinitProgress core).view)
      Effects.none := by
  unfold reinitProgress
  have hview : Leader.view
      { l with
        nextIndex := core.effectiveConfig.allNodes.foldl
          (fun m id => m.orInsert id (core.log.lastIndex + 1)) l.nextIndex
        matchIndex := core.effectiveConfig.allNodes.foldl (fun m id => m.orInsert id 0)
          l.matchIndex } = l.view := by
    simp only [view]
    congr 1
    funext p
    exact matchOf_orInsert _ _ p
  rw [← hview]
  exact recordOwn_carries _ _

theorem new_spec (h0 : core.log.snapshotIndex = 0) :
    (∀ p, p ≠ core.id → (Leader.new core).1.view.matched p = 0) ∧
    (Leader.new core).1.view.nextReadId = 1 ∧ (Leader.new core).1.view.pending = none ∧
    (Leader.new core).1.view.confirmed = 0 ∧ Sends core (Leader.new core).2 := by
  have hzero (nodes : List NodeId) (m : OrdMap NodeId ℕ) (p : NodeId)
      (hm : (m.get p).getD 0 = 0) :
      ((nodes.foldl (fun m id => m.insert id 0) m).get p).getD 0 = 0 := by
    induction nodes generalizing m with
    | nil => exact hm
    | cons n ns ih =>
      refine ih _ ?_
      rw [OrdMap.get_insert]
      split_ifs
      · rfl
      · exact hm
  simp only [Leader.new]
  obtain ⟨hview, hsends⟩ := broadcastAppend_spec
    { nextIndex := core.effectiveConfig.allNodes.foldl
        (fun m id => m.insert id (core.log.lastIndex + 1)) OrdMap.empty
      matchIndex :=
        if core.config.parallelDiskWrite then
          core.effectiveConfig.allNodes.foldl (fun m id => m.insert id 0) OrdMap.empty
        else (core.effectiveConfig.allNodes.foldl (fun m id => m.insert id 0)
          OrdMap.empty).insert core.id core.log.lastIndex
      heartbeatDeadline := core.ticks + core.config.heartbeatInterval
      nextReadId := 1
      pendingReadIndex := none
      confirmedReadIndex := 0 } h0
  rw [hview]
  refine ⟨?_, rfl, rfl, rfl, hsends⟩
  intro p hp
  have h := hzero core.effectiveConfig.allNodes OrdMap.empty p rfl
  simp only [view, matchOf]
  split_ifs
  · exact h
  · rw [OrdMap.get_insert_ne _ _ (Ne.symm hp)]
    exact h

/-- The run may append the successor of a joint configuration above the commit
index, and that is the latest configuration when changes come in order. -/
def Crossable (g : Guards) (log : Log) (commit : ℕ) : Prop :=
  ∀ e ∈ log.entries, ∀ c, e.payload = .config c → c.isJoint = true → commit < e.index →
    g.reconfig ∧ (g.strict → ∀ x ∈ log.entries, x.payload.isConfig = true → x.index ≤ e.index)

theorem pendingConfigIndex_eq_none {log : Log} {commit : ℕ} :
    log.pendingConfigIndex commit = none ↔
      ∀ e ∈ log.entries, e.payload.isConfig = true → e.index ≤ commit := by
  simp [Log.pendingConfigIndex, List.find?_eq_none]

/-- Crossing a joint configuration leaves no configuration pending, and it is the
one in force. -/
theorem Crossable.crossed {log : Log} {old commit idx : ℕ} (h : Crossable g log old)
    (hplain : log.Plain) {e : Entry} {cfg target : Configuration} (hget : log.get idx = some e)
    (hcfg : e.payload = .config cfg) (htarget : cfg.transitionTarget = some target)
    (hold : old < idx) (hidx : idx ≤ commit) (boot : Configuration) :
    g.reconfig ∧ (g.strict → log.pendingConfigIndex commit = none ∧
      config (scheme boot) log.entries = cfg) := by
  have hjoint : cfg.isJoint = true := by
    cases cfg with
    | simple voters learners => simp [Configuration.transitionTarget] at htarget
    | joint old new learners => rfl
  obtain ⟨j, rfl⟩ : ∃ j, idx = j + 1 := ⟨idx - 1, by omega⟩
  rw [hplain.get_succ] at hget
  have hei : e.index = j + 1 := by
    have := hplain.numbered.index_of_getElem? hget
    omega
  obtain ⟨hg, hlast⟩ := h e (List.mem_of_getElem? hget) cfg hcfg hjoint (by omega)
  refine ⟨hg, fun hs => ⟨?_, ?_⟩⟩
  · rw [pendingConfigIndex_eq_none]
    intro x hx hxc
    have := hlast hs x hx hxc
    omega
  · obtain ⟨⟨R, hR⟩, hlen⟩ := prefix_of_getElem? hget
    have hplainR : ∀ x ∈ R, (scheme boot).conf x = none := by
      intro x hx
      by_contra hne
      have hxc : x.payload.isConfig = true := by
        cases hp : x.payload with
        | command cmd => simp [scheme, hp, EntryPayload.asConfig] at hne
        | config c => rfl
      obtain ⟨i, hi⟩ := List.getElem?_of_mem hx
      have hxi : log.entries[j + 1 + i]? = some x := by
        rw [← hR, List.getElem?_append_right (by simp [hlen])]
        simpa [hlen] using hi
      have h1 := hplain.numbered.index_of_getElem? hxi
      have h2 := hlast hs x (List.mem_of_getElem? hxi) hxc
      omega
    rw [← hR, config_append_plain hplainR]
    exact config_concat_some (by simp [scheme, hcfg, EntryPayload.asConfig])

theorem advanceCommitIndex_cases (l : Leader) (core : Core) :
    l.advanceCommitIndex core = core ∨ ∃ i, l.advanceCommitIndex core = core.setCommitIndex i ∧
      core.commitIndex < i ∧ i ≤ core.log.lastIndex ∧ core.log.termAt i = core.term ∧
      core.effectiveConfig.hasQuorum (fun p => decide (i ≤ l.matchOf p)) = true := by
  simp only [advanceCommitIndex]
  split
  · rename_i i hi
    right
    have hmem := List.mem_of_find?_eq_some hi
    have hprop := List.find?_some hi
    rw [List.mem_reverse, List.mem_range'_1] at hmem
    rw [Bool.and_eq_true, decide_eq_true_eq] at hprop
    exact ⟨i, rfl, by omega, by omega, hprop.1, hprop.2⟩
  · exact Or.inl rfl

theorem advanceCommitIndex_carries (l : Leader) (core : Core) :
    Carries g net core (.leader l.view) (l.advanceCommitIndex core) (.leader l.view)
      Effects.none := by
  rcases advanceCommitIndex_cases l core with heq | ⟨i, heq, hlt, hle, hterm, hq⟩
  · rw [heq]
    exact Carries.refl g net core _
  · rw [heq]
    refine Carries.single ?_ (fun _ => rfl) rfl
    rw [Effects.sent_none]
    exact Micro.commit (v := core.view (.leader l.view)) l.view i rfl hlt hle hterm hq

theorem appendTransitionTarget_carries (l : Leader) (hplain : core.log.Plain)
    (target : Configuration) (hg : g.reconfig)
    (hrule : g.strict → (core.view (.leader l.view)).TermCommitted ∧
      core.log.pendingConfigIndex core.commitIndex = none ∧
      Legal g.mode core.effectiveConfig target) :
    Carries g net core (.leader l.view) (l.appendTransitionTarget core target).2.1
      (.leader (l.appendTransitionTarget core target).1.view)
      (l.appendTransitionTarget core target).2.2 := by
  have happ : Carries g net core (.leader l.view) (appendOwn core (.config target))
      (.leader l.view) Effects.none.withPersist := by
    refine Carries.single ?_ (fun h => absurd h (by simp [Effects.withPersist])) rfl
    rw [Effects.sent_withPersist, Effects.sent_none]
    exact Micro.appendConfig (v := core.view (.leader l.view)) l.view target rfl hg hrule
  have h0 : (appendOwn core (.config target)).log.snapshotIndex = 0 := hplain.snapshotIndex
  have h2 := happ.trans (reinitProgress_carries l)
  have h3 := h2.merge_none.trans (broadcastAppend_carries
    (l.reinitProgress (appendOwn core (.config target))) h0)
  refine h3.congr ?_ ?_
  · simp [appendTransitionTarget, Effects.merge, Effects.withPersist, Effects.none]
  · simp [appendTransitionTarget, Effects.merge, Effects.withPersist]

/-- What the loop over newly committed configurations can end with. -/
theorem processConfigs_cases (l : Leader) (core : Core) (idxs : List ℕ) :
    match l.processConfigs core idxs with
    | .continue_ l' core' eff => ∃ idx ∈ idxs, ∃ e cfg target, core.log.get idx = some e ∧
        e.payload = .config cfg ∧ cfg.transitionTarget = some target ∧
        (l', core', eff) = l.appendTransitionTarget core target
    | .stepDown eff => ∃ idx ∈ idxs, ∃ e cfg, core.log.get idx = some e ∧
        e.payload = .config cfg ∧ cfg.isVoter core.id = false ∧ eff = l.tryAutoTransfer core cfg
    | .done => ∀ idx ∈ idxs, ∀ e cfg, core.log.get idx = some e → e.payload = .config cfg →
        cfg.transitionTarget = none := by
  induction idxs with
  | nil => exact fun idx hidx => absurd hidx List.not_mem_nil
  | cons idx rest ih =>
    unfold processConfigs
    cases hcfg : (core.log.get idx).bind (fun e => e.payload.asConfig) with
    | none =>
      have hnot (e : Entry) (cfg : Configuration) (hget : core.log.get idx = some e)
          (he : e.payload = .config cfg) : False := by
        simp [hget, he, EntryPayload.asConfig] at hcfg
      simp only
      split at ih
      · obtain ⟨i, hi, hrest⟩ := ih
        exact ⟨i, List.mem_cons_of_mem _ hi, hrest⟩
      · obtain ⟨i, hi, hrest⟩ := ih
        exact ⟨i, List.mem_cons_of_mem _ hi, hrest⟩
      · intro i hi e cfg hget he
        rcases List.mem_cons.mp hi with rfl | hi
        · exact (hnot e cfg hget he).elim
        · exact ih i hi e cfg hget he
    | some cfg =>
      obtain ⟨e, hget, he⟩ := Option.bind_eq_some_iff.mp hcfg
      have hpay : e.payload = .config cfg := by
        cases hp : e.payload with
        | command cmd => simp [hp, EntryPayload.asConfig] at he
        | config c =>
          simp only [hp, EntryPayload.asConfig, Option.some.injEq] at he
          rw [he]
      simp only
      by_cases hv : cfg.isVoter core.id = true
      · simp only [hv, Bool.not_true, Bool.false_eq_true, if_false]
        cases ht : cfg.transitionTarget with
        | some target => exact ⟨idx, List.mem_cons_self, e, cfg, target, hget, hpay, ht, rfl⟩
        | none =>
          simp only
          split at ih
          · obtain ⟨i, hi, hrest⟩ := ih
            exact ⟨i, List.mem_cons_of_mem _ hi, hrest⟩
          · obtain ⟨i, hi, hrest⟩ := ih
            exact ⟨i, List.mem_cons_of_mem _ hi, hrest⟩
          · intro i hi e' cfg' hget' he'
            rcases List.mem_cons.mp hi with rfl | hi
            · rw [hget, Option.some.injEq] at hget'
              subst hget'
              rw [hpay, EntryPayload.config.injEq] at he'
              rwa [← he']
            · exact ih i hi e' cfg' hget' he'
      · rw [Bool.not_eq_true] at hv
        simp only [hv, Bool.not_false, if_true]
        exact ⟨idx, List.mem_cons_self, e, cfg, hget, hpay, hv, rfl⟩

/-- What one round of the loop of `maybe_commit` comes to. -/
inductive CommitRound (fuel : ℕ) (l : Leader) (core : Core) (effects : Effects) :
    Leader × Core × Effects × Bool → Prop
  | unchanged (hsame : l.advanceCommitIndex core = core) :
      CommitRound fuel l core effects (l, core, effects, false)
  | transition (i idx : ℕ) (e : Entry) (cfg target : Configuration)
      (hadv : l.advanceCommitIndex core = core.setCommitIndex i) (hlt : core.commitIndex < i)
      (hterm : core.log.termAt i = core.term) (hold : core.commitIndex < idx) (hnew : idx ≤ i)
      (hget : core.log.get idx = some e) (hcfg : e.payload = .config cfg)
      (htarget : cfg.transitionTarget = some target) :
      CommitRound fuel l core effects
        (maybeCommitLoop fuel (l.appendTransitionTarget (core.setCommitIndex i) target).1
          (l.appendTransitionTarget (core.setCommitIndex i) target).2.1
          (effects.merge (l.appendTransitionTarget (core.setCommitIndex i) target).2.2))
  | stepDown (i : ℕ) (cfg : Configuration)
      (hadv : l.advanceCommitIndex core = core.setCommitIndex i) (hlt : core.commitIndex < i) :
      CommitRound fuel l core effects (l, core.setCommitIndex i,
        effects.merge (l.tryAutoTransfer (core.setCommitIndex i) cfg), true)
  | done (i : ℕ) (hadv : l.advanceCommitIndex core = core.setCommitIndex i)
      (hlt : core.commitIndex < i)
      (hnone : ∀ idx, core.commitIndex < idx → idx ≤ i → ∀ e cfg, core.log.get idx = some e →
        e.payload = .config cfg → cfg.transitionTarget = none) :
      CommitRound fuel l core effects (l, core.setCommitIndex i, effects, false)

theorem maybeCommitLoop_round (fuel : ℕ) (l : Leader) (core : Core) (effects : Effects) :
    CommitRound fuel l core effects (maybeCommitLoop (fuel + 1) l core effects) := by
  rcases advanceCommitIndex_cases l core with hsame | ⟨i, hadv, hlt, -, hterm, -⟩
  · simp only [maybeCommitLoop, hsame, if_true]
    exact .unchanged hsame
  have hne : ¬(core.setCommitIndex i).commitIndex = core.commitIndex := by
    simp only [Core.setCommitIndex]
    omega
  have hproc : l.processCommittedConfigs (core.setCommitIndex i) core.commitIndex =
      l.processConfigs (core.setCommitIndex i)
        (List.range' (core.commitIndex + 1) (i - core.commitIndex)) := rfl
  have hcases := processConfigs_cases l (core.setCommitIndex i)
    (List.range' (core.commitIndex + 1) (i - core.commitIndex))
  simp only [maybeCommitLoop, hadv, if_neg hne, hproc]
  cases hp : l.processConfigs (core.setCommitIndex i)
    (List.range' (core.commitIndex + 1) (i - core.commitIndex)) with
  | continue_ l' core' eff =>
    rw [hp] at hcases
    obtain ⟨idx, hidx, e, cfg, target, hget, hcfg, htarget, hres⟩ := hcases
    rw [List.mem_range'_1] at hidx
    obtain ⟨rfl, hrest⟩ := Prod.mk.inj hres
    obtain ⟨rfl, rfl⟩ := Prod.mk.inj hrest
    exact .transition i idx e cfg target hadv hlt hterm (by omega) (by omega) hget hcfg htarget
  | stepDown eff =>
    rw [hp] at hcases
    obtain ⟨idx, -, e, cfg, -, -, -, rfl⟩ := hcases
    exact .stepDown i cfg hadv hlt
  | done =>
    rw [hp] at hcases
    refine .done i hadv hlt ?_
    intro idx hold hnew e cfg hget hcfg
    exact hcases idx (List.mem_range'_1.mpr ⟨by omega, by omega⟩) e cfg hget hcfg

end Leader
end BasisDB.Raft
