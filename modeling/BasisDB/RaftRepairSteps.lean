import BasisDB.RaftRepair

/-! What the two handlers of the exchange do: the commit loop of the leader, which may
append a configuration and send again, and the append loop of the follower. -/
namespace BasisDB.Raft
open ReplicatedLog

/-- A leader whose log begins with `L`, and in all of whose configurations, those it will
still append included, the peer is a member. -/
structure Leads (L : List Entry) (peer : NodeId) (core : Core) : Prop where
  plain : core.log.Plain
  term : 0 < core.term
  begins : L <+: core.log.entries
  bootstrap : core.persistent.bootstrapConfig.isMember peer = true
  members : ∀ e ∈ core.log.entries, ∀ cfg, e.payload = .config cfg →
    cfg.isMember peer = true ∧ ∀ target, cfg.transitionTarget = some target →
      target.isMember peer = true

theorem Leads.isMember {L : List Entry} {peer : NodeId} {core : Core} (h : Leads L peer core) :
    core.effectiveConfig.isMember peer = true := by
  rw [effectiveConfig_of_plain h.plain]
  unfold config
  cases hlast : (core.log.entries.filterMap
      (scheme core.persistent.bootstrapConfig).conf).getLast? with
  | none => exact h.bootstrap
  | some cfg =>
    obtain ⟨e, he, hcfg⟩ := List.mem_filterMap.mp (List.mem_of_getLast? hlast)
    have hpay : e.payload = .config cfg := by
      cases hp : e.payload with
      | config c =>
        simp only [scheme, hp, EntryPayload.asConfig, Option.some.injEq] at hcfg
        rw [hcfg]
      | _ => simp [scheme, hp, EntryPayload.asConfig] at hcfg
    exact (h.members e he cfg hpay).1

namespace Leader
variable {L : List Entry} {peer : NodeId} {core core' core'' : Core} {l l' l'' : Leader}

/-- What the commit loop does to the exchange: new requests continue from the next index, and
they are only sent when a joint configuration has been committed. -/
structure Advances (L : List Entry) (peer : NodeId) (l : Leader) (core : Core) (l' : Leader)
    (core' : Core) (reqs : List AppendRequest) : Prop where
  leads : Leads L peer core'
  config : core'.config = core.config
  known : (l'.nextIndex.get peer).isSome = true
  issued : Issued L core.config.pipelining (l.nextOf peer) reqs (l'.nextOf peer)
  fewer : pendingJoints core' < pendingJoints core ∨
    (pendingJoints core' ≤ pendingJoints core ∧ reqs = [] ∧ l'.nextOf peer = l.nextOf peer)

theorem Advances.trans {reqs reqs' : List AppendRequest}
    (h : Advances L peer l core l' core' reqs) (h' : Advances L peer l' core' l'' core'' reqs') :
    Advances L peer l core l'' core'' (reqs ++ reqs') := by
  refine ⟨h'.leads, h'.config.trans h.config, h'.known, ?_, ?_⟩
  · have hissued := h'.issued
    rw [h.config] at hissued
    exact h.issued.trans hissued
  · rcases h.fewer with hlt | ⟨hle, hnil, hnext⟩
    · left
      have := h'.fewer
      omega
    · rcases h'.fewer with hlt' | ⟨hle', hnil', hnext'⟩
      · left
        omega
      · right
        exact ⟨by omega, by rw [hnil, hnil', List.append_nil], hnext'.trans hnext⟩

theorem sendAppendTo_known (receiver : NodeId) (h : (l.nextIndex.get peer).isSome = true) :
    ((l.sendAppendTo core receiver).1.nextIndex.get peer).isSome = true := by
  have hinsert (k : ℕ) : ((l.nextIndex.insert receiver k).get peer).isSome = true := by
    rw [OrdMap.get_insert]
    split_ifs
    · rfl
    · exact h
  unfold sendAppendTo
  dsimp only
  split_ifs
  · exact h
  · exact hinsert _
  · exact hinsert _
  · exact h
  · exact h

theorem broadcastAppend_known (h : (l.nextIndex.get peer).isSome = true) :
    ((l.broadcastAppend core).1.nextIndex.get peer).isSome = true := by
  have hfold (peers : List NodeId) (acc : Leader × Effects)
      (hacc : (acc.1.nextIndex.get peer).isSome = true) :
      ((peers.foldl (sendAppends core) acc).1.nextIndex.get peer).isSome = true := by
    induction peers generalizing acc with
    | nil => exact hacc
    | cons receiver peers ih => exact ih _ (sendAppendTo_known receiver hacc)
  exact hfold _ (l, Effects.none) h

/-- A peer that has a next index keeps it when the progress tables are extended. -/
theorem reinitProgress_next (h : (l.nextIndex.get peer).isSome = true) :
    (l.reinitProgress core).nextIndex.get peer = l.nextIndex.get peer := by
  have hfold (nodes : List NodeId) (m : OrdMap NodeId ℕ) (k : ℕ)
      (hm : (m.get peer).isSome = true) :
      (nodes.foldl (fun m id => m.orInsert id k) m).get peer = m.get peer := by
    induction nodes generalizing m with
    | nil => rfl
    | cons n ns ih =>
      have hsame : (m.orInsert n k).get peer = m.get peer := by
        obtain ⟨v, hv⟩ := Option.isSome_iff_exists.mp hm
        rw [OrdMap.get_orInsert, hv]
        split_ifs with hn <;> simp
      rw [List.foldl_cons, ih _ (by rw [hsame]; exact hm), hsame]
  unfold reinitProgress recordOwn
  split_ifs <;> exact hfold _ _ _ h

/-- A committed joint configuration is no longer pending, and its target is not joint. -/
theorem pendingJoints_transition (hplain : core.log.Plain) {i idx : ℕ} {e : Entry}
    {cfg target : Configuration} (hget : core.log.get idx = some e)
    (hcfg : e.payload = .config cfg) (htarget : cfg.transitionTarget = some target)
    (hold : core.commitIndex < idx) (hnew : idx ≤ i) :
    pendingJoints (appendOwn (core.setCommitIndex i) (.config target)) < pendingJoints core := by
  obtain ⟨j, rfl⟩ : ∃ j, idx = j + 1 := ⟨idx - 1, by omega⟩
  rw [hplain.get_succ] at hget
  have hindex : e.index = j + 1 := by
    rw [hplain.numbered.index_of_getElem? hget, Nat.zero_add]
  obtain ⟨hjoint, hsimple⟩ := Configuration.transitionTarget_isJoint htarget
  have hafter : pendingJoints (appendOwn (core.setCommitIndex i) (.config target)) =
      ((core.log.entries.filter (fun e => decide (core.commitIndex < e.index) &&
        e.payload.asConfig.any Configuration.isJoint)).filter
          (fun e => decide (i < e.index))).length := by
    have hlog : (appendOwn (core.setCommitIndex i) (.config target)).log.entries =
        core.log.entries ++ [{ term := core.term
                               index := core.log.lastIndex + 1
                               payload := .config target }] := rfl
    have hcommit : (appendOwn (core.setCommitIndex i) (.config target)).commitIndex = i := rfl
    unfold pendingJoints
    rw [hlog, hcommit, List.filter_append, List.filter_filter, List.length_append]
    have hlast : (List.filter (fun e : Entry => decide (i < e.index) &&
        e.payload.asConfig.any Configuration.isJoint)
        [{ term := core.term, index := core.log.lastIndex + 1, payload := .config target }]) =
        [] := by
      simp [EntryPayload.asConfig, hsimple]
    rw [hlast, List.length_nil, Nat.add_zero]
    congr 1
    refine List.filter_congr (fun x _ => ?_)
    by_cases hx : i < x.index
    · have hx' : core.commitIndex < x.index := by omega
      simp [hx, hx']
    · simp [hx]
  rw [hafter]
  refine List.length_filter_lt_length_iff_exists.mpr ⟨e, ?_, ?_⟩
  · rw [List.mem_filter]
    refine ⟨List.mem_of_getElem? hget, ?_⟩
    simp [hcfg, EntryPayload.asConfig, hjoint, hindex, hold]
  · rw [decide_eq_true_eq, hindex]
    omega

theorem pendingJoints_commit {i : ℕ} (hi : core.commitIndex ≤ i) :
    pendingJoints (core.setCommitIndex i) ≤ pendingJoints core := by
  unfold pendingJoints
  refine List.Sublist.length_le (List.monotone_filter_right _ (fun e he => ?_))
  rw [Bool.and_eq_true, decide_eq_true_eq] at he ⊢
  exact ⟨lt_of_le_of_lt hi he.1, he.2⟩

theorem Advances.refl (h : Leads L peer core) (hknown : (l.nextIndex.get peer).isSome = true) :
    Advances L peer l core l core [] :=
  ⟨h, rfl, hknown, Issued.nil _, Or.inr ⟨le_rfl, rfl, rfl⟩⟩

theorem Advances.commit (h : Leads L peer core) (hknown : (l.nextIndex.get peer).isSome = true)
    {i : ℕ} (hi : core.commitIndex ≤ i) : Advances L peer l core l (core.setCommitIndex i) [] :=
  ⟨⟨h.plain, h.term, h.begins, h.bootstrap, h.members⟩, rfl, hknown, Issued.nil _,
    Or.inr ⟨pendingJoints_commit hi, rfl, rfl⟩⟩

theorem leads_appendTarget (h : Leads L peer core) {idx : ℕ} {e : Entry}
    {cfg target : Configuration} (hget : core.log.get idx = some e)
    (hcfg : e.payload = .config cfg) (htarget : cfg.transitionTarget = some target) :
    Leads L peer (appendOwn core (.config target)) where
  plain := appendOwn_plain h.plain h.term _
  term := h.term
  begins := h.begins.trans (List.prefix_append _ _)
  bootstrap := h.bootstrap
  members := by
    intro x hx c hc
    rcases List.mem_append.mp hx with hx | hx
    · exact h.members x hx c hc
    · rw [List.mem_singleton] at hx
      subst hx
      rw [EntryPayload.config.injEq] at hc
      subst hc
      have hmem : e ∈ core.log.entries := by
        cases idx with
        | zero => simp [Log.get] at hget
        | succ i =>
          rw [h.plain.get_succ] at hget
          exact List.mem_of_getElem? hget
      refine ⟨(h.members e hmem cfg hcfg).2 _ htarget, ?_⟩
      intro t ht
      have hsimple := (Configuration.transitionTarget_isJoint htarget).2
      have hjoint := (Configuration.transitionTarget_isJoint ht).1
      rw [hsimple] at hjoint
      cases hjoint

/-- Committing a joint configuration: its target is appended, and everyone is sent more. -/
theorem appendTransitionTarget_advances (h : Leads L peer core)
    (hknown : (l.nextIndex.get peer).isSome = true) (hpos : 0 < l.nextOf peer) {i idx : ℕ}
    {e : Entry} {cfg target : Configuration} (hget : core.log.get idx = some e)
    (hcfg : e.payload = .config cfg) (htarget : cfg.transitionTarget = some target)
    (hold : core.commitIndex < idx) (hnew : idx ≤ i) :
    Advances L peer l core (l.appendTransitionTarget (core.setCommitIndex i) target).1
      (l.appendTransitionTarget (core.setCommitIndex i) target).2.1
      ((l.appendTransitionTarget (core.setCommitIndex i) target).2.2.requestsTo peer) := by
  have hcommitted : Leads L peer (core.setCommitIndex i) :=
    ⟨h.plain, h.term, h.begins, h.bootstrap, h.members⟩
  have hleads := leads_appendTarget hcommitted hget hcfg htarget
  obtain ⟨ext, hext⟩ := hleads.begins
  have hnext : (l.reinitProgress (appendOwn (core.setCommitIndex i) (.config target))).nextOf peer =
      l.nextOf peer := by
    rw [nextOf, reinitProgress_next hknown]
    rfl
  have hpos' : 0 < (l.reinitProgress (appendOwn (core.setCommitIndex i)
      (.config target))).nextOf peer := by
    rw [hnext]
    exact hpos
  have hissued := broadcastAppend_issued hleads.plain hext.symm hpos'
  rw [hnext] at hissued
  exact ⟨hleads, rfl, broadcastAppend_known (by rw [reinitProgress_next hknown]; exact hknown),
    hissued, Or.inl (pendingJoints_transition h.plain hget hcfg htarget hold hnew)⟩

theorem tryAutoTransfer_requestsTo (l : Leader) (core : Core) (cfg : Configuration) :
    (l.tryAutoTransfer core cfg).requestsTo peer = [] := by
  simp only [tryAutoTransfer]
  split
  · split_ifs
    · simp [Effects.requestsTo, Effects.withMessage, Effects.none, Payload.asAppendRequest,
        Core.message]
    · rfl
  · rfl

theorem maybeCommitLoop_advances (fuel : ℕ) (l : Leader) (core : Core) (effects : Effects)
    (h : Leads L peer core) (hknown : (l.nextIndex.get peer).isSome = true)
    (hpos : 0 < l.nextOf peer) :
    ∃ reqs, (maybeCommitLoop fuel l core effects).2.2.1.requestsTo peer =
        effects.requestsTo peer ++ reqs ∧
      Advances L peer l core (maybeCommitLoop fuel l core effects).1
        (maybeCommitLoop fuel l core effects).2.1 reqs := by
  induction fuel generalizing l core effects with
  | zero => exact ⟨[], (List.append_nil _).symm, Advances.refl h hknown⟩
  | succ fuel ih =>
    have hround := maybeCommitLoop_round fuel l core effects
    generalize maybeCommitLoop (fuel + 1) l core effects = r at hround
    cases hround with
    | unchanged => exact ⟨[], (List.append_nil _).symm, Advances.refl h hknown⟩
    | transition i idx e cfg target _ _ _ hold hnew hget hcfg htarget =>
      have happ := appendTransitionTarget_advances h hknown hpos hget hcfg htarget
        (i := i) hold hnew
      obtain ⟨reqs, hreqs, hrec⟩ := ih _ _ (effects.merge _) happ.leads happ.known
        (lt_of_lt_of_le hpos happ.issued.le)
      refine ⟨_, ?_, happ.trans hrec⟩
      rw [hreqs, requestsTo_merge, List.append_assoc]
    | stepDown i cfg _ hlt =>
      refine ⟨[], ?_, Advances.commit h hknown hlt.le⟩
      dsimp only
      rw [requestsTo_merge, tryAutoTransfer_requestsTo]
    | done i _ hlt _ => exact ⟨[], (List.append_nil _).symm, Advances.commit h hknown hlt.le⟩

theorem commitStep_advances (h : Leads L peer core) (hknown : (l.nextIndex.get peer).isSome = true)
    (hpos : 0 < l.nextOf peer) :
    Advances L peer l core (l.commitStep core).role (l.commitStep core).core
      ((l.commitStep core).result.effects.requestsTo peer) := by
  obtain ⟨reqs, hreqs, hadv⟩ := maybeCommitLoop_advances (pendingJoints core + 1) l core
    Effects.none h hknown hpos
  have heffects : (l.commitStep core).result.effects =
      (maybeCommitLoop (pendingJoints core + 1) l core Effects.none).2.2.1 := by
    unfold commitStep maybeCommit
    dsimp only
    rw [apply_ite StepResult.effects]
    exact ite_self _
  rw [heffects, hreqs]
  exact hadv

end Leader
end BasisDB.Raft
