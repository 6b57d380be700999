import BasisDB.LoopRuns
import BasisDB.RaftContiguousLog
import BasisDB.RaftRefineLeader

/-! The commit rule of the leader, for every log: the loop of `maybe_commit` returns, moves
the commit index only to entries of its own term that a quorum holds, and leaves none above. -/
namespace BasisDB.Raft

namespace Leader
open LoopRuns

/-- One round of the loop of `maybe_commit`, with the effects collected so far. -/
def commitBody (s : Leader × Core × Effects) :
    (Leader × Core × Effects) ⊕ (Leader × Core × Effects × Bool) :=
  let core' := s.1.advanceCommitIndex s.2.1
  if core'.commitIndex = s.2.1.commitIndex then .inr (s.1, core', s.2.2, false)
  else match s.1.processCommittedConfigs core' s.2.1.commitIndex with
    | .continue_ l core e => .inl (l, core, s.2.2.merge e)
    | .stepDown e => .inr (s.1, core', s.2.2.merge e, true)
    | .done => .inr (s.1, core', s.2.2, false)

def holdsJoint (e : Entry) : Bool := e.payload.asConfig.any Configuration.isJoint

/-- Joint configurations at positions above the commit index. -/
def uncommittedJoints (core : Core) : ℕ :=
  (core.log.entries.drop (core.commitIndex - core.log.snapshotIndex)).countP holdsJoint

theorem maybeCommitLoop_succ (fuel : ℕ) (l : Leader) (core : Core) (effects : Effects) :
    maybeCommitLoop (fuel + 1) l core effects =
      match commitBody (l, core, effects) with
      | .inl s => maybeCommitLoop fuel s.1 s.2.1 s.2.2
      | .inr r => r := by
  simp only [maybeCommitLoop, commitBody]
  split_ifs with hsame
  · rfl
  · cases l.processCommittedConfigs (l.advanceCommitIndex core) core.commitIndex <;> rfl

/-- The state in which the loop goes on: the commit index has been raised over a joint
configuration, and its target is at the end of the log. -/
theorem commitBody_continue {s t : Leader × Core × Effects} (h : commitBody s = .inl t) :
    ∃ i, s.1.advanceCommitIndex s.2.1 = s.2.1.setCommitIndex i ∧ s.2.1.commitIndex < i ∧
      ∃ idx e cfg target, s.2.1.commitIndex < idx ∧ idx ≤ i ∧ s.2.1.log.get idx = some e ∧
        e.payload = .config cfg ∧ cfg.transitionTarget = some target ∧
        t.2.1 = appendOwn (s.2.1.setCommitIndex i) (.config target) ∧
        t.1 = ((s.1.reinitProgress t.2.1).broadcastAppend t.2.1).1 := by
  obtain ⟨l, core, effects⟩ := s
  simp only [commitBody] at h
  rcases l.advanceCommitIndex_cases core with hstays | ⟨i, hadv, hlt, _, _, _⟩
  · rw [if_pos (by rw [hstays])] at h
    cases h
  · have hne : (l.advanceCommitIndex core).commitIndex ≠ core.commitIndex := by
      rw [hadv]
      exact hlt.ne'
    rw [if_neg hne] at h
    refine ⟨i, hadv, hlt, ?_⟩
    cases hp : l.processCommittedConfigs (l.advanceCommitIndex core) core.commitIndex with
    | done => rw [hp] at h; cases h
    | stepDown e => rw [hp] at h; cases h
    | continue_ l' core' e =>
      rw [hp] at h
      have hcases := l.processConfigs_cases (l.advanceCommitIndex core)
        (List.range' (core.commitIndex + 1)
          ((l.advanceCommitIndex core).commitIndex - core.commitIndex))
      rw [processCommittedConfigs] at hp
      rw [hp, hadv] at hcases
      obtain ⟨idx, hmem, entry, cfg, target, hget, hpayload, htarget, hresult⟩ := hcases
      have hbound : (core.setCommitIndex i).commitIndex = i := rfl
      rw [List.mem_range'_1, hbound] at hmem
      obtain ⟨hrole, hrest⟩ := Prod.mk.inj hresult
      have hcore : core' = appendOwn (core.setCommitIndex i) (.config target) :=
        (Prod.mk.inj hrest).1
      have hold : core.commitIndex < idx := by omega
      have hnew : idx ≤ i := by omega
      refine ⟨idx, entry, cfg, target, hold, hnew, hget, hpayload, htarget, ?_⟩
      rw [← Sum.inl.inj h]
      refine ⟨hcore, ?_⟩
      rw [hrole, hcore]
      rfl

/-- Counting from further on misses what stands in between. -/
private theorem countP_drop_lt {α : Type} {p : α → Bool} {xs : List α} {a b j : ℕ} {x : α}
    (hx : xs[j]? = some x) (hp : p x = true) (haj : a ≤ j) (hjb : j < b) :
    (xs.drop b).countP p < (xs.drop a).countP p := by
  have hsplit : xs.drop a = (xs.drop a).take (b - a) ++ xs.drop b := by
    have hb : b = a + (b - a) := by omega
    conv_rhs => rw [hb, ← List.drop_drop, Nat.add_sub_cancel_left, List.take_append_drop]
  have hmem : x ∈ (xs.drop a).take (b - a) := by
    refine List.mem_of_getElem? (i := j - a) ?_
    rw [List.getElem?_take_of_lt (by omega), List.getElem?_drop, Nat.add_sub_cancel' haj]
    exact hx
  have hpos : 0 < ((xs.drop a).take (b - a)).countP p := List.countP_pos_iff.mpr ⟨x, hmem, hp⟩
  rw [hsplit, List.countP_append]
  omega

/-- Every further round has one joint configuration less to commit. -/
theorem commitBody_lowers {s t : Leader × Core × Effects} (h : commitBody s = .inl t) :
    uncommittedJoints t.2.1 < uncommittedJoints s.2.1 := by
  obtain ⟨i, _, hlt, idx, e, cfg, target, hold, hnew, hget, hpayload, htarget, hcore, _⟩ :=
    commitBody_continue h
  generalize s.2.1 = core at *
  obtain ⟨hjoint, hsimple⟩ := Configuration.transitionTarget_isJoint htarget
  have habove : core.log.snapshotIndex < idx := by
    by_contra hle
    have hlow : idx = 0 ∨ idx ≤ core.log.snapshotIndex := by omega
    simp [Log.get, hlow] at hget
  rw [Log.get_above habove] at hget
  -- the target at the end of the log is not joint
  have hafter : uncommittedJoints t.2.1 =
      (core.log.entries.drop (i - core.log.snapshotIndex)).countP holdsJoint := by
    have hlog : t.2.1.log.entries = core.log.entries ++
        [{ term := core.term, index := core.log.lastIndex + 1, payload := .config target }] := by
      rw [hcore]
      rfl
    have hindex : t.2.1.commitIndex - t.2.1.log.snapshotIndex = i - core.log.snapshotIndex := by
      rw [hcore]
      rfl
    have hlast (n : ℕ) (entry : Entry) (hentry : entry.payload = .config target) :
        (List.drop n [entry]).countP holdsJoint = 0 := by
      refine List.countP_eq_zero.mpr ?_
      intro x hx
      rw [List.mem_singleton.mp (List.mem_of_mem_drop hx)]
      simp [holdsJoint, hentry, EntryPayload.asConfig, hsimple]
    rw [uncommittedJoints, hlog, hindex, List.drop_append, List.countP_append, hlast _ _ rfl,
      Nat.add_zero]
  rw [hafter]
  apply countP_drop_lt hget
  · simp [holdsJoint, hpayload, EntryPayload.asConfig, hjoint]
  · omega
  · omega

/-- The loop returns, for any log whatever. -/
theorem commitLoop_returns (s : Leader × Core × Effects) : ∃ r, Returns commitBody s r :=
  returns_of_measure (fun s => uncommittedJoints s.2.1) (fun _ _ h => commitBody_lowers h) s

/-- As many rounds as there are joint configurations to commit are enough. -/
theorem maybeCommitLoop_eq {s : Leader × Core × Effects} {r : Leader × Core × Effects × Bool}
    (h : Returns commitBody s r) (fuel : ℕ) (hfuel : uncommittedJoints s.2.1 < fuel) :
    maybeCommitLoop fuel s.1 s.2.1 s.2.2 = r := by
  induction h generalizing fuel with
  | stop hb =>
    obtain ⟨fuel, rfl⟩ : ∃ k, fuel = k + 1 := ⟨fuel - 1, by omega⟩
    rw [maybeCommitLoop_succ, hb]
  | again hb _ ih =>
    obtain ⟨fuel, rfl⟩ : ∃ k, fuel = k + 1 := ⟨fuel - 1, by omega⟩
    have := commitBody_lowers hb
    rw [maybeCommitLoop_succ, hb]
    exact ih fuel (by omega)

/-- In a log without gaps positions and indices say the same. -/
theorem uncommittedJoints_eq {core : Core} (h : core.log.Contiguous) :
    uncommittedJoints core = pendingJoints core := by
  have hindex (es : List Entry) (k c : ℕ) (hes : ∀ i e, es[i]? = some e → e.index = k + i + 1) :
      (es.drop (c - k)).countP holdsJoint =
        (es.filter (fun e => decide (c < e.index) && holdsJoint e)).length := by
    induction es generalizing k with
    | nil => simp
    | cons e es ih =>
      have he : e.index = k + 0 + 1 := hes 0 e rfl
      have htail := ih (k + 1) (fun i x hx => by
        have := hes (i + 1) x hx
        omega)
      by_cases hc : c ≤ k
      · have hk : c - k = 0 := by omega
        have hk' : c - (k + 1) = 0 := by omega
        have hlt : c < e.index := by omega
        rw [hk', List.drop_zero] at htail
        rw [hk, List.drop_zero, List.countP_cons, htail, List.filter_cons]
        cases holdsJoint e <;> simp [hlt]
      · have hk : c - k = c - (k + 1) + 1 := by omega
        have hlt : ¬c < e.index := by omega
        rw [hk, List.drop_succ_cons, htail, List.filter_cons]
        simp [hlt]
  exact hindex core.log.entries core.log.snapshotIndex core.commitIndex h

theorem returns_maybeCommit {l : Leader} {core : Core} (h : core.log.Contiguous)
    {r : Leader × Core × Effects × Bool} (hr : Returns commitBody (l, core, Effects.none) r) :
    l.maybeCommit core = r := by
  apply maybeCommitLoop_eq hr
  rw [uncommittedJoints_eq h]
  exact Nat.lt_succ_self _

/-- No index above the one found has both the term and the quorum. -/
theorem advanceCommitIndex_highest (l : Leader) (core : Core) {i : ℕ}
    (hi : (l.advanceCommitIndex core).commitIndex < i) (hlast : i ≤ core.log.lastIndex)
    (hterm : core.log.termAt i = core.term) :
    core.effectiveConfig.hasQuorum (fun voter => decide (i ≤ l.matchOf voter)) = false := by
  by_contra hquorum
  have hpass : (decide (core.log.termAt i = core.term) &&
      core.effectiveConfig.hasQuorum (fun voter => decide (i ≤ l.matchOf voter))) = true := by
    simp [hterm, Bool.eq_true_of_not_eq_false hquorum]
  have hcommit : core.commitIndex ≤ (l.advanceCommitIndex core).commitIndex := by
    rcases l.advanceCommitIndex_cases core with hstays | ⟨k, hadv, hlt, _⟩
    · rw [hstays]
    · rw [hadv]
      exact hlt.le
  have hmem : i ∈ (List.range' (core.commitIndex + 1)
      (core.log.lastIndex - core.commitIndex)).reverse := by
    rw [List.mem_reverse, List.mem_range'_1]
    omega
  unfold advanceCommitIndex at hi
  dsimp only at hi
  cases hfind : (List.range' (core.commitIndex + 1)
      (core.log.lastIndex - core.commitIndex)).reverse.find? (fun candidate =>
        decide (core.log.termAt candidate = core.term) &&
          core.effectiveConfig.hasQuorum (fun voter => decide (candidate ≤ l.matchOf voter))) with
  | none => exact List.find?_eq_none.mp hfind i hmem hpass
  | some c =>
    rw [hfind] at hi
    change c < i at hi
    -- the candidates are searched downwards, so a higher one would have been found first
    obtain ⟨_, before, after, hsplit, hfail⟩ := List.find?_eq_some_iff_append.mp hfind
    have hsorted : (List.range' (core.commitIndex + 1)
        (core.log.lastIndex - core.commitIndex)).reverse.Pairwise (· > ·) := by
      rw [List.pairwise_reverse]
      exact List.pairwise_lt_range'
    rw [hsplit] at hmem hsorted
    have hbelow := (List.pairwise_cons.mp (List.pairwise_append.mp hsorted).2.1).1
    rcases List.mem_append.mp hmem with hb | hb
    · have := hfail i hb
      rw [hpass] at this
      cases this
    · rcases List.mem_cons.mp hb with rfl | hb
      · exact lt_irrefl _ hi
      · exact absurd (hbelow i hb) (by omega)

/-- One round raises the commit index only to an entry of the current term that a quorum of
the configuration in force holds. -/
def RaisesCommit (l : Leader) (core : Core) (commit : ℕ) : Prop :=
  core.commitIndex < commit ∧ commit ≤ core.log.lastIndex ∧
    core.log.termAt commit = core.term ∧
    (0 < core.term → core.log.snapshotIndex < commit →
      ∃ e, core.log.get commit = some e ∧ e.term = core.term) ∧
    core.effectiveConfig.hasQuorum (fun voter => decide (commit ≤ l.matchOf voter)) = true

/-- The rule for a result of `maybe_commit`. The rounds are the states in which the loop
begins a round; each leaves the commit index to the next one as it has raised it. -/
structure CommitRule (l : Leader) (core : Core) (r : Leader × Core × Effects × Bool) : Prop where
  monotone : core.commitIndex ≤ r.2.1.commitIndex
  rounds : ∀ s, Head commitBody (l, core, Effects.none) s →
    (s.1.advanceCommitIndex s.2.1).commitIndex = s.2.1.commitIndex ∨
      RaisesCommit s.1 s.2.1 (s.1.advanceCommitIndex s.2.1).commitIndex
  next : ∀ s t, Head commitBody (l, core, Effects.none) s → commitBody s = .inl t →
    t.2.1.commitIndex = (s.1.advanceCommitIndex s.2.1).commitIndex
  last : ∃ s, Head commitBody (l, core, Effects.none) s ∧ r.1 = s.1 ∧
    r.2.1 = s.1.advanceCommitIndex s.2.1
  highest : r.2.2.2 = false → ∀ i, r.2.1.commitIndex < i → i ≤ r.2.1.log.lastIndex →
    r.2.1.log.termAt i = r.2.1.term →
    r.2.1.effectiveConfig.hasQuorum (fun voter => decide (i ≤ r.1.matchOf voter)) = false

theorem advanceCommitIndex_raises (l : Leader) (core : Core) :
    (l.advanceCommitIndex core).commitIndex = core.commitIndex ∨
      RaisesCommit l core (l.advanceCommitIndex core).commitIndex := by
  rcases l.advanceCommitIndex_cases core with hstays | ⟨i, hadv, hlt, hlast, hterm, hquorum⟩
  · exact Or.inl (by rw [hstays])
  · right
    rw [hadv]
    refine ⟨hlt, hlast, hterm, ?_, hquorum⟩
    intro hpos habove
    change core.log.snapshotIndex < i at habove
    change ∃ e, core.log.get i = some e ∧ e.term = core.term
    rw [Log.termAt_above habove] at hterm
    cases hget : core.log.get i with
    | none =>
      rw [hget] at hterm
      exact absurd hterm hpos.ne
    | some e =>
      rw [hget] at hterm
      exact ⟨e, rfl, hterm⟩

theorem advanceCommitIndex_frame (l : Leader) (core : Core) :
    core.commitIndex ≤ (l.advanceCommitIndex core).commitIndex ∧
      (l.advanceCommitIndex core).persistent = core.persistent := by
  rcases l.advanceCommitIndex_cases core with hstays | ⟨i, hadv, hlt, _⟩
  · rw [hstays]
    exact ⟨le_rfl, rfl⟩
  · rw [hadv]
    exact ⟨hlt.le, rfl⟩

theorem commitBody_next {s t : Leader × Core × Effects} (h : commitBody s = .inl t) :
    t.2.1.commitIndex = (s.1.advanceCommitIndex s.2.1).commitIndex := by
  obtain ⟨i, hadv, _, _, _, _, _, _, _, _, _, _, hcore, _⟩ := commitBody_continue h
  rw [hadv, hcore]
  rfl

/-- What the last round returns. -/
theorem commitBody_result {s : Leader × Core × Effects} {r : Leader × Core × Effects × Bool}
    (h : commitBody s = .inr r) : r.1 = s.1 ∧ r.2.1 = s.1.advanceCommitIndex s.2.1 := by
  unfold commitBody at h
  dsimp only at h
  split_ifs at h with hsame
  · obtain rfl := Sum.inr.inj h
    exact ⟨rfl, rfl⟩
  · cases hp : s.1.processCommittedConfigs (s.1.advanceCommitIndex s.2.1) s.2.1.commitIndex with
    | continue_ l core e => rw [hp] at h; cases h
    | stepDown e =>
      rw [hp] at h
      obtain rfl := Sum.inr.inj h
      exact ⟨rfl, rfl⟩
    | done =>
      rw [hp] at h
      obtain rfl := Sum.inr.inj h
      exact ⟨rfl, rfl⟩

theorem commitRule_of_returns {l : Leader} {core : Core} {r : Leader × Core × Effects × Bool}
    (h : Returns commitBody (l, core, Effects.none) r) : CommitRule l core r := by
  obtain ⟨s, hhead, hlast⟩ := h.last
  obtain ⟨hrole, hcore⟩ := commitBody_result hlast
  obtain ⟨hraised, hpersistent⟩ := advanceCommitIndex_frame s.1 s.2.1
  refine ⟨?_, fun s _ => advanceCommitIndex_raises s.1 s.2.1, fun s t _ => commitBody_next,
    ⟨s, hhead, hrole, hcore⟩, ?_⟩
  · have hbefore : core.commitIndex ≤ s.2.1.commitIndex := by
      refine hhead.invariant (P := fun s => core.commitIndex ≤ s.2.1.commitIndex) ?_ le_rfl
      intro s t hb hle
      rw [commitBody_next hb]
      exact hle.trans (advanceCommitIndex_frame s.1 s.2.1).1
    rw [hcore]
    exact hbefore.trans hraised
  · intro _ i hi hle hterm
    rw [hrole]
    rw [hcore] at hi hle hterm ⊢
    -- the last round changes nothing but the commit index
    have hlog : (s.1.advanceCommitIndex s.2.1).log = s.2.1.log := by
      rw [Core.log, hpersistent]
      rfl
    have hconfig : (s.1.advanceCommitIndex s.2.1).effectiveConfig = s.2.1.effectiveConfig := by
      rw [Core.effectiveConfig, Core.configAt, hpersistent]
      rfl
    have hown : (s.1.advanceCommitIndex s.2.1).term = s.2.1.term := by
      rw [Core.term, hpersistent]
      rfl
    rw [hlog] at hle hterm
    rw [hown] at hterm
    rw [hconfig]
    exact advanceCommitIndex_highest s.1 s.2.1 hi hle hterm

end Leader
open LoopRuns Leader

/-- The commit rule, for every leader and every log: the loop of `maybe_commit` returns exactly
one result, which is what the bounded loop computes, and the result keeps the rule. -/
theorem maybe_commit_rule (l : Leader) (core : Core) :
    ∃ r, (∀ r', Returns commitBody (l, core, Effects.none) r' ↔ r' = r) ∧
      (core.log.Contiguous → l.maybeCommit core = r) ∧ CommitRule l core r := by
  obtain ⟨r, hr⟩ := commitLoop_returns (l, core, Effects.none)
  refine ⟨r, ?_, fun h => returns_maybeCommit h hr, commitRule_of_returns hr⟩
  intro r'
  constructor
  · intro hr'
    exact hr'.unique hr
  · intro heq
    rw [heq]
    exact hr

end BasisDB.Raft
