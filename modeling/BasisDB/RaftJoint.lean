import BasisDB.RaftReconfigRuns

/-! Joint configurations are completed: a leader that commits one appends its
successor in the same step, as long as it was not committed before it led. -/
namespace BasisDB.Raft

/-- The latest configuration entry of a log. -/
def Log.latestConfig (log : Log) : Option Entry :=
  log.entries.reverse.find? (fun e => e.payload.isConfig)

theorem Log.latestConfig_append (log : Log) (e : Entry) :
    (log.append e).latestConfig = if e.payload.isConfig then some e else log.latestConfig := by
  simp only [latestConfig, append, List.reverse_append, List.reverse_singleton,
    List.singleton_append, List.find?_cons]
  cases e.payload.isConfig <;> rfl

theorem Log.latestConfig_mem {log : Log} {e : Entry} (h : log.latestConfig = some e) :
    e ∈ log.entries := List.mem_reverse.mp (List.mem_of_find?_eq_some h)

theorem Log.latestConfig_isConfig {log : Log} {e : Entry} (h : log.latestConfig = some e) :
    e.payload.isConfig = true := by
  have := List.find?_some h
  exact this

def Entry.isJoint (e : Entry) : Bool := e.payload.asConfig.any Configuration.isJoint

/-- The latest configuration is a joint one at or below the commit index. -/
def Core.committedJoint (core : Core) : Bool :=
  core.log.latestConfig.any (fun e => e.isJoint && decide (e.index ≤ core.commitIndex))

theorem Core.committedJoint_congr {core core' : Core} (hlog : core'.log = core.log)
    (hcommit : core'.commitIndex = core.commitIndex) :
    core'.committedJoint = core.committedJoint := by
  rw [committedJoint, committedJoint, hlog, hcommit]

theorem Core.committedJoint_eq_false {core : Core} :
    core.committedJoint = false ↔ ∀ e, core.log.latestConfig = some e → e.isJoint = true →
      core.commitIndex < e.index := by
  unfold committedJoint
  cases core.log.latestConfig with
  | none => simp
  | some e => simp

namespace Leader
variable {core : Core}

theorem appendOwn_latestConfig (core : Core) (payload : EntryPayload) :
    (appendOwn core payload).log.latestConfig =
      if payload.isConfig then
        some { term := core.term, index := core.log.lastIndex + 1, payload := payload }
      else core.log.latestConfig := Log.latestConfig_append _ _

/-- Appending a command, or a configuration above the commit index. -/
theorem appendOwn_open (h : core.committedJoint = false) (payload : EntryPayload)
    (hp : payload.isConfig = true → core.commitIndex < core.log.lastIndex + 1) :
    (appendOwn core payload).committedJoint = false := by
  rw [Core.committedJoint_eq_false] at h ⊢
  intro e he hj
  rw [appendOwn_latestConfig] at he
  split_ifs at he with hc
  · cases he
    exact hp hc
  · exact h e he hj

/-- Appending the successor of a joint configuration. -/
theorem appendOwn_target_open {cfg target : Configuration}
    (htarget : cfg.transitionTarget = some target) :
    (appendOwn core (.config target)).committedJoint = false := by
  rw [Core.committedJoint_eq_false]
  intro e he hj
  simp only [appendOwn_latestConfig, EntryPayload.isConfig, if_true] at he
  cases he
  have hjoint : target.isJoint = true := hj
  rw [(Configuration.transitionTarget_isJoint htarget).2] at hjoint
  cases hjoint

/-- A joint configuration that the commit index moves over is found by the loop. -/
theorem crossed_joint {i : ℕ} (hplain : core.log.Plain) (h : core.committedJoint = false)
    (hopen : (core.setCommitIndex i).committedJoint = true) :
    ∃ idx e cfg target, core.commitIndex < idx ∧ idx ≤ i ∧ core.log.get idx = some e ∧
      e.payload = .config cfg ∧ cfg.transitionTarget = some target := by
  rw [Core.committedJoint_eq_false] at h
  have hne : ¬ ∀ e, core.log.latestConfig = some e → e.isJoint = true → i < e.index := by
    intro hall
    rw [Core.committedJoint_eq_false.mpr hall] at hopen
    cases hopen
  push Not at hne
  obtain ⟨e, he, hj, hi⟩ := hne
  have hlt := h e he hj
  obtain ⟨j, hjget⟩ := List.getElem?_of_mem (Log.latestConfig_mem he)
  have hidx := hplain.numbered.index_of_getElem? hjget
  cases hp : e.payload with
  | command cmd => simp [Entry.isJoint, hp, EntryPayload.asConfig] at hj
  | config cfg =>
    cases cfg with
    | simple voters learners =>
      simp [Entry.isJoint, hp, EntryPayload.asConfig, Configuration.isJoint] at hj
    | joint old new learners =>
      refine ⟨e.index, e, _, _, hlt, hi, ?_, hp, rfl⟩
      rw [hidx, show 0 + j + 1 = j + 1 by omega, hplain.get_succ]
      exact hjget

theorem maybeCommitLoop_open (fuel : ℕ) (l : Leader) (core : Core) (effects : Effects)
    (hplain : core.log.Plain) (hterm : 0 < core.term) (h : core.committedJoint = false) :
    (maybeCommitLoop fuel l core effects).2.2.2 = false →
      (maybeCommitLoop fuel l core effects).2.1.committedJoint = false := by
  induction fuel generalizing l core effects with
  | zero => exact fun _ => h
  | succ fuel ih =>
    have hround := maybeCommitLoop_round fuel l core effects
    generalize maybeCommitLoop (fuel + 1) l core effects = r at hround
    cases hround with
    | unchanged => exact fun _ => h
    | transition i idx e cfg target _ _ _ _ _ _ _ htarget =>
      -- the successor is the latest configuration now
      exact ih _ _ _ (appendOwn_plain hplain hterm _) hterm (appendOwn_target_open htarget)
    | stepDown => exact fun hf => absurd hf Bool.noConfusion
    | done i _ _ hnone =>
      intro _
      by_contra hopen
      rw [Bool.not_eq_false] at hopen
      obtain ⟨idx, e, cfg, target, hold, hnew, hget, hcfg, htarget⟩ := crossed_joint hplain h hopen
      have hno := hnone idx hold hnew e cfg hget hcfg
      rw [htarget] at hno
      cases hno

theorem commitStep_open (l : Leader) (hplain : core.log.Plain) (hterm : 0 < core.term)
    (h : core.committedJoint = false) :
    (l.commitStep core).result.transition = .stay ∧ (l.commitStep core).core.committedJoint = false ∨
      (l.commitStep core).result.transition = .toFollower none := by
  have hopen := maybeCommitLoop_open (pendingJoints core + 1) l core Effects.none hplain hterm h
  cases hdown : (maybeCommitLoop (pendingJoints core + 1) l core Effects.none).2.2.2 with
  | true =>
    right
    simp [commitStep, maybeCommit, hdown, StepResult.toFollower]
  | false =>
    left
    exact ⟨by simp [commitStep, maybeCommit, hdown, StepResult.stay], hopen hdown⟩

theorem commitAndReplicate_open (l : Leader) (hplain : core.log.Plain) (hterm : 0 < core.term)
    (h : core.committedJoint = false) (hstay : (l.commitAndReplicate core).2.2.2 = false) :
    (l.commitAndReplicate core).2.1.committedJoint = false :=
  maybeCommitLoop_open (pendingJoints core + 1) l core Effects.none hplain hterm h hstay

/-- Either the leader steps down, or a joint configuration is still not its latest
committed one. -/
def StaysOpen (s : Stepped Leader) : Prop :=
  (s.result.transition = .stay ∧ s.core.committedJoint = false) ∨
    ∃ leader, s.result.transition = .toFollower leader

theorem handleAppendResponse_open (l : Leader) (hplain : core.log.Plain) (hterm : 0 < core.term)
    (h : core.committedJoint = false) (sender : NodeId) (resp : AppendResponse) :
    StaysOpen (l.handleAppendResponse core sender resp) := by
  unfold handleAppendResponse
  split_ifs
  · exact Or.inl ⟨rfl, h⟩
  · exact (commitStep_open _ hplain hterm h).imp_right (fun hd => ⟨none, hd⟩)
  · exact (commitStep_open _ hplain hterm h).imp_right (fun hd => ⟨none, hd⟩)
  · exact Or.inl ⟨rfl, h⟩
  · exact Or.inl ⟨rfl, h⟩

theorem handleInstallSnapshotResponse_open (l : Leader) (hplain : core.log.Plain)
    (hterm : 0 < core.term) (h : core.committedJoint = false) (sender : NodeId)
    (resp : InstallSnapshotResponse) :
    StaysOpen (l.handleInstallSnapshotResponse core sender resp) := by
  unfold handleInstallSnapshotResponse
  split_ifs
  · exact Or.inl ⟨rfl, h⟩
  · exact Or.inl ⟨rfl, h⟩
  · exact (commitStep_open _ hplain hterm h).imp_right (fun hd => ⟨none, hd⟩)

theorem handleMessage_open (l : Leader) (hplain : core.log.Plain) (hterm : 0 < core.term)
    (h : core.committedJoint = false) (msg : Message) : StaysOpen (l.handleMessage core msg) := by
  unfold handleMessage
  split
  · exact Or.inl ⟨rfl, h⟩
  · by_cases hlt : core.term < msg.term
    · rw [if_pos hlt]
      exact Or.inr ⟨_, rfl⟩
    rw [if_neg hlt]
    by_cases hgt : msg.term < core.term
    · rw [if_pos hgt]
      exact Or.inl ⟨rfl, h⟩
    rw [if_neg hgt]
    split
    · exact handleAppendResponse_open l hplain hterm h _ _
    · exact handleInstallSnapshotResponse_open l hplain hterm h _ _
    all_goals exact Or.inl ⟨rfl, h⟩

theorem step_open (l : Leader) (hplain : core.log.Plain) (hterm : 0 < core.term)
    (h : core.committedJoint = false) (event : Event) : StaysOpen (l.step core event) := by
  cases event with
  | tick =>
    simp only [step, handleTick]
    split_ifs
    · exact Or.inl ⟨rfl, h⟩
    · exact Or.inl ⟨rfl, h⟩
  | diskWriteComplete index =>
    simp only [step, handleDiskWriteComplete]
    split_ifs
    · exact (commitStep_open _ hplain hterm h).imp_right (fun hd => ⟨none, hd⟩)
    · exact Or.inl ⟨rfl, h⟩
  | message msg => exact handleMessage_open l hplain hterm h msg

end Leader
end BasisDB.Raft
