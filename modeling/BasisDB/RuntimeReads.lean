import BasisDB.RuntimeOwned

/-! What a reader can see. The KV state is read between two commands that a task applies, and
what a task has applied by then is what it leaves when it is dropped there. A read in the middle
of a run therefore sees the end of a run that is cut short. -/
namespace BasisDB.Runtime
open BasisDB.Raft BasisDB.Kv

/-- The task, dropped after so many turns if it gets that far. -/
def Task.dropAfter (task : Task) (turn : ℕ) : Task :=
  { task with dropped := some (task.dropped.elim turn (min turn)) }

def RuntimeAction.dropAfter (turn : ℕ) : RuntimeAction → RuntimeAction
  | .tick n task => .tick n (task.dropAfter turn)
  | .deliver k task => .deliver k (task.dropAfter turn)
  | .propose n command task => .propose n command (task.dropAfter turn)
  | .cleanup n index id => .cleanup n index id
  | .restart n => .restart n

namespace RaftRuntime
variable {codec : Codec} {r : RaftRuntime} {task : Task}

theorem applyCommitted_nothing (codec : Codec) (h : r.node.committed = []) (t : ℕ) :
    applyCommitted codec t r = (r, []) := by
  cases t with
  | zero => rfl
  | succ t => rw [applyCommitted, h]

theorem applyCommitted_add (codec : Codec) (s t : ℕ) (r : RaftRuntime) :
    applyCommitted codec (s + t) r =
      ((applyCommitted codec t (applyCommitted codec s r).1).1,
        (applyCommitted codec s r).2 ++
          (applyCommitted codec t (applyCommitted codec s r).1).2) := by
  induction s generalizing r with
  | zero => rw [Nat.zero_add]; rfl
  | succ s ih =>
    cases hes : r.node.committed with
    | nil => simp only [applyCommitted_nothing codec hes, List.nil_append]
    | cons entry es =>
      rw [Nat.succ_add, applyCommitted, applyCommitted]
      simp only [hes]
      rw [ih, List.append_assoc]

/-- After as many turns as there are indices to apply, nothing is left. -/
theorem applyCommitted_empties (codec : Codec) (hlog : r.node.core.log.Contiguous) {t : ℕ}
    (ht : r.turns ≤ t) : (applyCommitted codec t r).1.node.committed = [] := by
  induction t generalizing r with
  | zero =>
    have hzero : r.node.core.commitIndex - r.node.core.lastApplied = 0 := Nat.le_zero.mp ht
    show r.node.committed = []
    rw [RaftNode.committed_eq, hzero]
    rfl
  | succ t ih =>
    cases hes : r.node.committed with
    | nil =>
      rw [applyCommitted_nothing codec hes]
      exact hes
    | cons entry es =>
      have hnode := (applyEntry_frame codec r entry).1
      have hlow := ((RaftNode.mem_committed hlog).mp (hes ▸ List.mem_cons_self)).1
      simp only [applyCommitted, hes]
      apply ih
      · rw [hnode]
        exact hlog
      · rw [turns, hnode]
        rw [turns] at ht
        show r.node.core.commitIndex - entry.index ≤ t
        omega

/-- Fewer turns give fewer answers, and more turns than needed give no more. -/
theorem applyCommitted_subset (codec : Codec) (hlog : r.node.core.log.Contiguous) {s t : ℕ}
    (h : s ≤ t ∨ r.turns ≤ t) :
    (applyCommitted codec s r).2 ⊆ (applyCommitted codec t r).2 := by
  rcases le_or_gt s t with hst | hts
  · obtain ⟨d, rfl⟩ := Nat.exists_eq_add_of_le hst
    rw [applyCommitted_add]
    exact List.subset_append_left _ _
  · obtain ⟨d, rfl⟩ := Nat.exists_eq_add_of_le hts.le
    have hdone := applyCommitted_empties codec hlog (h.resolve_left (by omega))
    rw [applyCommitted_add, applyCommitted_nothing codec hdone, List.append_nil]
    exact List.Subset.refl _

theorem handleEffects_dropAfter (codec : Codec) (hlog : r.node.core.log.Contiguous)
    (effects : Effects) (task : Task) (turn : ℕ) :
    (r.handleEffects codec effects (task.dropAfter turn)).completions ⊆
      (r.handleEffects codec effects task).completions := by
  unfold handleEffects
  have hwrite : (task.dropAfter turn).write = task.write := rfl
  rw [hwrite]
  have hsave : (if effects.persist then r.save task.write else (r, none)).1.node = r.node := by
    rw [saveIf_eq]
  generalize (if effects.persist then r.save task.write else (r, none)) = saved at hsave
  obtain ⟨r', error⟩ := saved
  cases error with
  | some error => exact List.Subset.refl _
  | none =>
    dsimp only at hsave ⊢
    split_ifs
    · exact List.Subset.refl _
    · generalize r'.sendMessages effects.messages = sending
      obtain ⟨sent, sendError⟩ := sending
      cases sendError with
      | some error => exact List.Subset.refl _
      | none =>
        apply applyCommitted_subset codec (hsave ▸ hlog)
        show task.dropped.elim turn (min turn) ≤ task.dropped.getD r'.turns ∨
          r'.turns ≤ task.dropped.getD r'.turns
        cases task.dropped with
        | none => exact Or.inr le_rfl
        | some last => exact Or.inl (min_le_right turn last)

theorem drive_dropAfter (codec : Codec) (next : RaftNode × Effects) (turn : ℕ)
    (hlog : r.ensureHealthy task = true → next.1.core.log.Contiguous) :
    (r.drive codec (task.dropAfter turn) next).completions ⊆
      (r.drive codec task next).completions := by
  cases h : r.ensureHealthy task with
  | true =>
    have h' : r.ensureHealthy (task.dropAfter turn) = true := h
    rw [drive_completions codec next h, drive_completions codec next h']
    exact handleEffects_dropAfter (r := { r with node := next.1 }) codec (hlog h) next.2 task turn
  | false =>
    have h' : r.ensureHealthy (task.dropAfter turn) = false := h
    rw [drive_refused codec h, drive_refused codec h']
    exact List.Subset.refl _

/-- When a proposal is appended does not depend on where its task is dropped. -/
theorem propose_dropAfter (codec : Codec) (r : RaftRuntime) (command : KvCommand) (sender : ℕ)
    (task : Task) (turn : ℕ) :
    (r.propose codec command sender (task.dropAfter turn)).1 =
        (r.propose codec command sender task).1 ∨
    ∃ id bytes accepted, r.ensureHealthy task = true ∧ r.node.propose ⟨bytes⟩ = .ok accepted ∧
      (r.propose codec command sender task).1 =
        ({ r with nextProposalId := id }.awaitProposal codec r.nextProposalId bytes sender task
          accepted).1 ∧
      (r.propose codec command sender (task.dropAfter turn)).1 =
        ({ r with nextProposalId := id }.awaitProposal codec r.nextProposalId bytes sender
          (task.dropAfter turn) accepted).1 := by
  have hsame : r.ensureHealthy (task.dropAfter turn) = r.ensureHealthy task := rfl
  unfold propose
  rw [hsame]
  split_ifs with hhealthy
  · cases checkedSucc r.nextProposalId with
    | none => exact Or.inl rfl
    | some id =>
      cases codec.encode command with
      | none => exact Or.inl rfl
      | some bytes =>
        dsimp only
        cases haccepted : r.node.propose ⟨bytes⟩ with
        | error error => exact Or.inl rfl
        | ok accepted => exact Or.inr ⟨id, bytes, accepted, hhealthy, haccepted, rfl, rfl⟩
  · exact Or.inl rfl

/-- A step whose record is lost leaves the KV state alone. -/
theorem handleEffects_lost (codec : Codec) (r : RaftRuntime) {effects : Effects}
    (hp : effects.persist = true) (hl : task.write.lost = true) :
    (r.handleEffects codec effects task).runtime.state = r.state := by
  have hwrite : ∃ text, task.write = .failedLost text := by
    cases hw : task.write with
    | failedLost text => exact ⟨text, rfl⟩
    | synced | failedWritten text =>
      rw [hw] at hl
      cases hl
  obtain ⟨text, hwrite⟩ := hwrite
  rw [handleEffects, hp, hwrite]
  rfl

theorem drive_lost (codec : Codec) {next : RaftNode × Effects} (hp : next.2.persist = true)
    (hl : task.write.lost = true) : (r.drive codec task next).runtime.state = r.state := by
  have hlost := handleEffects_lost codec { r with node := next.1 } hp hl
  unfold drive fail
  split_ifs
  · exact hlost
  · exact hlost
  · rfl

theorem awaitProposal_lost (codec : Codec) (r : RaftRuntime) (id : ℕ) (bytes : List UInt8)
    (sender : ℕ) (index : ℕ) {effects : Effects} (node : RaftNode) (hp : effects.persist = true)
    (hl : task.write.lost = true) :
    (r.awaitProposal codec id bytes sender task (index, effects, node)).1.runtime.state =
      r.state := by
  have hlost := handleEffects_lost codec
    { r with node := node, waiters := r.waiters.insert index ⟨id, bytes, sender⟩ } hp hl
  unfold awaitProposal
  dsimp only
  generalize handleEffects codec
    { r with node := node, waiters := r.waiters.insert index ⟨id, bytes, sender⟩ } effects task =
    out at hlost
  obtain ⟨waiters, hremove⟩ := removePending_keeps out.runtime index id
  rw [hremove]
  cases out.error with
  | some error =>
    dsimp only [fail]
    split_ifs <;> exact hlost
  | none =>
    dsimp only
    split_ifs <;> exact hlost

end RaftRuntime

namespace RuntimeCluster
variable {codec : Codec} {configs : NodeId → NodeConfig} {peers : OrdSet NodeId}
  {acts : List RuntimeAction} {s : RuntimeCluster} {c : Cluster} {k turn : ℕ} {a : RuntimeAction}
  {n : NodeId}

/-- The run up to its action `k`, which is dropped after so many turns. -/
def interrupted (acts : List RuntimeAction) (k turn : ℕ) : List RuntimeAction :=
  acts.take k ++ (acts[k]?.map (RuntimeAction.dropAfter turn)).toList

/-- What there is to see while action `k` runs and has applied so many commands. -/
def during (codec : Codec) (s : RuntimeCluster) (acts : List RuntimeAction) (k turn : ℕ) :
    RuntimeCluster := s.run codec (interrupted acts k turn)

theorem interrupted_lt {i : ℕ} (hi : i < k) : (interrupted acts k turn)[i]? = acts[i]? := by
  rcases lt_or_ge i acts.length with hlen | hlen
  · rw [interrupted, List.getElem?_append_left (by rw [List.length_take]; omega),
      List.getElem?_take_of_lt hi]
  · have hnone : acts[k]? = none := List.getElem?_eq_none (by omega)
    rw [interrupted, hnone, Option.map_none, Option.toList_none, List.append_nil,
      List.getElem?_take_of_lt hi]

theorem interrupted_at : (interrupted acts k turn)[k]? =
    acts[k]?.map (RuntimeAction.dropAfter turn) := by
  cases ha : acts[k]? with
  | none =>
    have hlen := List.getElem?_eq_none_iff.mp ha
    rw [interrupted, ha, Option.map_none, Option.toList_none, List.append_nil,
      List.getElem?_take_eq_none le_rfl]
  | some a =>
    have hlen := (List.getElem?_eq_some_iff.mp ha).1
    have htake : (acts.take k).length = k := List.length_take_of_le hlen.le
    rw [interrupted, ha, List.getElem?_append_right htake.le, htake, Nat.sub_self]
    rfl

theorem interrupted_beyond (ha : acts[k]? = none) : interrupted acts k turn = acts := by
  rw [interrupted, ha, Option.map_none, Option.toList_none, List.append_nil,
    List.take_of_length_le (List.getElem?_eq_none_iff.mp ha)]

theorem length_interrupted_le : (interrupted acts k turn).length ≤ k + 1 := by
  rw [interrupted, List.length_append, List.length_take]
  have hone : (acts[k]?.map (RuntimeAction.dropAfter turn)).toList.length ≤ 1 := by
    cases acts[k]? <;> simp
  omega

theorem interrupted_take {j : ℕ} (hj : j ≤ k) : (interrupted acts k turn).take j = acts.take j := by
  apply List.ext_getElem?
  intro i
  rcases lt_or_ge i j with hi | hi
  · rw [List.getElem?_take_of_lt hi, List.getElem?_take_of_lt hi, interrupted_lt (by omega)]
  · rw [List.getElem?_take_eq_none hi, List.getElem?_take_eq_none hi]

theorem moment_interrupted (s : RuntimeCluster) {j : ℕ} (hj : j ≤ k) :
    s.moment codec (interrupted acts k turn) j = s.moment codec acts j := by
  rw [moment, moment, interrupted_take hj]

theorem during_eq (s : RuntimeCluster) : s.during codec acts k turn =
    s.moment codec (interrupted acts k turn) (k + 1) := by
  rw [during, moment, List.take_of_length_le length_interrupted_le]

theorem lowMoment_interrupted {j : ℕ} (hj : j ≤ k) :
    lowMoment codec configs peers (interrupted acts k turn) j =
      lowMoment codec configs peers acts j := by
  rw [lowMoment_eq, lowMoment_eq, interrupted_take hj]

theorem orderly_dropAfter : s.Orderly (a.dropAfter turn) ↔ s.Orderly a := by
  cases a <;> exact Iff.rfl

theorem takesOwn_iff : TakesOwn codec s acts ↔
    ∀ k a, acts[k]? = some a → (s.moment codec acts k).takesOwn a = true := by
  induction acts generalizing s with
  | nil => simp [TakesOwn]
  | cons b acts ih =>
    constructor
    · rintro ⟨hb, hacts⟩ k a ha
      cases k with
      | zero =>
        obtain rfl := Option.some.inj ha
        exact hb
      | succ k => exact ih.mp hacts k a ha
    · intro h
      exact ⟨h 0 b rfl, ih.mpr (fun k a ha => h (k + 1) a ha)⟩

/-- What holds of the actions of a run up to `k`, whatever their tasks are dropped after, holds
of the run that is cut short. -/
theorem interrupted_forall {P : ℕ → RuntimeAction → Prop}
    (h : ∀ i a, acts[i]? = some a → P i a) (hdrop : ∀ i a, P i a → P i (a.dropAfter turn)) :
    ∀ i a, (interrupted acts k turn)[i]? = some a → P i a := by
  intro i a ha
  rcases lt_trichotomy i k with hi | rfl | hi
  · rw [interrupted_lt hi] at ha
    exact h i a ha
  · rw [interrupted_at] at ha
    obtain ⟨b, hb, rfl⟩ := Option.map_eq_some_iff.mp ha
    exact hdrop i b (h i b hb)
  · have hlen : (interrupted acts k turn).length ≤ k + 1 := length_interrupted_le
    rw [List.getElem?_eq_none (by omega)] at ha
    cases ha

theorem lt_of_interrupted {i : ℕ} (ha : (interrupted acts k turn)[i]? = some a) : i ≤ k := by
  have hlen : (interrupted acts k turn).length ≤ k + 1 := length_interrupted_le
  have hi := (List.getElem?_eq_some_iff.mp ha).1
  omega

theorem OrderlyRun.interrupted (h : (init configs).OrderlyRun codec acts) (k turn : ℕ) :
    (init configs).OrderlyRun codec (interrupted acts k turn) := by
  intro i _ a ha
  rw [moment_interrupted _ (lt_of_interrupted ha)]
  exact interrupted_forall (P := fun i a => ((init configs).moment codec acts i).Orderly a)
    (fun i a ha => h.at ha) (fun i a ha => orderly_dropAfter.mpr ha) i a ha

theorem Truthful.interrupted (h : (init configs).Truthful codec acts) (k turn : ℕ) :
    (init configs).Truthful codec (interrupted acts k turn) := by
  have hdelivery (j task) (i : ℕ) (ha : acts[i]? = some (.deliver j task)) :
      ∀ msg ∈ ((init configs).moment codec acts i).net[j]?,
        (init configs).TruthfulDelivery codec acts i msg := by
    have hat := h i (List.getElem?_eq_some_iff.mp ha).1
    simp only [TruthfulAt, ha] at hat
    exact hat
  intro i hi
  unfold TruthfulAt
  split
  · rename_i j task ha
    have hik := lt_of_interrupted ha
    intro msg hmsg hfinds
    rw [moment_interrupted _ hik] at hmsg hfinds
    -- the delivery of the whole run, which may only be dropped later
    have htask : ∃ task', acts[i]? = some (.deliver j task') := by
      rcases hik.lt_or_eq with hlt | rfl
      · exact ⟨task, by rw [← interrupted_lt hlt]; exact ha⟩
      · rw [interrupted_at] at ha
        obtain ⟨b, hb, hdrop⟩ := Option.map_eq_some_iff.mp ha
        cases b with
        | deliver j' task' =>
          obtain ⟨rfl, -⟩ := RuntimeAction.deliver.inj hdrop
          exact ⟨task', hb⟩
        | tick | propose | cleanup | restart => cases hdrop
    obtain ⟨task', hacts⟩ := htask
    obtain ⟨m, hm, hheld⟩ := hdelivery j task' i hacts msg hmsg hfinds
    refine ⟨m, hm, ?_⟩
    have hmi := List.mem_range.mp hm
    rw [moment_interrupted _ (by omega), moment_interrupted _ hik]
    exact hheld
  · trivial

section Run
variable (hpeers : ∀ n, (configs n).peers = peers)
  (horderly : (init configs).OrderlyRun codec acts)

/-- The logs of all runtimes are well formed. -/
theorem log_contiguous (hown : TakesOwn codec (init configs) acts) (k : ℕ) (n : NodeId) :
    (((init configs).moment codec acts k).runtimes n).node.core.log.Contiguous :=
  ((run_sound codec (acts.take k) (init_sound configs) (hown.take k)).runtimes
    n).formed.plain.contiguous

/-- Whoever is answered in the middle of an action is answered when it is over. -/
theorem during_completions (hown : TakesOwn codec (init configs) acts) (k turn : ℕ) :
    ((init configs).during codec acts k turn).completions ⊆
      ((init configs).moment codec acts (k + 1)).completions := by
  have hcontiguous := log_contiguous hown (k + 1)
  rw [during_eq]
  cases ha : acts[k]? with
  | none =>
    rw [interrupted_beyond ha]
    exact List.Subset.refl _
  | some a =>
    have hsome : (interrupted acts k turn)[k]? = some (a.dropAfter turn) := by
      rw [interrupted_at, ha]
      rfl
    rw [moment_succ _ ha] at hcontiguous ⊢
    rw [moment_succ _ hsome, moment_interrupted _ le_rfl]
    generalize (init configs).moment codec acts k = s at hcontiguous ⊢
    -- the node that acts has a well-formed log once its step is done
    have hdrive (n : NodeId) (task : Task) (next : RaftNode × Effects)
        (hlog : (s.record n ((s.runtimes n).drive codec task next)).runtimes n =
          ((s.runtimes n).drive codec task next).runtime →
          ((s.runtimes n).drive codec task next).runtime.node.core.log.Contiguous) :
        (s.record n ((s.runtimes n).drive codec (task.dropAfter turn) next)).completions ⊆
          (s.record n ((s.runtimes n).drive codec task next)).completions := by
      apply List.append_subset.mpr
      refine ⟨List.subset_append_left _ _, List.subset_append_of_subset_right _ ?_⟩
      refine RaftRuntime.drive_dropAfter codec next turn (fun hhealthy => ?_)
      have hplain := hlog (Function.update_self _ _ _)
      rw [(RaftRuntime.drive_of codec hhealthy next).node] at hplain
      exact hplain
    cases a with
    | tick n task => exact hdrive n task _ (fun hself => hself ▸ hcontiguous n)
    | deliver i task =>
      simp only [RuntimeAction.dropAfter, step] at hcontiguous ⊢
      cases hi : s.net[i]? with
      | none => exact List.Subset.refl _
      | some message =>
        simp only [hi, receiveRaft] at hcontiguous ⊢
        cases hvalid : (s.runtimes message.receiver).validateMessage message with
        | error e => exact List.Subset.refl _
        | ok _ =>
          simp only [hvalid] at hcontiguous ⊢
          exact hdrive message.receiver task _ (fun hself => hself ▸ hcontiguous _)
    | propose n command task =>
      simp only [RuntimeAction.dropAfter, step] at hcontiguous ⊢
      apply List.append_subset.mpr
      refine ⟨List.subset_append_left _ _, List.subset_append_of_subset_right _ ?_⟩
      rcases (s.runtimes n).propose_dropAfter codec command s.calls.length task turn with
        heq | ⟨id, bytes, ⟨index, effects, node⟩, hhealthy, haccepted, hout, hout'⟩
      · rw [heq]
        exact List.Subset.refl _
      · have hlog := hcontiguous n
        rw [hout] at hlog ⊢
        simp only [record, Function.update_self] at hlog
        rw [(awaiting_of codec s n task id bytes index effects node).node] at hlog
        rw [hout', RaftRuntime.awaitProposal_completions, RaftRuntime.awaitProposal_completions]
        exact RaftRuntime.handleEffects_dropAfter codec hlog effects task turn
    | cleanup n index id => exact List.Subset.refl _
    | restart n => exact List.Subset.refl _

/-- Where a task is dropped makes no difference to which calls are made. -/
theorem during_calls (s : RuntimeCluster) (k turn : ℕ) :
    (s.during codec acts k turn).calls = (s.moment codec acts (k + 1)).calls := by
  rw [during_eq]
  cases ha : acts[k]? with
  | none => rw [interrupted_beyond ha]
  | some a =>
    have hsome : (interrupted acts k turn)[k]? = some (a.dropAfter turn) := by
      rw [interrupted_at, ha]
      rfl
    rw [moment_succ _ ha, moment_succ _ hsome, moment_interrupted _ le_rfl]
    generalize s.moment codec acts k = s
    have hdrive (n : NodeId) (task task' : Task) (next : RaftNode × Effects) :
        (s.record n ((s.runtimes n).drive codec task next)).calls =
          (s.record n ((s.runtimes n).drive codec task' next)).calls := by
      simp only [record, RaftRuntime.drive_appended]
    cases a with
    | tick n task => exact hdrive n _ _ _
    | deliver i task =>
      simp only [RuntimeAction.dropAfter, step]
      cases s.net[i]? with
      | none => rfl
      | some message =>
        dsimp only [receiveRaft]
        cases (s.runtimes message.receiver).validateMessage message with
        | error e => rfl
        | ok _ => exact hdrive message.receiver _ _ _
    | propose n command task =>
      simp only [RuntimeAction.dropAfter, step, record]
      rcases (s.runtimes n).propose_dropAfter codec command s.calls.length task turn with
        heq | ⟨id, bytes, accepted, -, -, hout, hout'⟩
      · rw [heq]
      · rw [hout, hout', RaftRuntime.awaitProposal_appended, RaftRuntime.awaitProposal_appended]
    | cleanup n index id => rfl
    | restart n => rfl

/-- Where a task is dropped matters to its node only in what is applied. -/
theorem lower_dropAfter (s : RuntimeCluster) (c : Cluster) (a : RuntimeAction) (turn : ℕ)
    (m : NodeId) :
    (((lower codec s c (a.dropAfter turn)).foldl Cluster.step c).nodes m).core.log =
        (((lower codec s c a).foldl Cluster.step c).nodes m).core.log ∧
      (((lower codec s c (a.dropAfter turn)).foldl Cluster.step c).nodes m).core.commitIndex =
        (((lower codec s c a).foldl Cluster.step c).nodes m).core.commitIndex := by
  have hadvance (c : Cluster) (n : NodeId) (i j : ℕ) :
      ((c.step (.advance n i)).nodes m).core.log = ((c.step (.advance n j)).nodes m).core.log ∧
        ((c.step (.advance n i)).nodes m).core.commitIndex =
          ((c.step (.advance n j)).nodes m).core.commitIndex := by
    simp only [Cluster.step, Cluster.setNode]
    rcases eq_or_ne m n with rfl | hm
    · simp only [Function.update_self]
      exact ⟨rfl, rfl⟩
    · simp only [Function.update_of_ne hm, and_self]
  have htask (n : NodeId) (r : RaftRuntime) (task : Task) (next : RaftNode × Effects)
      (out out' : Outcome) (b : Action) :
      (((lowerTask n r (task.dropAfter turn) next out' b).foldl Cluster.step c).nodes m).core.log =
          (((lowerTask n r task next out b).foldl Cluster.step c).nodes m).core.log ∧
        (((lowerTask n r (task.dropAfter turn) next out' b).foldl Cluster.step
            c).nodes m).core.commitIndex =
          (((lowerTask n r task next out b).foldl Cluster.step c).nodes m).core.commitIndex := by
    have hlands : r.lands (task.dropAfter turn) next = r.lands task next := rfl
    unfold lowerTask
    rw [hlands]
    split_ifs
    · exact hadvance (c.step b) n _ _
    · exact ⟨rfl, rfl⟩
  cases a with
  | tick n task => exact htask n _ task _ _ _ _
  | deliver i task =>
    simp only [RuntimeAction.dropAfter, lower]
    cases s.net[i]? with
    | none => exact ⟨rfl, rfl⟩
    | some message =>
      dsimp only
      cases (s.runtimes message.receiver).validateMessage message with
      | error e => exact ⟨rfl, rfl⟩
      | ok _ => exact htask message.receiver _ task _ _ _ _
  | propose n command task =>
    simp only [RuntimeAction.dropAfter, lower]
    rcases (s.runtimes n).propose_dropAfter codec command s.calls.length task turn with
      heq | ⟨id, bytes, accepted, -, haccepted, hout, hout'⟩
    · rw [heq]
      cases ((s.runtimes n).propose codec command s.calls.length task).1.appended with
      | none => exact ⟨rfl, rfl⟩
      | some call =>
        dsimp only
        cases (s.runtimes n).node.propose ⟨call.command⟩ with
        | error e => exact ⟨rfl, rfl⟩
        | ok accepted => exact htask n _ task _ _ _ _
    · rw [hout, hout']
      simp only [RaftRuntime.awaitProposal_appended, haccepted]
      exact htask n _ task _ _ _ _
  | cleanup n index id => exact ⟨rfl, rfl⟩
  | restart n => exact ⟨rfl, rfl⟩

theorem lowMoment_during (k turn : ℕ) (m : NodeId) :
    ((lowMoment codec configs peers (interrupted acts k turn) (k + 1)).nodes m).core.log =
        ((lowMoment codec configs peers acts (k + 1)).nodes m).core.log ∧
      ((lowMoment codec configs peers (interrupted acts k turn) (k + 1)).nodes m).core.commitIndex =
        ((lowMoment codec configs peers acts (k + 1)).nodes m).core.commitIndex := by
  cases ha : acts[k]? with
  | none =>
    rw [interrupted_beyond ha]
    exact ⟨rfl, rfl⟩
  | some a =>
    have hsome : (interrupted acts k turn)[k]? = some (a.dropAfter turn) := by
      rw [interrupted_at, ha]
      rfl
    rw [lowMoment_succ ha, lowMoment_succ hsome, moment_interrupted _ le_rfl,
      lowMoment_interrupted le_rfl]
    exact lower_dropAfter _ _ a turn m

/-- An action leaves a runtime's node in the cluster, its state and its `last_applied` alone. -/
structure Untouched (codec : Codec) (configs : NodeId → NodeConfig) (peers : OrdSet NodeId)
    (acts : List RuntimeAction) (k : ℕ) (n : NodeId) : Prop where
  node : (lowMoment codec configs peers acts (k + 1)).nodes n =
    (lowMoment codec configs peers acts k).nodes n
  state : (((init configs).moment codec acts (k + 1)).runtimes n).state =
    (((init configs).moment codec acts k).runtimes n).state
  lastApplied : (((init configs).moment codec acts (k + 1)).runtimes n).node.core.lastApplied =
    (((init configs).moment codec acts k).runtimes n).node.core.lastApplied

/-- Only the runtime that acted has to be looked at. -/
theorem Untouched.of_update {m : NodeId} {r : RaftRuntime}
    (hs : ((init configs).moment codec acts (k + 1)).runtimes =
      Function.update ((init configs).moment codec acts k).runtimes m r)
    (hnode : (lowMoment codec configs peers acts (k + 1)).nodes n =
      (lowMoment codec configs peers acts k).nodes n)
    (hr : n = m → r.state = (((init configs).moment codec acts k).runtimes m).state ∧
      r.node.core.lastApplied =
        (((init configs).moment codec acts k).runtimes m).node.core.lastApplied) :
    Untouched codec configs peers acts k n := by
  rcases eq_or_ne n m with rfl | hn
  · refine ⟨hnode, ?_, ?_⟩
    · rw [hs, Function.update_self]
      exact (hr rfl).1
    · rw [hs, Function.update_self]
      exact (hr rfl).2
  · exact ⟨hnode, by rw [hs, Function.update_of_ne hn], by rw [hs, Function.update_of_ne hn]⟩

variable (htrue : (init configs).Truthful codec acts)
include hpeers horderly htrue

/-- A task whose record reached the disk leaves a settled runtime. -/
theorem landed_settled {task : Task} {next : RaftNode × Effects} {out : Outcome} {act : Action}
    (ha : acts[k]? = some a)
    (hs' : (init configs).moment codec acts (k + 1) =
      ((init configs).moment codec acts k).record n out)
    (hlow : lower codec ((init configs).moment codec acts k)
        (lowMoment codec configs peers acts k) a =
      lowerTask n (((init configs).moment codec acts k).runtimes n) task next out act)
    (hof : out.Of (((init configs).moment codec acts k).runtimes n) task next)
    (hstep : (lowMoment codec configs peers acts k).step act =
      (lowMoment codec configs peers acts k).handleEffects n next)
    (hlands : (((init configs).moment codec acts k).runtimes n).lands task next = true) :
    out.runtime.Settled := by
  have hnode : (lowMoment codec configs peers acts (k + 1)).nodes n = out.runtime.node := by
    rw [lowMoment_succ ha, hlow]
    exact lowerTask_node hlands hof hstep
  have hdisk := ((moment_refines hpeers horderly (k + 1)).mirrors n).disk
  have hself : ((init configs).moment codec acts (k + 1)).runtimes n = out.runtime := by
    rw [hs']
    exact Function.update_self _ _ _
  have hr := lowered_respects hpeers horderly htrue
  obtain ⟨hs, ht⟩ := Cluster.tracked_run _ _ hr (loweredLength codec configs peers acts (k + 1))
  have hsaved : (lowMoment codec configs peers acts (k + 1)).disk n =
      ((lowMoment codec configs peers acts (k + 1)).nodes n).persistent :=
    (ht.sound _ le_rfl).disk n
  rw [hdisk, hnode, hself] at hsaved
  exact Or.inr hsaved.symm

/-- A task that leaves a runtime unsettled did not reach the runtime's node in the cluster, and
applied nothing. -/
theorem task_untouched {m : NodeId} {task : Task} {next : RaftNode × Effects} {out : Outcome}
    {act : Action} (ha : acts[k]? = some a)
    (hs' : (init configs).moment codec acts (k + 1) =
      ((init configs).moment codec acts k).record m out)
    (hlow : lower codec ((init configs).moment codec acts k)
        (lowMoment codec configs peers acts k) a =
      lowerTask m (((init configs).moment codec acts k).runtimes m) task next out act)
    (hhealthy : (((init configs).moment codec acts k).runtimes m).ensureHealthy task = true)
    (hof : out.Of (((init configs).moment codec acts k).runtimes m) task next)
    (hstep : (lowMoment codec configs peers acts k).step act =
      (lowMoment codec configs peers acts k).handleEffects m next)
    (hstate : next.2.persist = true → task.write.lost = true →
      out.runtime.state = (((init configs).moment codec acts k).runtimes m).state)
    (happlied : next.1.core.lastApplied =
      (((init configs).moment codec acts k).runtimes m).node.core.lastApplied)
    (hset : ¬(((init configs).moment codec acts (k + 1)).runtimes n).Settled) :
    Untouched codec configs peers acts k n := by
  rcases eq_or_ne n m with rfl | hn
  · have hself : ((init configs).moment codec acts (k + 1)).runtimes n = out.runtime := by
      rw [hs']
      exact Function.update_self _ _ _
    cases hlands : (((init configs).moment codec acts k).runtimes n).lands task next with
    | true =>
      -- the record is on disk, so the runtime would be settled
      have hsettled := landed_settled hpeers horderly htrue ha hs' hlow hof hstep hlands
      exact absurd (hself ▸ hsettled) hset
    | false =>
      obtain ⟨hp, hl, -⟩ := RaftRuntime.not_lands hhealthy hlands
      refine ⟨?_, ?_, ?_⟩
      · rw [lowMoment_succ ha, hlow, lowerTask, hlands]
        rfl
      · rw [hself]
        exact hstate hp hl
      · rw [hself, (hof.lost hp hl).2.2.2]
        exact happlied
  · refine .of_update (congrArg RuntimeCluster.runtimes hs') ?_ (fun heq => absurd heq hn)
    rw [lowMoment_succ ha, hlow]
    exact lowerTask_node_ne hstep hn

/-- So does every action that leaves a runtime unsettled. -/
theorem unsettled_untouched (ha : acts[k]? = some a)
    (hset : ¬(((init configs).moment codec acts (k + 1)).runtimes n).Settled) :
    Untouched codec configs peers acts k n := by
  have hcases := @moment_step codec configs acts k a ha
  have horderlyAt := horderly.at ha
  have href := moment_refines hpeers horderly k
  generalize hs' : (init configs).moment codec acts (k + 1) = s',
    hlows : (fun c => lower codec ((init configs).moment codec acts k) c a) = low at hcases
  have hlow : lower codec ((init configs).moment codec acts k)
      (lowMoment codec configs peers acts k) a = low (lowMoment codec configs peers acts k) :=
    congrFun hlows _
  -- an action that the nodes have no part in
  have hkept (hnone : low (lowMoment codec configs peers acts k) = []) :
      (lowMoment codec configs peers acts (k + 1)).nodes n =
        (lowMoment codec configs peers acts k).nodes n := by
    rw [lowMoment_succ ha, hlow, hnone]
    rfl
  cases hcases with
  | nothing => exact ⟨hkept rfl, by rw [hs'], by rw [hs']⟩
  | refused m id error =>
    refine .of_update (congrArg RuntimeCluster.runtimes hs') (hkept rfl) ?_
    rintro rfl
    exact ⟨rfl, rfl⟩
  | event m task event act hhealthy hsettled hevent hact hstep =>
    refine task_untouched hpeers horderly htrue ha hs' hlow hhealthy
      (RaftRuntime.drive_of codec hhealthy _) (hstep _ href (hsettled horderlyAt))
      (RaftRuntime.drive_lost codec) ?_ hset
    apply RaftNode.stepEvent_lastApplied
    rintro message rfl
    rcases hevent.valid with hevent | ⟨message', hmem, hevent, -⟩
    · cases hevent
    · cases hevent
      exact (net_formed hpeers horderly htrue k message hmem).not_installSnapshot
  | proposal m command task id bytes index effects node hhealthy hsettled hencode haccepted hstep =>
    exact task_untouched hpeers horderly htrue ha hs' hlow hhealthy
      (awaiting_of codec _ m task id bytes index effects node)
      (hstep _ href (hsettled horderlyAt)) (RaftRuntime.awaitProposal_lost codec _ _ _ _ _ _)
      (RaftNode.propose_lastApplied haccepted) hset
  | cleanup m waiters hsub =>
    refine .of_update (congrArg RuntimeCluster.runtimes hs') (hkept rfl) ?_
    rintro rfl
    exact ⟨rfl, rfl⟩
  | restart m =>
    rcases eq_or_ne n m with rfl | hn
    · have hself := congrFun (congrArg RuntimeCluster.runtimes hs') n
      refine absurd (Or.inl ?_) hset
      rw [hself]
      simp only [setRuntime, Function.update_self]
      rfl
    · refine .of_update (congrArg RuntimeCluster.runtimes hs') ?_ (fun heq => absurd heq hn)
      rw [lowMoment_succ ha, hlow]
      exact Function.update_of_ne hn _ _

/-- The KV state of a runtime, settled or not, is the commands that its node in the cluster has
committed, up to the runtime's `last_applied`. -/
theorem state_replayed (k : ℕ) (n : NodeId) :
    (((init configs).moment codec acts k).runtimes n).state =
        replay codec (((lowMoment codec configs peers acts k).nodes n).commandsUpTo
          (((init configs).moment codec acts k).runtimes n).node.core.lastApplied) ∧
      (((init configs).moment codec acts k).runtimes n).node.core.lastApplied ≤
        ((lowMoment codec configs peers acts k).nodes n).core.commitIndex := by
  induction k generalizing n with
  | zero => exact ⟨rfl, Nat.zero_le _⟩
  | succ k ih =>
    by_cases hset : (((init configs).moment codec acts (k + 1)).runtimes n).Settled
    · obtain ⟨hnode, hcommit⟩ := settled_committed hpeers horderly htrue hset
      refine ⟨?_, hcommit⟩
      rw [hnode]
      exact ((consistent_moment hpeers horderly htrue (k + 1)).replayed n hset).state
    -- the runtime is out of step with its store: its node in the cluster stands where it stood
    have hkept : Untouched codec configs peers acts k n := by
      cases ha : acts[k]? with
      | none =>
        have htake : acts.take (k + 1) = acts.take k := by
          rw [List.take_add_one, ha, Option.toList_none, List.append_nil]
        refine ⟨by rw [lowMoment_eq, lowMoment_eq, htake], ?_, ?_⟩
        all_goals rw [moment_beyond _ ha]
      | some a => exact unsettled_untouched hpeers horderly htrue ha hset
    rw [hkept.node, hkept.state, hkept.lastApplied]
    exact ih n

end Run
end RuntimeCluster
end BasisDB.Runtime
