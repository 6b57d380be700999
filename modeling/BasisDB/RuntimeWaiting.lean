import BasisDB.RuntimeReplicas

/-! Which calls wait and are answered: only those whose entry reached the log of a leader, at the
index that they wait for. A call whose record was lost takes its waiter back. -/
namespace BasisDB.Raft

/-- The commit loop only ever appends. -/
theorem Leader.maybeCommitLoop_extends (fuel : ℕ) (l : Leader) (core : Core) (effects : Effects) :
    core.log.entries <+: (maybeCommitLoop fuel l core effects).2.1.log.entries := by
  induction fuel generalizing l core effects with
  | zero => exact List.prefix_rfl
  | succ fuel ih =>
    have hround := maybeCommitLoop_round fuel l core effects
    generalize maybeCommitLoop (fuel + 1) l core effects = r at hround
    cases hround with
    | unchanged => exact List.prefix_rfl
    | transition i idx e cfg target heq _ _ _ _ _ _ _ =>
      have happended : core.log.entries <+:
          (l.appendTransitionTarget (core.setCommitIndex i) target).2.1.log.entries :=
        List.prefix_append _ _
      exact happended.trans (ih _ _ _)
    | stepDown i cfg heq _ => exact List.prefix_rfl
    | done i heq _ _ => exact List.prefix_rfl

theorem Leader.maybeCommit_extends (l : Leader) (core : Core) :
    core.log.entries <+: (l.maybeCommit core).2.1.log.entries :=
  maybeCommitLoop_extends _ l core Effects.none

namespace RaftNode
variable {n n' : RaftNode} {cmd : Command} {index : ℕ} {effects : Effects}

/-- Only a leader accepts a proposal, and it appends the command. -/
theorem propose_appends (h : n.propose cmd = .ok (index, effects, n')) :
    n.isLeader = true ∧
      n.log.entries ++ [{ term := n.term, index := n.log.lastIndex + 1, payload := .command cmd }] <+:
        n'.log.entries := by
  unfold propose at h
  cases hr : n.role with
  | leader l =>
    simp only [hr] at h
    split_ifs at h
    simp only [Except.ok.injEq, Prod.mk.injEq] at h
    obtain ⟨-, -, rfl⟩ := h
    have hlog (l : Leader) (core : Core) (down : Bool) :
        (afterProposal l core down).log = core.log := by
      unfold afterProposal
      split_ifs <;> rfl
    refine ⟨by rw [isLeader, hr]; rfl, ?_⟩
    rw [hlog]
    exact Leader.maybeCommit_extends _ (Leader.appendOwn n.core (.command cmd))
  | follower f | preCandidate p | candidate c =>
    simp only [hr] at h
    cases h

end RaftNode
end BasisDB.Raft

namespace BasisDB.Runtime
open BasisDB.Raft BasisDB.Kv

/-- An answer to a proposal that waited at the entry's index: what the entry's command answers
after some commands were applied to the state, if the proposal takes the command for its own. -/
def Completion.Replies (codec : Codec) (waiters : OrdMap ℕ PendingProposal) (state : KvState)
    (done : Completion) : Prop :=
  ∃ pending, ∃ es : List CommittedEntry, waiters.get done.entry.index = some pending ∧
    done.sender = pending.sender ∧
    done.result = pending.complete done.entry.command
      (answerTo codec (es.foldl (RaftRuntime.applyTo codec) state) done.entry)

/-- A task leaves no waiter that was not there, answers only waiters, and applies commands. -/
structure Outcome.Waits (codec : Codec) (before : OrdMap ℕ PendingProposal) (state : KvState)
    (out : Outcome) : Prop where
  waiters : ∀ i pending, out.runtime.waiters.get i = some pending → before.get i = some pending
  applied : ∃ es : List CommittedEntry,
    out.runtime.state = es.foldl (RaftRuntime.applyTo codec) state
  replies : ∀ done ∈ out.completions, done.Replies codec before state

namespace RaftRuntime
variable {codec : Codec} {r : RaftRuntime}

/-- A task that answers nothing and applies nothing. -/
theorem waits_idle (codec : Codec) (r : RaftRuntime) {out : Outcome} (hout : out.completions = [])
    (hwaiters : ∀ i pending, out.runtime.waiters.get i = some pending →
      r.waiters.get i = some pending)
    (hstate : out.runtime.state = r.state) : out.Waits codec r.waiters r.state :=
  ⟨hwaiters, ⟨[], hstate⟩, fun _ hdone => absurd (hout ▸ hdone) List.not_mem_nil⟩

theorem applyEntry_replies (codec : Codec) (r : RaftRuntime) (entry : CommittedEntry) :
    ∀ done ∈ (r.applyEntry codec entry).2, done.Replies codec r.waiters r.state := by
  intro done hdone
  rw [applyEntry_answers, completeWaiter] at hdone
  cases hpending : r.waiters.get entry.index with
  | none => simp [hpending] at hdone
  | some pending =>
    simp only [hpending, List.mem_singleton] at hdone
    rw [hdone]
    exact ⟨pending, [], hpending, rfl, rfl⟩

theorem applyCommitted_waits (codec : Codec) (turns : ℕ) (r : RaftRuntime) :
    (∀ i pending, (applyCommitted codec turns r).1.waiters.get i = some pending →
      r.waiters.get i = some pending) ∧
    (∃ es : List CommittedEntry,
      (applyCommitted codec turns r).1.state = es.foldl (applyTo codec) r.state) ∧
    ∀ done ∈ (applyCommitted codec turns r).2, done.Replies codec r.waiters r.state := by
  induction turns generalizing r with
  | zero => exact ⟨fun _ _ h => h, ⟨[], rfl⟩, fun done hdone => absurd hdone List.not_mem_nil⟩
  | succ turns ih =>
    unfold applyCommitted
    cases r.node.committed with
    | nil => exact ⟨fun _ _ h => h, ⟨[], rfl⟩, fun done hdone => absurd hdone List.not_mem_nil⟩
    | cons entry rest =>
      have hnarrow := (narrows_applyEntry codec r entry).waiters
      have hstate := (applyEntry_frame codec r entry).2
      obtain ⟨hwaiters, ⟨es, hes⟩, hreplies⟩ := ih (r.applyEntry codec entry).1
      rw [hstate] at hes hreplies
      refine ⟨fun i pending h => hnarrow i pending (hwaiters i pending h), ⟨entry :: es, hes⟩,
        fun done hdone => ?_⟩
      rcases List.mem_append.mp hdone with hdone | hdone
      · exact applyEntry_replies codec r entry done hdone
      · obtain ⟨pending, es, hpending, hrest⟩ := hreplies done hdone
        exact ⟨pending, entry :: es, hnarrow _ pending hpending, hrest⟩

/-- A step whose effects meet an error leaves the waiters alone, and answers nothing. -/
theorem handleEffects_waits (codec : Codec) (r : RaftRuntime) (effects : Effects) (task : Task) :
    (r.handleEffects codec effects task).Waits codec r.waiters r.state ∧
      ((r.handleEffects codec effects task).error.isSome = true →
        (r.handleEffects codec effects task).runtime.waiters = r.waiters) := by
  obtain ⟨store, error, hsaved⟩ : ∃ store error,
      (if effects.persist then r.save task.write else (r, none)) =
        ({ r with store := store }, error) := ⟨_, _, saveIf_eq r effects.persist task.write⟩
  unfold handleEffects
  rw [hsaved]
  cases error with
  | some error => exact ⟨waits_idle codec r rfl (fun _ _ h => h) rfl, fun _ => rfl⟩
  | none =>
    dsimp only
    split_ifs
    · exact ⟨waits_idle codec r rfl (fun _ _ h => h) rfl, fun _ => rfl⟩
    · generalize sendMessages { r with store := store } effects.messages = sending
      obtain ⟨sent, sendError⟩ := sending
      cases sendError with
      | some error => exact ⟨waits_idle codec r rfl (fun _ _ h => h) rfl, fun _ => rfl⟩
      | none =>
        obtain ⟨hwaiters, hstate, hreplies⟩ := applyCommitted_waits codec
          (task.dropped.getD (turns { r with store := store })) { r with store := store }
        exact ⟨⟨hwaiters, hstate, hreplies⟩, fun h => Bool.noConfusion h⟩

theorem drive_waits (codec : Codec) (r : RaftRuntime) (task : Task) (next : RaftNode × Effects) :
    (r.drive codec task next).Waits codec r.waiters r.state := by
  have hout := (handleEffects_waits codec { r with node := next.1 } next.2 task).1
  unfold drive fail
  split_ifs
  · exact ⟨hout.waiters, hout.applied, hout.replies⟩
  · exact hout
  · exact waits_idle codec r rfl (fun _ _ h => h) rfl

/-- A proposal waits beside the others; if its record is lost, it does not. -/
theorem awaitProposal_waits (codec : Codec) (r : RaftRuntime) (id : ℕ) (bytes : List UInt8)
    (sender : ℕ) (task : Task) (index : ℕ) (effects : Effects) (node : RaftNode) :
    (r.awaitProposal codec id bytes sender task (index, effects, node)).1.Waits codec
        (r.waiters.insert index ⟨id, bytes, sender⟩) r.state ∧
      (effects.persist = true → task.write.lost = true →
        (r.awaitProposal codec id bytes sender task (index, effects, node)).1.Waits codec
          r.waiters r.state) := by
  obtain ⟨hwaits, herror⟩ := handleEffects_waits codec
    { r with node := node, waiters := r.waiters.insert index ⟨id, bytes, sender⟩ } effects task
  obtain ⟨-, -, -, -, hlost⟩ := handleEffects_keeps codec
    { r with node := node, waiters := r.waiters.insert index ⟨id, bytes, sender⟩ } effects task
  unfold awaitProposal
  dsimp only
  generalize handleEffects codec
    { r with node := node, waiters := r.waiters.insert index ⟨id, bytes, sender⟩ } effects task =
    out at *
  have hnarrow := (narrows_removePending out.runtime index id).waiters
  have hremoved (i : ℕ) (pending : PendingProposal)
      (h : (out.runtime.removePending index id).waiters.get i = some pending) :
      (r.waiters.insert index ⟨id, bytes, sender⟩).get i = some pending :=
    hwaits.waiters i pending (hnarrow i pending h)
  have hstate : ∃ es : List CommittedEntry, (out.runtime.removePending index id).state =
      es.foldl (applyTo codec) r.state := by
    obtain ⟨waiters, hremove⟩ := removePending_keeps out.runtime index id
    rw [hremove]
    exact hwaits.applied
  cases he : out.error with
  | some error =>
    rw [he] at hlost herror
    have hsame := herror rfl
    -- the waiter that was put there is found and taken back
    have hgone (i : ℕ) (pending : PendingProposal)
        (h : (out.runtime.removePending index id).waiters.get i = some pending) :
        r.waiters.get i = some pending := by
      rw [removePending, hsame] at h
      simp only [OrdMap.get_insert, if_true, Option.any_some, decide_true] at h
      rw [OrdMap.get_remove] at h
      split_ifs at h with hi
      rw [OrdMap.get_insert, if_neg hi] at h
      exact h
    refine ⟨?_, fun hp hl => ?_⟩
    · dsimp only [fail]
      split_ifs
      · exact ⟨hremoved, hstate, hwaits.replies⟩
      · exact ⟨hremoved, hstate, hwaits.replies⟩
    · have hnone := (hlost hp hl).2.2.1
      dsimp only [fail]
      split_ifs
      · exact ⟨hgone, hstate, fun done hdone => absurd (hnone ▸ hdone) List.not_mem_nil⟩
      · exact ⟨hgone, hstate, fun done hdone => absurd (hnone ▸ hdone) List.not_mem_nil⟩
  | none =>
    rw [he] at hlost
    refine ⟨?_, fun hp hl => Bool.noConfusion (hlost hp hl).1⟩
    dsimp only
    split_ifs
    · exact ⟨hremoved, hstate, hwaits.replies⟩
    · exact ⟨hwaits.waiters, hwaits.applied, hwaits.replies⟩

end RaftRuntime

namespace RuntimeCluster
variable {codec : Codec} {configs : NodeId → NodeConfig} {peers : OrdSet NodeId}
  {acts : List RuntimeAction} {k : ℕ} {a : RuntimeAction} {n : NodeId}

theorem calls_isPrefix (codec : Codec) (s : RuntimeCluster) (acts : List RuntimeAction) {j : ℕ}
    (hjk : j ≤ k) :
    (s.moment codec acts j).calls <+: (s.moment codec acts k).calls := by
  induction k, hjk using Nat.le_induction with
  | base => exact List.prefix_rfl
  | succ k _ ih =>
    refine ih.trans ?_
    cases ha : acts[k]? with
    | none => rw [moment_beyond _ ha]
    | some a =>
      rw [moment_succ _ ha]
      exact (step_cases codec _ a).calls

/-- Call number `p` was made between moments `j` and `j + 1`, on a node that led the call's term,
and its entry is then in that node's log, at the end of what was there. -/
structure Placed (codec : Codec) (configs : NodeId → NodeConfig) (peers : OrdSet NodeId)
    (acts : List RuntimeAction) (p : ℕ) (call : ProposeCall) (j : ℕ) : Prop where
  number : ((init configs).moment codec acts j).calls.length = p
  made : ((init configs).moment codec acts (j + 1)).calls[p]? = some call
  leads : ((lowMoment codec configs peers acts j).nodes call.node).isLeader = true
  term : ((lowMoment codec configs peers acts j).nodes call.node).term = call.term
  index : call.index = ((lowMoment codec configs peers acts j).nodes call.node).log.lastIndex + 1
  stored : ((lowMoment codec configs peers acts (j + 1)).nodes call.node).log.termAt call.index =
    call.term

theorem exists_placed_succ {p : ℕ} (h : ∃ call, ∃ j < k, Placed codec configs peers acts p call j) :
    ∃ call, ∃ j < k + 1, Placed codec configs peers acts p call j := by
  obtain ⟨call, j, hj, hplaced⟩ := h
  exact ⟨call, j, by omega, hplaced⟩

/-- Whoever waits or was answered after `k` actions is a call that was placed. -/
structure Waiting (codec : Codec) (configs : NodeId → NodeConfig) (peers : OrdSet NodeId)
    (acts : List RuntimeAction) (k : ℕ) : Prop where
  waiters : ∀ n i pending,
    (((init configs).moment codec acts k).runtimes n).waiters.get i = some pending →
      ∃ call, ∃ j < k, Placed codec configs peers acts pending.sender call j
  completions : ∀ done ∈ ((init configs).moment codec acts k).completions,
    ∃ call, ∃ j < k, Placed codec configs peers acts done.sender call j

/-- An action after which one runtime's waiters, and those it answered, were placed. -/
theorem Waiting.record (h : Waiting codec configs peers acts k) {out : Outcome}
    {before : OrdMap ℕ PendingProposal} {state : KvState}
    (hstep : (init configs).moment codec acts (k + 1) =
      ((init configs).moment codec acts k).record n out)
    (hout : out.Waits codec before state) (hbefore : ∀ i pending, before.get i = some pending →
      ∃ call, ∃ j < k + 1, Placed codec configs peers acts pending.sender call j) :
    Waiting codec configs peers acts (k + 1) := by
  refine ⟨fun m i pending hpending => ?_, fun done hdone => ?_⟩
  · rw [hstep] at hpending
    rcases eq_or_ne m n with rfl | hm
    · simp only [RuntimeCluster.record, Function.update_self] at hpending
      exact hbefore i pending (hout.waiters i pending hpending)
    · simp only [RuntimeCluster.record, Function.update_of_ne hm] at hpending
      exact exists_placed_succ (h.waiters m i pending hpending)
  · rw [hstep] at hdone
    rcases List.mem_append.mp hdone with hdone | hdone
    · exact exists_placed_succ (h.completions done hdone)
    · obtain ⟨pending, -, hpending, hsender, -⟩ := hout.replies done hdone
      rw [hsender]
      exact hbefore _ pending hpending

/-- An action that may take waiters from one runtime. -/
theorem Waiting.narrow (h : Waiting codec configs peers acts k) {r : RaftRuntime}
    (hstep : (init configs).moment codec acts (k + 1) =
      ((init configs).moment codec acts k).setRuntime n r)
    (hr : ∀ i pending, r.waiters.get i = some pending →
      (((init configs).moment codec acts k).runtimes n).waiters.get i = some pending) :
    Waiting codec configs peers acts (k + 1) := by
  refine ⟨fun m i pending hpending => ?_, fun done hdone => ?_⟩
  · rw [hstep] at hpending
    rcases eq_or_ne m n with rfl | hm
    · simp only [setRuntime, Function.update_self] at hpending
      exact exists_placed_succ (h.waiters m i pending (hr i pending hpending))
    · simp only [setRuntime, Function.update_of_ne hm] at hpending
      exact exists_placed_succ (h.waiters m i pending hpending)
  · rw [hstep] at hdone
    exact exists_placed_succ (h.completions done hdone)

section Run
variable (hpeers : ∀ n, (configs n).peers = peers)
  (horderly : (init configs).OrderlyRun codec acts)
  (htrue : (init configs).Truthful codec acts)
include hpeers horderly htrue

/-- A call whose record reached the disk is placed. -/
theorem placed_of_landed (ha : acts[k]? = some a) {task : Task} {bytes : List UInt8}
    {index : ℕ} {effects : Effects} {node : RaftNode} {out : Outcome}
    (hs' : (init configs).moment codec acts (k + 1) =
      ((init configs).moment codec acts k).record n out)
    (hlow : lower codec ((init configs).moment codec acts k)
        (lowMoment codec configs peers acts k) a =
      lowerTask n (((init configs).moment codec acts k).runtimes n) task (node, effects) out
        (.propose n ⟨bytes⟩))
    (happended : out.appended = some
      ⟨n, index, (((init configs).moment codec acts k).runtimes n).node.term, bytes⟩)
    (hof : out.Of (((init configs).moment codec acts k).runtimes n) task (node, effects))
    (hsettled : (((init configs).moment codec acts k).runtimes n).Settled)
    (haccepted : (((init configs).moment codec acts k).runtimes n).node.propose ⟨bytes⟩ =
      .ok (index, effects, node))
    (hstep : (lowMoment codec configs peers acts k).step (.propose n ⟨bytes⟩) =
      (lowMoment codec configs peers acts k).handleEffects n (node, effects))
    (hlands : (((init configs).moment codec acts k).runtimes n).lands task (node, effects) =
      true) :
    Placed codec configs peers acts ((init configs).moment codec acts k).calls.length
      ⟨n, index, (((init configs).moment codec acts k).runtimes n).node.term, bytes⟩ k := by
  have hnode := ((moment_refines hpeers horderly k).mirrors n).node hsettled
  have hfirst : (lower codec ((init configs).moment codec acts k)
      (lowMoment codec configs peers acts k) a)[0]? = some (.propose n ⟨bytes⟩) := by
    rw [hlow, lowerTask, if_pos hlands]
    rfl
  obtain ⟨hplain, hplain', -, -⟩ :=
    landed_keeps hpeers horderly htrue ha hsettled hfirst (by simp) hstep
  obtain ⟨hleads, rest, hrest⟩ := RaftNode.propose_appends haccepted
  have hindex := RaftNode.propose_index haccepted
  have hlater : (lowMoment codec configs peers acts (k + 1)).nodes n = out.runtime.node := by
    rw [lowMoment_succ ha, hlow]
    exact lowerTask_node hlands hof hstep
  refine ⟨rfl, ?_, by rw [hnode]; exact hleads, by rw [hnode], by rw [hnode]; exact hindex, ?_⟩
  · rw [hs', RuntimeCluster.record, happended]
    simp
  · -- the entry stands right behind the log that the leader had
    have hlen : (((init configs).moment codec acts k).runtimes n).node.log.lastIndex =
        (((init configs).moment codec acts k).runtimes n).node.log.entries.length :=
      hplain.lastIndex
    show ((lowMoment codec configs peers acts (k + 1)).nodes n).log.termAt index = _
    rw [hlater, hof.node, hindex]
    show node.core.log.termAt _ = _
    have hentries : node.core.log.entries = _ := hrest.symm
    rw [hplain'.termAt_succ, hentries, hlen]
    simp

theorem Waiting.step (h : Waiting codec configs peers acts k) (ha : acts[k]? = some a) :
    Waiting codec configs peers acts (k + 1) := by
  have hcases := @moment_step codec configs acts k a ha
  have horderlyAt := horderly.at ha
  have href := moment_refines hpeers horderly k
  generalize hs' : (init configs).moment codec acts (k + 1) = s',
    hlows : (fun c => lower codec ((init configs).moment codec acts k) c a) = low at hcases
  have hlow := congrFun hlows (lowMoment codec configs peers acts k)
  cases hcases with
  | nothing =>
    exact h.narrow (n := 0) (hs'.trans (by rw [setRuntime, Function.update_eq_self]))
      (fun _ _ hpending => hpending)
  | refused n id error =>
    exact h.record hs' (RaftRuntime.waits_idle codec _ rfl (fun _ _ hpending => hpending) rfl)
      (fun i pending hpending => exists_placed_succ (h.waiters n i pending hpending))
  | event n task event act hhealthy hsettled hevent hact hstep =>
    exact h.record hs' (RaftRuntime.drive_waits codec _ task _)
      (fun i pending hpending => exists_placed_succ (h.waiters n i pending hpending))
  | proposal n command task id bytes index effects node hhealthy hsettled hencode haccepted hstep =>
    obtain ⟨hwaits, hlost⟩ := RaftRuntime.awaitProposal_waits codec
      { ((init configs).moment codec acts k).runtimes n with nextProposalId := id }
      (((init configs).moment codec acts k).runtimes n).nextProposalId bytes
      ((init configs).moment codec acts k).calls.length task index effects node
    have hof := awaiting_of codec ((init configs).moment codec acts k) n task id bytes index
      effects node
    cases hlands : (((init configs).moment codec acts k).runtimes n).lands task (node, effects) with
    | false =>
      obtain ⟨hp, hl, -⟩ := RaftRuntime.not_lands hhealthy hlands
      exact h.record hs' (hlost hp hl)
        (fun i pending hpending => exists_placed_succ (h.waiters n i pending hpending))
    | true =>
      refine h.record hs' hwaits (fun i pending hpending => ?_)
      rw [OrdMap.get_insert] at hpending
      split_ifs at hpending with hi
      · obtain rfl := Option.some.inj hpending
        have hid := congrArg NodeConfig.nodeId (moment_config codec configs acts k n)
        have happended := RaftRuntime.awaitProposal_appended codec
          { ((init configs).moment codec acts k).runtimes n with nextProposalId := id }
          (((init configs).moment codec acts k).runtimes n).nextProposalId bytes
          ((init configs).moment codec acts k).calls.length task (index, effects, node)
        exact ⟨_, k, Nat.lt_succ_self k, placed_of_landed hpeers horderly htrue ha hs' hlow
          (happended.trans (by rw [hid]; rfl)) hof (hsettled horderlyAt) haccepted
          (hstep _ href (hsettled horderlyAt)) hlands⟩
      · exact exists_placed_succ (h.waiters n i pending hpending)
  | cleanup n waiters hsub => exact h.narrow hs' hsub
  | restart n => exact h.narrow hs' (fun _ _ hpending => (Option.some_ne_none _ hpending.symm).elim)

theorem waiting_moment (k : ℕ) : Waiting codec configs peers acts k := by
  induction k with
  | zero =>
    exact ⟨fun _ _ _ hpending => (Option.some_ne_none _ hpending.symm).elim,
      fun done hdone => absurd hdone List.not_mem_nil⟩
  | succ k ih =>
    cases ha : acts[k]? with
    | none =>
      exact ih.narrow (n := 0)
        ((moment_beyond _ ha).trans (by rw [setRuntime, Function.update_eq_self]))
        (fun _ _ hpending => hpending)
    | some a => exact ih.step hpeers horderly htrue ha

end Run
end RuntimeCluster
end BasisDB.Runtime
