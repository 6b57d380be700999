import BasisDB.RuntimeWaiting

/-! Whose entry an answer is about: unless a caller is told that its proposal was superseded, the
answer comes from the very entry that the proposal appended, whether it is a success or an error
of the command. -/
namespace BasisDB.Runtime
open BasisDB.Raft BasisDB.Kv

/-- What a caller is told when another command took its index. -/
def superseded : Except ConnectError KvApplyResult :=
  .error ⟨.aborted, "Raft proposal was superseded"⟩

def Completion.Owned (calls : List ProposeCall) (done : Completion) : Prop :=
  done.result ≠ superseded → ∃ call, calls[done.sender]? = some call ∧ done.node = call.node ∧
    done.entry = ⟨call.index, call.term, ⟨call.command⟩⟩

theorem Completion.Owned.mono {calls calls' : List ProposeCall} {done : Completion}
    (h : done.Owned calls) (hle : calls <+: calls') : done.Owned calls' := by
  intro hresult
  obtain ⟨call, hcall, hrest⟩ := h hresult
  obtain ⟨rest, rfl⟩ := hle
  refine ⟨call, ?_, hrest⟩
  rw [List.getElem?_append_left (List.getElem?_eq_some_iff.mp hcall).1, hcall]

namespace RaftRuntime
variable {n : NodeId} {boot : Configuration} {calls : List ProposeCall} {r : RaftRuntime}
  {net : Set Message} {task : Task}

theorem applyEntry_owned (codec : Codec) (hr : r.Sound n boot calls) {entry : CommittedEntry}
    (hentry : entry ∈ r.node.committed) :
    ∀ done ∈ (r.applyEntry codec entry).2, done.Owned calls := by
  intro done hdone hresult
  rw [applyEntry_answers, completeWaiter] at hdone
  cases hpending : r.waiters.get entry.index with
  | none => simp [hpending] at hdone
  | some pending =>
    simp only [hpending, List.mem_singleton] at hdone
    subst hdone
    obtain ⟨call, hcall, hnode, hindex, hcommand⟩ := hr.waiting _ _ hpending
    -- a proposal that finds other bytes at its index is told so
    have hbytes : pending.command = entry.command.bytes := by
      by_contra hother
      exact hresult (if_neg hother)
    have hterm : entry.term = call.term :=
      ownEntry_iff.mp (hr.own _ (RaftNode.mem_of_committed hentry)) pending call hpending hcall
        (by rw [hbytes])
    refine ⟨call, hcall, hr.nodeId.trans hnode.symm, ?_⟩
    rw [hindex, hcommand, hbytes, ← hterm]

theorem applyCommitted_owned (codec : Codec) (turns : ℕ) (hr : r.Sound n boot calls) :
    ∀ done ∈ (applyCommitted codec turns r).2, done.Owned calls := by
  induction turns generalizing r with
  | zero => exact fun done hdone => absurd hdone List.not_mem_nil
  | succ turns ih =>
    unfold applyCommitted
    cases hes : r.node.committed with
    | nil => exact fun done hdone => absurd hdone List.not_mem_nil
    | cons entry es =>
      intro done hdone
      rcases List.mem_append.mp hdone with hdone | hdone
      · exact applyEntry_owned codec hr (hes ▸ List.mem_cons_self) done hdone
      · exact ih (hr.narrow (narrows_applyEntry codec r entry)) done hdone

theorem handleEffects_owned (codec : Codec) (hr : r.Sound n boot calls) (effects : Effects)
    (task : Task) :
    ∀ done ∈ (r.handleEffects codec effects task).completions, done.Owned calls := by
  have hsaved :
      (if effects.persist then r.save task.write else (r, none)).1.Sound n boot calls := by
    split_ifs
    · exact hr.save task.write
    · exact hr
  have hnone : ∀ done ∈ ([] : List Completion), done.Owned calls :=
    fun done hdone => absurd hdone List.not_mem_nil
  unfold handleEffects
  generalize (if effects.persist then r.save task.write else (r, none)) = saved at hsaved
  obtain ⟨r, storeError⟩ := saved
  cases storeError with
  | some error => exact hnone
  | none =>
    dsimp only
    split_ifs
    · exact hnone
    · generalize r.sendMessages effects.messages = sending
      obtain ⟨sent, sendError⟩ := sending
      cases sendError with
      | some error => exact hnone
      | none => exact applyCommitted_owned codec _ hsaved

theorem drive_completions (codec : Codec) (next : RaftNode × Effects)
    (h : r.ensureHealthy task = true) : (r.drive codec task next).completions =
      (handleEffects codec { r with node := next.1 } next.2 task).completions := by
  rw [drive, if_pos h, fail]
  split_ifs <;> rfl

theorem awaitProposal_completions (codec : Codec) (r : RaftRuntime) (id : ℕ) (bytes : List UInt8)
    (sender : ℕ) (task : Task) (accepted : ℕ × Effects × RaftNode) :
    (r.awaitProposal codec id bytes sender task accepted).1.completions =
      (handleEffects codec { r with
          node := accepted.2.2
          waiters := r.waiters.insert accepted.1 ⟨id, bytes, sender⟩ }
        accepted.2.1 task).completions := by
  unfold awaitProposal
  dsimp only
  generalize handleEffects codec _ accepted.2.1 task = out
  cases out.error with
  | some error =>
    dsimp only [fail]
    split_ifs <;> rfl
  | none =>
    dsimp only
    split_ifs <;> rfl

theorem drive_owned {g : Guards} {next : RaftNode × Effects} (codec : Codec)
    (hr : r.Sound n boot calls) (hnet : ∀ m ∈ net, m.Formed)
    (hg : g.Admit (fun e => ownEntry calls r.waiters e = true))
    (hc : Carries g net r.node.core r.node.role.view next.1.core next.1.role.view next.2) :
    ∀ done ∈ (r.drive codec task next).completions, done.Owned calls := by
  cases hhealthy : r.ensureHealthy task with
  | true =>
    rw [drive_completions codec next hhealthy]
    exact handleEffects_owned codec (hr.carry next hnet hg hc).1 next.2 task
  | false =>
    rw [drive_refused codec hhealthy]
    exact fun done hdone => absurd hdone List.not_mem_nil

theorem step_owned (codec : Codec) (hr : r.Sound n boot calls) (hnet : ∀ m ∈ net, m.Formed)
    {message : Message} (hmem : message ∈ net) (hrec : message.receiver = n)
    (hown : r.bringsOwn calls message = true) :
    ∀ done ∈ (r.step codec message task).completions, done.Owned calls := by
  refine drive_owned codec hr hnet (entryGuards_admits calls r.waiters)
    (RaftNode.step_carries (hr.ready hnet) ?_ ?_ ?_)
  · exact ⟨fun _ => hmem, hnet message hmem, hrec.trans hr.id.symm, hr.formed.plain⟩
  · intro f req hrole hpayload hterm haccepts req' hpayload' e he
    obtain rfl : req = req' := by simpa [hpayload] using hpayload'
    have hall : req.entries.all (ownEntry calls r.waiters) = true := by
      simpa [bringsOwn, hpayload, hrole, hterm, haccepts] using hown
    exact List.all_eq_true.mp hall e he
  · exact fun _ _ _ _ _ => entryGuards_crossable _ _ _

theorem awaitProposal_owned (codec : Codec) (hr : r.Sound n boot calls)
    (hnet : ∀ m ∈ net, m.Formed) {bytes : List UInt8} {accepted : ℕ × Effects × RaftNode}
    (hp : r.node.propose ⟨bytes⟩ = .ok accepted) (next id : ℕ) :
    ∀ done ∈ ({ r with nextProposalId := next }.awaitProposal codec id bytes calls.length task
      accepted).1.completions,
      done.Owned (calls ++ [⟨n, accepted.1, r.node.term, bytes⟩]) := by
  obtain ⟨index, effects, node⟩ := accepted
  obtain rfl := RaftNode.propose_index hp
  have hcarry := RaftNode.propose_carries (hr.ready hnet)
    (fun _ => entryGuards_crossable _ _ _)
    (ownEntry_appended calls r.waiters n (r.node.log.lastIndex + 1) r.node.term id bytes) hp
  have hnode := ((hr.await next id bytes).carry (node, effects) hnet (entryGuards_admits _ _)
    hcarry).1
  rw [awaitProposal_completions]
  exact handleEffects_owned codec hnode effects task

theorem propose_owned (codec : Codec) (hr : r.Sound n boot calls) (hnet : ∀ m ∈ net, m.Formed)
    (command : KvCommand) : ∀ done ∈ (r.propose codec command calls.length task).1.completions,
      done.Owned (calls ++ (r.propose codec command calls.length task).1.appended.toList) := by
  rcases r.propose_cases codec command calls.length task with
    ⟨id, hout⟩ | ⟨-, id, bytes, index, effects, node, -, haccepted, hout⟩
  · rw [hout]
    exact fun done hdone => absurd hdone List.not_mem_nil
  · rw [hout, awaitProposal_appended, hr.nodeId]
    exact awaitProposal_owned codec hr hnet haccepted id _

end RaftRuntime

namespace RuntimeCluster
variable {codec : Codec} {configs : NodeId → NodeConfig} {acts : List RuntimeAction}
  {s : RuntimeCluster} {boot : NodeId → Configuration} {a : RuntimeAction}

/-- An answer is either old or one that this step gave. -/
theorem record_owned (hs : ∀ done ∈ s.completions, done.Owned s.calls) {n : NodeId} {out : Outcome}
    (hout : ∀ done ∈ out.completions, done.Owned (s.calls ++ out.appended.toList)) :
    ∀ done ∈ (s.record n out).completions, done.Owned (s.record n out).calls := by
  intro done hdone
  rcases List.mem_append.mp hdone with hdone | hdone
  · exact (hs done hdone).mono (List.prefix_append _ _)
  · exact hout done hdone

theorem step_owned (hsound : s.Sound boot) (hs : ∀ done ∈ s.completions, done.Owned s.calls)
    (ha : s.takesOwn a = true) :
    ∀ done ∈ (s.step codec a).completions, done.Owned (s.step codec a).calls := by
  have hnet : ∀ m ∈ {m | m ∈ s.net}, m.Formed := hsound.net
  cases a with
  | tick n task =>
    refine record_owned hs (fun done hdone => ?_)
    exact (RaftRuntime.drive_owned codec (hsound.runtimes n) hnet (entryGuards_admits s.calls _)
      (RaftNode.tick_carries ((hsound.runtimes n).ready hnet)) done hdone).mono
        (List.prefix_append _ _)
  | deliver k task =>
    simp only [step, takesOwn] at ha ⊢
    cases hk : s.net[k]? with
    | none => exact hs
    | some message =>
      simp only [hk] at ha ⊢
      unfold receiveRaft
      cases (s.runtimes message.receiver).validateMessage message with
      | error e => exact hs
      | ok u =>
        refine record_owned hs (fun done hdone => ?_)
        exact (RaftRuntime.step_owned codec (hsound.runtimes _) hnet (List.mem_of_getElem? hk) rfl
          ha done hdone).mono (List.prefix_append _ _)
  | propose n command task =>
    exact record_owned hs (RaftRuntime.propose_owned codec (hsound.runtimes n) hnet command)
  | cleanup n index id => exact hs
  | restart n => exact hs

theorem run_owned (acts : List RuntimeAction) (hsound : s.Sound boot)
    (hs : ∀ done ∈ s.completions, done.Owned s.calls) (hacts : TakesOwn codec s acts) :
    ∀ done ∈ (s.run codec acts).completions, done.Owned (s.run codec acts).calls := by
  induction acts generalizing s with
  | nil => exact hs
  | cons a acts ih =>
    exact ih (step_sound codec hsound hacts.1) (step_owned hsound hs hacts.1) hacts.2

theorem TakesOwn.take (h : TakesOwn codec s acts) (k : ℕ) :
    TakesOwn codec s (acts.take k) := by
  induction acts generalizing s k with
  | nil => simp [TakesOwn]
  | cons a acts ih =>
    cases k with
    | zero => trivial
    | succ k => exact ⟨h.1, ih h.2 k⟩

end RuntimeCluster
end BasisDB.Runtime
