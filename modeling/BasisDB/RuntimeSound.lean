import BasisDB.RaftRefineNode
import BasisDB.RaftRuntime

/-! What a runtime keeps from step to step: its log is well formed in memory and on
disk, and an entry that a waiting proposal would take for its own is its own. -/
namespace BasisDB.Raft

theorem Log.truncateAfter_subset (log : Log) (i : ℕ) :
    (log.truncateAfter i).entries ⊆ log.entries := by
  unfold Log.truncateAfter
  split_ifs
  · exact List.nil_subset _
  · cases log.toVecIndex i with
    | none => exact List.Subset.refl _
    | some k => exact List.take_subset _ _

theorem Follower.mem_appendEntry {acc : Log × Bool} {x e : Entry}
    (h : e ∈ (appendEntry acc x).1.entries) : e ∈ acc.1.entries ∨ e = x := by
  have hcut : (if acc.1.termAt x.index ≠ 0 ∧ acc.1.termAt x.index ≠ x.term then
      acc.1.truncateAfter (x.index - 1) else acc.1).entries ⊆ acc.1.entries := by
    split_ifs
    · exact Log.truncateAfter_subset _ _
    · exact List.Subset.refl _
  simp only [appendEntry] at h
  generalize (if acc.1.termAt x.index ≠ 0 ∧ acc.1.termAt x.index ≠ x.term then
    acc.1.truncateAfter (x.index - 1) else acc.1) = cut at h hcut
  split_ifs at h
  · rcases List.mem_append.mp h with h | h
    · exact Or.inl (hcut h)
    · exact Or.inr (List.mem_singleton.mp h)
  · exact Or.inl (hcut h)

theorem Follower.mem_appendEntries {acc : Log × Bool} {es : List Entry} {e : Entry}
    (h : e ∈ (es.foldl appendEntry acc).1.entries) : e ∈ acc.1.entries ∨ e ∈ es := by
  induction es generalizing acc with
  | nil => exact Or.inl h
  | cons x es ih =>
    rcases ih h with h | h
    · rcases mem_appendEntry h with h | rfl
      · exact Or.inl h
      · exact Or.inr List.mem_cons_self
    · exact Or.inr (List.mem_cons_of_mem _ h)

/-- The guards let only entries with property `P` into a log; configurations are free. -/
structure Guards.Admit (g : Guards) (P : Entry → Prop) : Prop where
  config : ∀ t i c, P { term := t, index := i, payload := .config c }
  command : ∀ e, g.command e → P e
  absorb : ∀ m log req, g.absorb m log → m.payload = .appendRequest req → ∀ e ∈ req.entries, P e

theorem Micro.entries {g : Guards} {P : Entry → Prop} (hg : g.Admit P) {me : NodeId} {v v' : View}
    {net net' : Set Message} (h : Micro g me v net v' net') (hv : ∀ e ∈ v.log.entries, P e) :
    ∀ e ∈ v'.log.entries, P e := by
  have happend {x : Entry} (hx : P x) : ∀ e ∈ (v.log.append x).entries, P e := by
    intro e he
    rcases List.mem_append.mp he with he | he
    · exact hv e he
    · exact List.mem_singleton.mp he ▸ hx
  cases h with
  | absorb m req hm hp ht hr hacc habs log hlog c hc =>
    intro e he
    rcases Follower.mem_appendEntries (hlog ▸ he) with he | he
    · exact hv e he
    · exact hg.absorb m _ req habs hp e he
  | appendCommand l cmd hr hcmd => exact happend (hg.command _ hcmd)
  | appendConfig l c hr => exact happend (hg.config _ _ _)
  | _ => exact hv

theorem Micros.entries {g : Guards} {P : Entry → Prop} (hg : g.Admit P) {me : NodeId}
    {a b : View × Set Message} (h : Micros g me a b) (hv : ∀ e ∈ a.1.log.entries, P e) :
    ∀ e ∈ b.1.log.entries, P e := by
  induction h with
  | refl => exact hv
  | tail _ hstep ih => exact hstep.entries hg ih

/-- A committed command is an entry of the log. -/
theorem RaftNode.mem_of_committed {n : RaftNode} {entry : CommittedEntry}
    (h : entry ∈ n.committed) :
    { term := entry.term, index := entry.index, payload := .command entry.command } ∈
      n.log.entries := by
  obtain ⟨i, -, hi⟩ := List.mem_filterMap.mp h
  obtain ⟨e, he, hentry⟩ := Option.bind_eq_some_iff.mp hi
  have hmem : e ∈ n.core.log.entries := by
    unfold Log.get at he
    split_ifs at he
    obtain ⟨k, -, hk⟩ := Option.bind_eq_some_iff.mp he
    exact List.mem_of_getElem? hk
  cases hp : e.payload with
  | config c => simp [hp] at hentry
  | command cmd =>
    simp only [hp, Option.some.injEq] at hentry
    subst hentry
    exact hp ▸ hmem

end BasisDB.Raft

namespace BasisDB.Runtime
open BasisDB.Raft BasisDB.Kv

/-- If the proposal that waits at the entry's index would take the entry for its own, then the
entry is of the term in which the proposal was appended. -/
def ownEntry (calls : List ProposeCall) (waiters : OrdMap ℕ PendingProposal) (e : Entry) : Bool :=
  match waiters.get e.index with
  | none => true
  | some pending =>
    match calls[pending.sender]? with
    | none => true
    | some call => decide (e.payload = .command ⟨pending.command⟩ → e.term = call.term)

theorem ownEntry_iff {calls : List ProposeCall} {waiters : OrdMap ℕ PendingProposal} {e : Entry} :
    ownEntry calls waiters e = true ↔ ∀ pending call, waiters.get e.index = some pending →
      calls[pending.sender]? = some call → e.payload = .command ⟨pending.command⟩ →
        e.term = call.term := by
  unfold ownEntry
  cases hw : waiters.get e.index with
  | none => simp
  | some pending =>
    dsimp only
    cases hc : calls[pending.sender]? with
    | none =>
      refine ⟨fun _ pending' call hp hcall => ?_, fun _ => rfl⟩
      rw [← Option.some.inj hp, hc] at hcall
      cases hcall
    | some call =>
      rw [decide_eq_true_eq]
      refine ⟨fun h pending' call' hp hcall => ?_, fun h => h pending call rfl hc⟩
      obtain rfl := Option.some.inj hp
      exact Option.some.inj (hc.symm.trans hcall) ▸ h

/-- The answer in a channel is about a proposal of the node; a success is about the very entry
that the proposal appended. -/
def Completion.Acked (calls : List ProposeCall) (done : Completion) : Prop :=
  ∃ call, calls[done.sender]? = some call ∧ done.node = call.node ∧
    ∀ result, done.result = .ok result →
      done.entry = { index := call.index, term := call.term, command := ⟨call.command⟩ }

namespace RaftRuntime

structure Sound (n : NodeId) (boot : Configuration) (calls : List ProposeCall)
    (r : RaftRuntime) : Prop where
  nodeId : r.config.nodeId = n
  consensus : r.config.consensus.id = n
  id : r.node.core.id = n
  formed : r.node.view.Formed boot
  store_plain : r.store.log.Plain
  store_boot : r.store.bootstrapConfig = boot
  waiting : ∀ i pending, r.waiters.get i = some pending → ∃ call,
    calls[pending.sender]? = some call ∧ call.node = n ∧ call.index = i ∧
      call.command = pending.command
  own : ∀ e ∈ r.node.log.entries, ownEntry calls r.waiters e = true

/-- A change that only takes waiters away, as far as the invariant can see. -/
structure Narrows (r r' : RaftRuntime) : Prop where
  config : r'.config = r.config
  id : r'.node.core.id = r.node.core.id
  view : r'.node.view = r.node.view
  store : r'.store = r.store
  waiters : ∀ i pending, r'.waiters.get i = some pending → r.waiters.get i = some pending

variable {n : NodeId} {boot : Configuration} {calls : List ProposeCall} {r r' r'' : RaftRuntime}

theorem Narrows.refl (r : RaftRuntime) : r.Narrows r := ⟨rfl, rfl, rfl, rfl, fun _ _ h => h⟩

theorem Narrows.trans (h : r.Narrows r') (h' : r'.Narrows r'') : r.Narrows r'' :=
  ⟨h'.config.trans h.config, h'.id.trans h.id, h'.view.trans h.view, h'.store.trans h.store,
    fun i pending hi => h.waiters i pending (h'.waiters i pending hi)⟩

theorem Sound.narrow (hr : r.Sound n boot calls) (h : r.Narrows r') : r'.Sound n boot calls where
  nodeId := h.config ▸ hr.nodeId
  consensus := h.config ▸ hr.consensus
  id := h.id.trans hr.id
  formed := h.view ▸ hr.formed
  store_plain := h.store ▸ hr.store_plain
  store_boot := h.store ▸ hr.store_boot
  waiting i pending hi := hr.waiting i pending (h.waiters i pending hi)
  own e he := by
    have hlog : r'.node.log = r.node.log := congrArg View.log h.view
    rw [ownEntry_iff]
    intro pending call hw
    exact ownEntry_iff.mp (hr.own e (hlog ▸ he)) pending call (h.waiters _ _ hw)

theorem narrows_remove (r : RaftRuntime) (i : ℕ) :
    r.Narrows { r with waiters := r.waiters.remove i } := by
  refine ⟨rfl, rfl, rfl, rfl, fun j pending hj => ?_⟩
  rw [OrdMap.get_remove] at hj
  split_ifs at hj
  exact hj

theorem narrows_removePending (r : RaftRuntime) (index id : ℕ) :
    r.Narrows (r.removePending index id) := by
  unfold removePending
  split_ifs
  · exact narrows_remove r index
  · exact Narrows.refl r

theorem narrows_completeWaiter (r : RaftRuntime) (entry : CommittedEntry)
    (result : Except ConnectError KvApplyResult) :
    r.Narrows (r.completeWaiter entry result).1 := by
  unfold completeWaiter
  cases r.waiters.get entry.index with
  | none => exact Narrows.refl r
  | some pending => exact narrows_remove r entry.index

theorem applyEntry_eq (codec : Codec) (r : RaftRuntime) (entry : CommittedEntry) :
    ∃ state result, r.applyEntry codec entry =
      { r with state := state, node := r.node.advance entry.index }.completeWaiter entry result := by
  unfold applyEntry applyCommand
  cases codec.decode entry.command.bytes with
  | none => exact ⟨_, _, rfl⟩
  | some command => exact ⟨_, _, rfl⟩

theorem narrows_applyEntry (codec : Codec) (r : RaftRuntime) (entry : CommittedEntry) :
    r.Narrows (r.applyEntry codec entry).1 := by
  obtain ⟨state, result, heq⟩ := applyEntry_eq codec r entry
  rw [heq]
  have hadvance : r.Narrows { r with state := state, node := r.node.advance entry.index } :=
    ⟨rfl, rfl, rfl, rfl, fun _ _ h => h⟩
  exact hadvance.trans (narrows_completeWaiter _ entry result)

/-- Applying a committed command answers only its own proposal with a success. -/
theorem applyEntry_acked (codec : Codec) (hr : r.Sound n boot calls) {entry : CommittedEntry}
    (hentry : entry ∈ r.node.committed) :
    ∀ done ∈ (r.applyEntry codec entry).2, done.Acked calls := by
  obtain ⟨state, result, heq⟩ := applyEntry_eq codec r entry
  rw [heq]
  intro done hdone
  unfold completeWaiter at hdone
  cases hpending : r.waiters.get entry.index with
  | none => simp [hpending] at hdone
  | some pending =>
    simp only [hpending, List.mem_singleton] at hdone
    subst hdone
    obtain ⟨call, hcall, hnode, hindex, hcommand⟩ := hr.waiting _ _ hpending
    refine ⟨call, hcall, hr.nodeId.trans hnode.symm, fun value hvalue => ?_⟩
    simp only [PendingProposal.complete] at hvalue
    split_ifs at hvalue with hbytes
    have hterm : entry.term = call.term :=
      ownEntry_iff.mp (hr.own _ (RaftNode.mem_of_committed hentry)) pending call hpending hcall
        (by rw [hbytes])
    rw [hindex, hcommand, hbytes, ← hterm]

theorem applyCommitted_sound (codec : Codec) (turns : ℕ) (hr : r.Sound n boot calls) :
    r.Narrows (applyCommitted codec turns r).1 ∧
      ∀ done ∈ (applyCommitted codec turns r).2, done.Acked calls := by
  induction turns generalizing r with
  | zero => exact ⟨Narrows.refl r, by simp [applyCommitted]⟩
  | succ turns ih =>
    unfold applyCommitted
    cases hc : r.node.committed with
    | nil => exact ⟨Narrows.refl r, by simp⟩
    | cons entry rest =>
      have hstep := narrows_applyEntry codec r entry
      obtain ⟨hrest, hdone⟩ := ih (hr.narrow hstep)
      refine ⟨hstep.trans hrest, fun done hmem => ?_⟩
      rcases List.mem_append.mp hmem with hmem | hmem
      · exact applyEntry_acked codec hr (hc ▸ List.mem_cons_self) done hmem
      · exact hdone done hmem

theorem sendMessages_subset (r : RaftRuntime) (messages : List Message) :
    (r.sendMessages messages).1 ⊆ messages := by
  induction messages with
  | nil => exact List.Subset.refl _
  | cons message messages ih =>
    unfold sendMessages
    split_ifs
    · exact List.cons_subset_cons _ ih
    · exact List.nil_subset _

theorem Sound.save (hr : r.Sound n boot calls) (write : Write) :
    (r.save write).1.Sound n boot calls := by
  have hpers : RaftRuntime.Sound n boot calls { r with store := r.node.persistent } :=
    { hr with
      store_plain := hr.formed.plain
      store_boot := hr.formed.boot_eq }
  cases write with
  | synced => exact hpers
  | failedWritten text => exact hpers
  | failedLost text => exact hr

end RaftRuntime

/-- What a task leaves behind keeps the invariant. -/
structure Outcome.Sound (n : NodeId) (boot : Configuration) (calls : List ProposeCall)
    (out : Outcome) : Prop where
  runtime : out.runtime.Sound n boot calls
  messages : ∀ m ∈ out.messages, m.Formed
  acked : ∀ done ∈ out.completions, done.Acked calls

namespace RaftRuntime
variable {n : NodeId} {boot : Configuration} {calls : List ProposeCall} {r : RaftRuntime}

theorem Sound.idle (hr : r.Sound n boot calls) (error : Option RuntimeError) :
    Outcome.Sound n boot calls { runtime := r, error := error } :=
  ⟨hr, by simp, by simp⟩

theorem handleEffects_sound (codec : Codec) (hr : r.Sound n boot calls) {effects : Effects}
    (hmessages : ∀ m ∈ effects.messages, m.Formed) (task : Task) :
    (r.handleEffects codec effects task).Sound n boot calls := by
  have hsaved : (if effects.persist then r.save task.write else (r, none)).1.Sound n boot calls := by
    split_ifs
    · exact hr.save task.write
    · exact hr
  unfold handleEffects
  generalize (if effects.persist then r.save task.write else (r, none)) = saved at hsaved
  obtain ⟨r, storeError⟩ := saved
  cases storeError with
  | some error => exact hsaved.idle _
  | none =>
    dsimp only
    split_ifs
    · exact hsaved.idle _
    · have hsub := r.sendMessages_subset effects.messages
      generalize r.sendMessages effects.messages = sending at hsub
      obtain ⟨sent, sendError⟩ := sending
      have hsent : ∀ m ∈ sent, m.Formed := fun m hm => hmessages m (hsub hm)
      cases sendError with
      | some error => exact ⟨hsaved, hsent, by simp⟩
      | none =>
        obtain ⟨hnarrow, hacked⟩ := applyCommitted_sound codec (task.dropped.getD r.turns) hsaved
        exact ⟨hsaved.narrow hnarrow, hsent, hacked⟩

theorem fail_sound {out : Outcome} (h : out.Sound n boot calls) : (fail out).Sound n boot calls := by
  unfold fail
  split_ifs
  · exact { h with runtime := h.runtime.narrow ⟨rfl, rfl, rfl, rfl, fun _ _ h => h⟩ }
  · exact h

/-- A step of the node under guards that admit only own entries. -/
theorem Sound.carry {g : Guards} {net : Set Message} (hr : r.Sound n boot calls)
    (next : RaftNode × Effects) (hnet : ∀ m ∈ net, m.Formed)
    (hg : g.Admit (fun e => ownEntry calls r.waiters e = true))
    (hc : Carries g net r.node.core r.node.role.view next.1.core next.1.role.view next.2) :
    RaftRuntime.Sound n boot calls { r with node := next.1 } ∧
      ∀ m ∈ next.2.messages, m.Formed := by
  obtain ⟨hformed, hsent⟩ := hc.steps.formed hr.formed hnet
  refine ⟨{ hr with id := ?_, formed := hformed, own := hc.steps.entries hg hr.own }, ?_⟩
  · rw [← hr.id]
    exact congrArg Config.id hc.config
  · exact fun m hm => hsent m (Or.inr hm)

theorem drive_sound {g : Guards} {net : Set Message} {next : RaftNode × Effects} (codec : Codec)
    (hr : r.Sound n boot calls) (hnet : ∀ m ∈ net, m.Formed)
    (hg : g.Admit (fun e => ownEntry calls r.waiters e = true))
    (hc : Carries g net r.node.core r.node.role.view next.1.core next.1.role.view next.2)
    (task : Task) : (r.drive codec task next).Sound n boot calls := by
  unfold drive
  split_ifs
  · obtain ⟨hnext, hsent⟩ := hr.carry next hnet hg hc
    exact fail_sound (handleEffects_sound codec hnext hsent task)
  · exact hr.idle _

end RaftRuntime
end BasisDB.Runtime
