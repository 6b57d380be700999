import BasisDB.RuntimeSound

/-! A proposal is acknowledged by its own log entry, over whole runs of several
runtimes. -/
namespace BasisDB.Raft

/-- Guards that let only entries with property `P` into a log. -/
def entryGuards (P : Entry → Prop) : Guards where
  mode := .singleServer
  reconfig := True
  strict := False
  absorb m _ := ∀ req, m.payload = .appendRequest req → ∀ e ∈ req.entries, P e
  command := P

theorem entryGuards_crossable (P : Entry → Prop) (log : Log) (commit : ℕ) :
    Leader.Crossable (entryGuards P) log commit :=
  fun _ _ _ _ _ _ => ⟨trivial, fun h => h.elim⟩

theorem RaftNode.propose_index {n n' : RaftNode} {cmd : Command} {index : ℕ} {effects : Effects}
    (h : n.propose cmd = .ok (index, effects, n')) : index = n.log.lastIndex + 1 := by
  unfold propose at h
  split at h
  · split_ifs at h
    simp only [Except.ok.injEq, Prod.mk.injEq] at h
    exact h.1.symm
  · cases h

end BasisDB.Raft

namespace BasisDB.Runtime
open BasisDB.Raft BasisDB.Kv

theorem entryGuards_admits (calls : List ProposeCall) (waiters : OrdMap ℕ PendingProposal) :
    (entryGuards (fun e => ownEntry calls waiters e = true)).Admit
      (fun e => ownEntry calls waiters e = true) where
  config _ _ _ := ownEntry_iff.mpr (fun _ _ _ _ h => EntryPayload.noConfusion h)
  command _ h := h
  absorb _ _ req h := h req

namespace RaftRuntime
variable {n : NodeId} {boot : Configuration} {calls calls' : List ProposeCall} {r : RaftRuntime}
  {net : Set Message}

theorem Sound.ready (hr : r.Sound n boot calls) (hnet : ∀ m ∈ net, m.Formed) :
    r.node.Ready boot net := ⟨hr.formed, hnet⟩

theorem drive_appended (codec : Codec) (r : RaftRuntime) (task : Task)
    (next : RaftNode × Effects) : (r.drive codec task next).appended = none := by
  have hhandle (r : RaftRuntime) (effects : Effects) :
      (r.handleEffects codec effects task).appended = none := by
    unfold handleEffects
    generalize (if effects.persist then r.save task.write else (r, none)) = saved
    obtain ⟨r, _ | error⟩ := saved
    · dsimp only
      split_ifs
      · rfl
      · generalize r.sendMessages effects.messages = sending
        obtain ⟨sent, _ | error⟩ := sending <;> rfl
    · rfl
  unfold drive fail
  split_ifs
  · exact hhandle _ _
  · exact hhandle _ _
  · rfl

theorem tickOnce_sound (codec : Codec) (hr : r.Sound n boot calls) (hnet : ∀ m ∈ net, m.Formed)
    (task : Task) : (r.tickOnce codec task).Sound n boot calls :=
  drive_sound codec hr hnet (entryGuards_admits calls r.waiters)
    (RaftNode.tick_carries (hr.ready hnet)) task

/-- The message brings no foreign entry that a waiting proposal would take for its own. -/
def bringsOwn (calls : List ProposeCall) (r : RaftRuntime) (message : Message) : Bool :=
  match message.payload, r.node.role with
  | .appendRequest req, .follower _ =>
    !(decide (r.node.term ≤ message.term) && Follower.accepts r.node.log req) ||
      req.entries.all (ownEntry calls r.waiters)
  | _, _ => true

theorem step_sound (codec : Codec) (hr : r.Sound n boot calls) (hnet : ∀ m ∈ net, m.Formed)
    {message : Message} (hmem : message ∈ net) (hrec : message.receiver = n)
    (hown : r.bringsOwn calls message = true) (task : Task) :
    (r.step codec message task).Sound n boot calls := by
  refine drive_sound codec hr hnet (entryGuards_admits calls r.waiters)
    (RaftNode.step_carries (hr.ready hnet) ?_ ?_ ?_) task
  · exact ⟨fun _ => hmem, hnet message hmem, hrec.trans hr.id.symm, hr.formed.plain⟩
  · intro f req hrole hpayload hterm haccepts req' hpayload' e he
    obtain rfl : req = req' := by simpa [hpayload] using hpayload'
    have hall : req.entries.all (ownEntry calls r.waiters) = true := by
      simpa [bringsOwn, hpayload, hrole, hterm, haccepts] using hown
    exact List.all_eq_true.mp hall e he
  · exact fun _ _ _ _ _ => entryGuards_crossable _ _ _

theorem Sound.mono (hr : r.Sound n boot calls) (hle : calls <+: calls') :
    r.Sound n boot calls' := by
  have hget {k : ℕ} {call : ProposeCall} (h : calls[k]? = some call) : calls'[k]? = some call := by
    obtain ⟨rest, rfl⟩ := hle
    rw [List.getElem?_append_left (List.getElem?_eq_some_iff.mp h).1, h]
  refine { hr with waiting := fun i pending hi => ?_, own := fun e he => ownEntry_iff.mpr ?_ }
  · obtain ⟨call, hcall, hrest⟩ := hr.waiting i pending hi
    exact ⟨call, hget hcall, hrest⟩
  · intro pending call' hw hcall' hpayload
    obtain ⟨call, hcall, -⟩ := hr.waiting _ pending hw
    obtain rfl : call = call' := Option.some.inj ((hget hcall).symm.trans hcall')
    exact ownEntry_iff.mp (hr.own e he) pending call hw hcall hpayload

/-- A proposal about to be appended may wait at the index past the end of the log. -/
theorem Sound.await (hr : r.Sound n boot calls) (next id : ℕ) (bytes : List UInt8) :
    RaftRuntime.Sound n boot (calls ++ [⟨n, r.node.log.lastIndex + 1, r.node.term, bytes⟩])
      { r with
        nextProposalId := next
        waiters := r.waiters.insert (r.node.log.lastIndex + 1) ⟨id, bytes, calls.length⟩ } := by
  have hmono := hr.mono (List.prefix_append calls
    [⟨n, r.node.log.lastIndex + 1, r.node.term, bytes⟩])
  refine { hmono with waiting := fun i pending hi => ?_, own := fun e he => ownEntry_iff.mpr ?_ }
  · rw [OrdMap.get_insert] at hi
    split_ifs at hi with hindex
    · obtain rfl := Option.some.inj hi
      exact ⟨_, List.getElem?_concat_length, rfl, hindex, rfl⟩
    · exact hmono.waiting i pending hi
  · have hplain : r.node.log.Plain := hr.formed.plain
    have hlt : e.index ≤ r.node.log.lastIndex := by
      obtain ⟨k, hk⟩ := List.getElem?_of_mem he
      have hk' : k < r.node.log.entries.length := (List.getElem?_eq_some_iff.mp hk).1
      rw [hplain.numbered.index_of_getElem? hk, hplain.lastIndex]
      omega
    intro pending call hw
    rw [OrdMap.get_insert_ne _ _ (by omega)] at hw
    exact ownEntry_iff.mp (hmono.own e he) pending call hw

theorem ownEntry_appended (calls : List ProposeCall) (waiters : OrdMap ℕ PendingProposal)
    (n : NodeId) (index term id : ℕ) (bytes : List UInt8) :
    (entryGuards (fun e => ownEntry (calls ++ [⟨n, index, term, bytes⟩])
      (waiters.insert index ⟨id, bytes, calls.length⟩) e = true)).command
        { term := term, index := index, payload := .command ⟨bytes⟩ } := by
  refine ownEntry_iff.mpr (fun pending call hw hcall _ => ?_)
  obtain rfl := Option.some.inj ((OrdMap.get_insert_self ..).symm.trans hw)
  rw [List.getElem?_concat_length] at hcall
  exact congrArg ProposeCall.term (Option.some.inj hcall)

theorem awaitProposal_sound (codec : Codec) (hr : r.Sound n boot calls)
    (hnet : ∀ m ∈ net, m.Formed) {bytes : List UInt8} {accepted : ℕ × Effects × RaftNode}
    (hp : r.node.propose ⟨bytes⟩ = .ok accepted) (next id : ℕ) (task : Task) :
    let out := ({ r with nextProposalId := next }.awaitProposal codec id bytes calls.length task
      accepted).1
    out.Sound n boot (calls ++ out.appended.toList) := by
  obtain ⟨index, effects, node⟩ := accepted
  obtain rfl := RaftNode.propose_index hp
  have hwait := hr.await next id bytes
  have hcarry := RaftNode.propose_carries (hr.ready hnet)
    (fun _ => entryGuards_crossable _ _ _)
    (ownEntry_appended calls r.waiters n (r.node.log.lastIndex + 1) r.node.term id bytes) hp
  obtain ⟨hnode, hsent⟩ := hwait.carry (node, effects) hnet (entryGuards_admits _ _) hcarry
  have hout := handleEffects_sound codec hnode hsent task
  simp only [awaitProposal, hr.nodeId]
  generalize handleEffects codec _ effects task = out at hout
  have hremoved := hout.runtime.narrow
    (narrows_removePending out.runtime (r.node.log.lastIndex + 1) id)
  cases out.error with
  | some error =>
    dsimp only
    exact fail_sound ⟨hremoved, hout.messages, hout.acked⟩
  | none =>
    dsimp only
    split_ifs
    · exact ⟨hremoved, hout.messages, hout.acked⟩
    · exact ⟨hout.runtime, hout.messages, hout.acked⟩

theorem propose_sound (codec : Codec) (hr : r.Sound n boot calls) (hnet : ∀ m ∈ net, m.Formed)
    (command : KvCommand) (task : Task) :
    let out := (r.propose codec command calls.length task).1
    out.Sound n boot (calls ++ out.appended.toList) := by
  have hidle {r' : RaftRuntime} (h : r.Narrows r') : Outcome.Sound n boot
      (calls ++ ({ runtime := r' } : Outcome).appended.toList) { runtime := r' } := by
    simpa using (hr.narrow h).idle none
  unfold propose
  by_cases hhealthy : r.ensureHealthy task
  · rw [if_pos hhealthy]
    cases checkedSucc r.nextProposalId with
    | none => exact hidle (Narrows.refl r)
    | some next =>
      have hnext : r.Narrows { r with nextProposalId := next } :=
        ⟨rfl, rfl, rfl, rfl, fun _ _ h => h⟩
      cases codec.encode command with
      | none => exact hidle hnext
      | some bytes =>
        dsimp only
        cases hp : r.node.propose ⟨bytes⟩ with
        | error error => exact hidle hnext
        | ok accepted => exact awaitProposal_sound codec hr hnet hp next _ task
  · rw [if_neg hhealthy]
    exact hidle (Narrows.refl r)

end RaftRuntime

theorem Completion.Acked.mono {calls calls' : List ProposeCall} {done : Completion}
    (h : done.Acked calls) (hle : calls <+: calls') : done.Acked calls' := by
  obtain ⟨call, hcall, hrest⟩ := h
  obtain ⟨rest, rfl⟩ := hle
  refine ⟨call, ?_, hrest⟩
  rw [List.getElem?_append_left (List.getElem?_eq_some_iff.mp hcall).1, hcall]

namespace RuntimeCluster

structure Sound (boot : NodeId → Configuration) (s : RuntimeCluster) : Prop where
  runtimes : ∀ n, (s.runtimes n).Sound n (boot n) s.calls
  net : ∀ m ∈ s.net, m.Formed
  acked : ∀ done ∈ s.completions, done.Acked s.calls

variable {boot : NodeId → Configuration} {s : RuntimeCluster}

theorem init_sound (configs : NodeId → NodeConfig) :
    (init configs).Sound (fun n => Configuration.ofVoters (configs n).peers.toList) where
  runtimes _ :=
    { nodeId := rfl
      consensus := rfl
      id := rfl
      formed := ⟨Log.Plain.empty, rfl, fun h => absurd rfl h⟩
      store_plain := Log.Plain.empty
      store_boot := rfl
      waiting := fun _ _ h => (Option.some_ne_none _ h.symm).elim
      own := fun _ h => absurd h List.not_mem_nil }
  net _ h := absurd h List.not_mem_nil
  acked _ h := absurd h List.not_mem_nil

theorem record_sound (hs : s.Sound boot) {n : NodeId} {out : Outcome}
    (hout : out.Sound n (boot n) (s.calls ++ out.appended.toList)) : (s.record n out).Sound boot where
  runtimes p := by
    by_cases hp : p = n
    · subst hp
      simpa only [record, Function.update_self] using hout.runtime
    · simpa only [record, Function.update_of_ne hp] using
        (hs.runtimes p).mono (List.prefix_append _ _)
  net m hm := by
    rcases List.mem_append.mp hm with hm | hm
    · exact hs.net m hm
    · exact hout.messages m hm
  acked done hdone := by
    rcases List.mem_append.mp hdone with hdone | hdone
    · exact (hs.acked done hdone).mono (List.prefix_append _ _)
    · exact hout.acked done hdone

theorem setRuntime_sound (hs : s.Sound boot) {n : NodeId} {r : RaftRuntime}
    (hr : r.Sound n (boot n) s.calls) : (s.setRuntime n r).Sound boot := by
  refine { hs with runtimes := fun p => ?_ }
  by_cases hp : p = n
  · subst hp
    simpa only [setRuntime, Function.update_self] using hr
  · simpa only [setRuntime, Function.update_of_ne hp] using hs.runtimes p

/-- A step that appends no proposal of its own. -/
theorem record_sound_of_drive (hs : s.Sound boot) {n : NodeId} {out : Outcome}
    (hout : out.Sound n (boot n) s.calls) (hnone : out.appended = none) :
    (s.record n out).Sound boot := by
  refine record_sound hs ?_
  rw [hnone]
  simpa using hout

/-- The step brings no node a foreign entry that a proposal waiting there would take for its
own: one at the proposal's index with the proposal's bytes, but of another term. -/
def takesOwn (s : RuntimeCluster) : RuntimeAction → Bool
  | .deliver k _ =>
    match s.net[k]? with
    | some message => (s.runtimes message.receiver).bringsOwn s.calls message
    | none => true
  | _ => true

/-- Every step of the run takes only own entries. -/
def TakesOwn (codec : Codec) : RuntimeCluster → List RuntimeAction → Prop
  | _, [] => True
  | s, a :: acts => s.takesOwn a = true ∧ TakesOwn codec (s.step codec a) acts

theorem restart_sound (hs : s.Sound boot) (n : NodeId) :
    (RaftRuntime.start (s.runtimes n).config (s.runtimes n).store).Sound n (boot n) s.calls where
  nodeId := (hs.runtimes n).nodeId
  consensus := (hs.runtimes n).consensus
  id := (hs.runtimes n).consensus
  formed := ⟨(hs.runtimes n).store_plain, (hs.runtimes n).store_boot, fun h => absurd rfl h⟩
  store_plain := (hs.runtimes n).store_plain
  store_boot := (hs.runtimes n).store_boot
  waiting _ _ h := (Option.some_ne_none _ h.symm).elim
  own _ _ := rfl

theorem step_sound (codec : Codec) (hs : s.Sound boot) {a : RuntimeAction}
    (ha : s.takesOwn a = true) : (s.step codec a).Sound boot := by
  have hnet : ∀ m ∈ {m | m ∈ s.net}, m.Formed := hs.net
  cases a with
  | tick n task =>
    exact record_sound_of_drive hs
      (RaftRuntime.tickOnce_sound codec (hs.runtimes n) hnet task) (RaftRuntime.drive_appended ..)
  | deliver k task =>
    simp only [step, takesOwn] at ha ⊢
    cases hk : s.net[k]? with
    | none => exact hs
    | some message =>
      simp only [hk] at ha ⊢
      unfold receiveRaft
      cases (s.runtimes message.receiver).validateMessage message with
      | error e => exact hs
      | ok u =>
        exact record_sound_of_drive hs
          (RaftRuntime.step_sound codec (hs.runtimes _) hnet (List.mem_of_getElem? hk) rfl ha task)
          (RaftRuntime.drive_appended ..)
  | propose n command task =>
    exact record_sound hs (RaftRuntime.propose_sound codec (hs.runtimes n) hnet command task)
  | cleanup n index id =>
    exact setRuntime_sound hs
      ((hs.runtimes n).narrow (RaftRuntime.narrows_removePending _ index id))
  | restart n => exact setRuntime_sound hs (restart_sound hs n)

theorem run_sound (codec : Codec) (acts : List RuntimeAction) (hs : s.Sound boot)
    (hacts : TakesOwn codec s acts) : (s.run codec acts).Sound boot := by
  induction acts generalizing s with
  | nil => exact hs
  | cons a acts ih => exact ih (step_sound codec hs hacts.1) hacts.2

instance decidableTakesOwn (codec : Codec) :
    (s : RuntimeCluster) → (acts : List RuntimeAction) → Decidable (TakesOwn codec s acts)
  | _, [] => inferInstanceAs (Decidable True)
  | s, a :: acts =>
    have := decidableTakesOwn codec (s.step codec a) acts
    inferInstanceAs (Decidable (_ ∧ _))

/-- A proposal is acknowledged only by its own log entry: a success in a proposal's channel
came from applying, on the proposal's node, the entry that the proposal appended. -/
theorem acknowledged_by_own_entry (codec : Codec) (configs : NodeId → NodeConfig)
    (acts : List RuntimeAction) (hacts : TakesOwn codec (init configs) acts)
    (done : Completion) (hdone : done ∈ ((init configs).run codec acts).completions)
    (result : KvApplyResult) (hresult : done.result = .ok result) :
    ∃ call, ((init configs).run codec acts).calls[done.sender]? = some call ∧
      done.node = call.node ∧
      done.entry = { index := call.index, term := call.term, command := ⟨call.command⟩ } := by
  obtain ⟨call, hcall, hnode, hentry⟩ :=
    (run_sound codec acts (init_sound configs) hacts).acked done hdone
  exact ⟨call, hcall, hnode, hentry result hresult⟩

/-- The JSON texts of the commands without fields. -/
def unitCodec : Codec where
  encode
    | .registerSession => some "\"RegisterSession\"".toUTF8.toList
    | .readBarrier => some "\"ReadBarrier\"".toUTF8.toList
    | _ => none
  decode bytes :=
    if bytes = "\"RegisterSession\"".toUTF8.toList then some .registerSession
    else if bytes = "\"ReadBarrier\"".toUTF8.toList then some .readBarrier
    else none

/-- Three nodes with the settings of the node runtime. -/
def threeNodes (n : NodeId) : NodeConfig := ⟨n, OrdSet.ofList [0, 1, 2], raftConfig n⟩

def ticks (n : NodeId) (k : ℕ) : List RuntimeAction := List.replicate k (.tick n {})

def deliveries (ks : List ℕ) : List RuntimeAction := ks.map (fun k => .deliver k {})

/-- The first node is elected and a client registers there. -/
def firstLeader : List RuntimeAction :=
  ticks 0 171 ++ deliveries [0, 2, 3, 4, 5] ++ [.propose 0 .registerSession {}]

/-- The proposal is committed with the second node's help. -/
theorem acknowledged_by_own_entry_firstLeader :
    ∃ done ∈ ((init threeNodes).run unitCodec (firstLeader ++ deliveries [9, 11])).completions,
      done.result = .ok (.registerSession 1) ∧
      ∃ call, ((init threeNodes).run unitCodec
        (firstLeader ++ deliveries [9, 11])).calls[done.sender]? = some call ∧
        done.node = call.node ∧
        done.entry = { index := call.index, term := call.term, command := ⟨call.command⟩ } := by
  have hdone : (⟨0, 0, ⟨1, 1, ⟨"\"RegisterSession\"".toUTF8.toList⟩⟩,
      .ok (.registerSession 1)⟩ : Completion) ∈
      ((init threeNodes).run unitCodec (firstLeader ++ deliveries [9, 11])).completions := by
    decide +kernel
  exact ⟨_, hdone, rfl, acknowledged_by_own_entry unitCodec threeNodes _ (by decide +kernel) _ hdone
    _ rfl⟩

/-- The first leader's registration stays on its own node. The second node is then elected in
the next term, where a client registers at the same index; that entry is committed and
replaces the first leader's. -/
def twoRegistrations : List RuntimeAction :=
  firstLeader ++ ticks 1 266 ++ deliveries [12, 13, 15, 16] ++ [.propose 1 .registerSession {}] ++
    deliveries [20, 21, 17, 19] ++ ticks 1 75 ++ deliveries [23]

/-- Both proposals are acknowledged with client id 1, the first one by an entry of term 2. -/
theorem twoRegistrations_share_client :
    ∃ first ∈ ((init threeNodes).run unitCodec twoRegistrations).completions,
      ∃ second ∈ ((init threeNodes).run unitCodec twoRegistrations).completions,
        first.node = 0 ∧ second.node = 1 ∧ first.sender ≠ second.sender ∧
        first.result = .ok (.registerSession 1) ∧ second.result = .ok (.registerSession 1) ∧
        ∃ call, ((init threeNodes).run unitCodec twoRegistrations).calls[first.sender]? =
          some call ∧ call.node = 0 ∧ call.index = 1 ∧ call.term = 1 ∧ first.entry.index = 1 ∧
          first.entry.term = 2 := by
  have hcompletions : ((init threeNodes).run unitCodec twoRegistrations).completions =
      [⟨1, 1, ⟨1, 2, ⟨"\"RegisterSession\"".toUTF8.toList⟩⟩, .ok (.registerSession 1)⟩,
        ⟨0, 0, ⟨1, 2, ⟨"\"RegisterSession\"".toUTF8.toList⟩⟩, .ok (.registerSession 1)⟩] := by
    decide +kernel
  have hcall : ((init threeNodes).run unitCodec twoRegistrations).calls[0]? =
      some ⟨0, 1, 1, "\"RegisterSession\"".toUTF8.toList⟩ := by decide +kernel
  rw [hcompletions]
  exact ⟨_, List.mem_cons_of_mem _ List.mem_cons_self, _, List.mem_cons_self, rfl, rfl, by decide,
    rfl, rfl, _, hcall, rfl, rfl, rfl, rfl, rfl⟩

end RuntimeCluster
end BasisDB.Runtime
