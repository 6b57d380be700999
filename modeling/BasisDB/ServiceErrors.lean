import BasisDB.KvAtomic
import BasisDB.ServiceLinear

/-! No answer of the service is an internal error: a channel only ever carries what the command of
its own request answers, in a state that commands made. The defensive branches of the handlers
are never taken, in any run. -/
namespace BasisDB.Runtime
open BasisDB.Raft BasisDB.Kv

namespace RuntimeCluster
variable {codec : Codec} {s : RuntimeCluster}

/-- States are made by commands; whoever waits does so with the bytes of its call, and whoever was
answered got what a command with these bytes answers in such a state, if it was not superseded. -/
structure Registered (codec : Codec) (s : RuntimeCluster) : Prop where
  states : ∀ n, ∃ es, (s.runtimes n).state = replay codec es
  waiters : ∀ n i pending, (s.runtimes n).waiters.get i = some pending →
    ∃ call, s.calls[pending.sender]? = some call ∧ call.index = i ∧
      call.command = pending.command
  completions : ∀ done ∈ s.completions, ∃ call, s.calls[done.sender]? = some call ∧
    (done.result = superseded ∨ done.entry.command.bytes = call.command ∧
      ∃ es, done.result = answerTo codec (replay codec es) done.entry)

theorem Registered.record (hs : s.Registered codec) {n : NodeId} {out : Outcome}
    {before : OrdMap ℕ PendingProposal} (hout : out.Waits codec before (s.runtimes n).state)
    (hbefore : ∀ i pending, before.get i = some pending →
      ∃ call, (s.calls ++ out.appended.toList)[pending.sender]? = some call ∧
        call.index = i ∧ call.command = pending.command) : (s.record n out).Registered codec := by
  have hget {i : ℕ} {call : ProposeCall} (h : s.calls[i]? = some call) :
      (s.calls ++ out.appended.toList)[i]? = some call := by
    rw [List.getElem?_append_left (List.getElem?_eq_some_iff.mp h).1, h]
  obtain ⟨start, hstart⟩ := hs.states n
  have hreplay (es : List CommittedEntry) :
      es.foldl (RaftRuntime.applyTo codec) (s.runtimes n).state = replay codec (start ++ es) := by
    rw [hstart, replay, replay, List.foldl_append]
  refine ⟨fun m => ?_, fun m i pending hpending => ?_, fun done hdone => ?_⟩
  · rcases eq_or_ne m n with rfl | hm
    · simp only [RuntimeCluster.record, Function.update_self]
      obtain ⟨es, hes⟩ := hout.applied
      exact ⟨start ++ es, hes.trans (hreplay es)⟩
    · simp only [RuntimeCluster.record, Function.update_of_ne hm]
      exact hs.states m
  · rcases eq_or_ne m n with rfl | hm
    · simp only [RuntimeCluster.record, Function.update_self] at hpending
      exact hbefore i pending (hout.waiters i pending hpending)
    · simp only [RuntimeCluster.record, Function.update_of_ne hm] at hpending
      obtain ⟨call, hcall, hrest⟩ := hs.waiters m i pending hpending
      exact ⟨call, hget hcall, hrest⟩
  · rcases List.mem_append.mp hdone with hdone | hdone
    · obtain ⟨call, hcall, hresult⟩ := hs.completions done hdone
      exact ⟨call, hget hcall, hresult⟩
    · obtain ⟨pending, es, hpending, hsender, hresult⟩ := hout.replies done hdone
      obtain ⟨call, hcall, -, hbytes⟩ := hbefore _ pending hpending
      refine ⟨call, hsender ▸ hcall, ?_⟩
      rw [hreplay] at hresult
      unfold PendingProposal.complete at hresult
      split_ifs at hresult with hsame
      · exact Or.inr ⟨hsame.symm.trans hbytes.symm, _, hresult⟩
      · exact Or.inl hresult

theorem Registered.setRuntime (hs : s.Registered codec) {n : NodeId} {r : RaftRuntime}
    (hstate : ∃ es, r.state = replay codec es)
    (hr : ∀ i pending, r.waiters.get i = some pending →
      (s.runtimes n).waiters.get i = some pending) : (s.setRuntime n r).Registered codec := by
  refine ⟨fun m => ?_, fun m i pending hpending => ?_, hs.completions⟩
  · rcases eq_or_ne m n with rfl | hm
    · simp only [RuntimeCluster.setRuntime, Function.update_self]
      exact hstate
    · simp only [RuntimeCluster.setRuntime, Function.update_of_ne hm]
      exact hs.states m
  · rcases eq_or_ne m n with rfl | hm
    · simp only [RuntimeCluster.setRuntime, Function.update_self] at hpending
      exact hs.waiters m i pending (hr i pending hpending)
    · simp only [RuntimeCluster.setRuntime, Function.update_of_ne hm] at hpending
      exact hs.waiters m i pending hpending

theorem Registered.step (hs : s.Registered codec) (a : RuntimeAction) :
    (s.step codec a).Registered codec := by
  have hcases := step_cases codec s a
  generalize s.step codec a = s', (fun c => lower codec s c a) = low at hcases
  cases hcases with
  | nothing => exact hs
  | refused n id error =>
    refine hs.record (RaftRuntime.waits_idle codec _ rfl (fun _ _ h => h) rfl)
      (fun i pending hpending => ?_)
    rw [Option.toList_none, List.append_nil]
    exact hs.waiters n i pending hpending
  | event n task event act hhealthy hsettled hevent hact hstep =>
    refine hs.record (RaftRuntime.drive_waits codec _ task _) (fun i pending hpending => ?_)
    rw [RaftRuntime.drive_appended, Option.toList_none, List.append_nil]
    exact hs.waiters n i pending hpending
  | proposal n command task id bytes index effects node hhealthy hsettled hencode haccepted hstep =>
    refine hs.record (RaftRuntime.awaitProposal_waits codec
      { s.runtimes n with nextProposalId := id } _ bytes _ task index effects node).1
      (fun i pending hpending => ?_)
    rw [RaftRuntime.awaitProposal_appended, Option.toList_some]
    rw [OrdMap.get_insert] at hpending
    split_ifs at hpending with hi
    · obtain rfl := Option.some.inj hpending
      exact ⟨_, List.getElem?_concat_length, hi, rfl⟩
    · obtain ⟨call, hcall, hrest⟩ := hs.waiters n i pending hpending
      refine ⟨call, ?_, hrest⟩
      rw [List.getElem?_append_left (List.getElem?_eq_some_iff.mp hcall).1, hcall]
  | cleanup n waiters hsub => exact hs.setRuntime (hs.states n) hsub
  | restart n =>
    exact hs.setRuntime ⟨[], rfl⟩
      (fun _ _ hpending => (Option.some_ne_none _ hpending.symm).elim)

theorem registered_run (codec : Codec) (configs : NodeId → NodeConfig)
    (acts : List RuntimeAction) : ((init configs).run codec acts).Registered codec := by
  have hinit : (init configs).Registered codec :=
    ⟨fun _ => ⟨[], rfl⟩, fun _ _ _ hpending => (Option.some_ne_none _ hpending.symm).elim,
      fun done hdone => absurd hdone List.not_mem_nil⟩
  generalize init configs = s at hinit ⊢
  induction acts generalizing s with
  | nil => exact hinit
  | cons a acts ih => exact ih _ (hinit.step a)

end RuntimeCluster

end BasisDB.Runtime

namespace BasisDB.Kv
open CommandRuns

/-- The kind of answer that belongs to a command. -/
def KvCommand.answeredBy : KvCommand → KvApplyResult → Bool
  | .registerSession, .registerSession _ => true
  | .readBarrier, .readBarrier => true
  | .put .., .put _ => true
  | .delete .., .delete _ => true
  | _, _ => false

namespace KvState
variable {s : KvState} {value : KvApplyResult}

/-- A recorded mutation answers what it recorded, or an error. -/
theorem record_ok {clientId sequence : ℕ} {request : MutationRequest} {result : MutationResult}
    {answer : Except ConnectError KvApplyResult}
    (h : (s.record clientId sequence request result answer).2 = .ok value) : answer = .ok value := by
  unfold record at h
  cases hsession : s.session clientId with
  | error error =>
    rw [hsession] at h
    cases h
  | ok session =>
    rw [hsession] at h
    exact h

theorem executePut_ok {clientId sequence : ℕ} {name : KvName} {body : List UInt8}
    {ifMatch : String} {ifNoneMatch : Bool}
    (h : (s.executePut clientId sequence name body ifMatch ifNoneMatch).2 = .ok value) :
    ∃ response, value = .put response := by
  unfold executePut at h
  dsimp only at h
  split at h
  · cases record_ok h
  · split at h
    · cases h
    · split at h
      · cases record_ok h
      · exact ⟨_, (Except.ok.inj (record_ok h)).symm⟩

theorem executeDelete_ok {clientId sequence : ℕ} {name : KvName} {ifMatch : String}
    (h : (s.executeDelete clientId sequence name ifMatch).2 = .ok value) :
    ∃ response, value = .delete response := by
  unfold executeDelete at h
  dsimp only at h
  split at h
  · cases record_ok h
  · exact ⟨_, (Except.ok.inj (record_ok h)).symm⟩

/-- A command is answered in its own kind. -/
theorem apply_answeredBy (c : KvCommand) (h : (s.apply c).2 = .ok value) :
    c.answeredBy value = true := by
  cases c with
  | registerSession =>
    unfold apply at h
    dsimp only at h
    split at h
    · cases h
    · obtain rfl := Except.ok.inj h
      rfl
  | readBarrier =>
    obtain rfl := Except.ok.inj h
    rfl
  | put clientId sequence namespace_ key body ifMatch ifNoneMatch =>
    simp only [apply, applyPut] at h
    split at h
    · cases h
    · split at h
      · cases h
      · obtain rfl := Except.ok.inj h
        rfl
      · obtain ⟨response, rfl⟩ := executePut_ok h
        rfl
  | delete clientId sequence namespace_ key ifMatch =>
    simp only [apply, applyDelete] at h
    split at h
    · cases h
    · split at h
      · cases h
      · obtain rfl := Except.ok.inj h
        rfl
      · obtain ⟨response, rfl⟩ := executeDelete_ok h
        rfl

end KvState

namespace Browse

theorem pageLimit_external (limit : ℕ) : External (pageLimit limit) := by
  unfold pageLimit
  split_ifs
  · exact External.ok _
  · exact External.ok _
  · apply External.error
    decide

theorem validateNamespaceCursor_external (cursor : String) :
    External (validateNamespaceCursor cursor) := by
  unfold validateNamespaceCursor
  split_ifs
  · apply External.error
    decide
  · exact External.ok _

theorem validateList_external (namespace_ keyPrefix startAfter : String) :
    External (validateList namespace_ keyPrefix startAfter) := by
  unfold validateList
  split_ifs
  · apply External.error
    decide
  · apply External.error
    decide
  · exact External.ok _

theorem bodyLen_external (body : List UInt8) : External (bodyLen body) := by
  unfold bodyLen
  split_ifs
  · exact External.ok _
  · apply External.error
    decide

theorem countKey_external (page : List Namespace) : External (countKey page) := by
  unfold countKey
  dsimp only
  split
  · exact External.ok _
  · split
    · apply External.error
      decide
    · exact External.ok _

theorem namespacesFrom_external (startAfter : String) (limit : ℕ) (page : List Namespace)
    (rest : List (KvName × KvRecord)) : External (namespacesFrom startAfter limit page rest) := by
  induction rest generalizing page with
  | nil => exact External.ok _
  | cons row rest ih =>
    obtain ⟨name, record⟩ := row
    unfold namespacesFrom
    split_ifs
    · exact ih page
    · exact External.ok _
    · exact External.bind (countKey_external _) ih
    · exact External.bind (countKey_external _) ih

theorem entriesFrom_external (namespace_ keyPrefix startAfter : String) (limit : ℕ)
    (page : List HeadResponse) (rest : List (KvName × KvRecord)) :
    External (entriesFrom namespace_ keyPrefix startAfter limit page rest) := by
  induction rest generalizing page with
  | nil => exact External.ok _
  | cons row rest ih =>
    obtain ⟨name, record⟩ := row
    unfold entriesFrom
    split_ifs
    · exact External.ok _
    · exact ih page
    · exact External.ok _
    · exact External.bind (bodyLen_external _) (fun size => ih _)

theorem listNamespaces_external (state : KvState) (startAfter : String) (limit : ℕ) :
    External (listNamespaces state startAfter limit) :=
  External.bind (pageLimit_external limit) (fun _ =>
    External.bind (validateNamespaceCursor_external startAfter) (fun _ =>
      namespacesFrom_external _ _ _ _))

theorem list_external (state : KvState) (namespace_ keyPrefix startAfter : String) (limit : ℕ) :
    External (list state namespace_ keyPrefix startAfter limit) :=
  External.bind (pageLimit_external limit) (fun _ =>
    External.bind (validateList_external namespace_ keyPrefix startAfter) (fun _ =>
      entriesFrom_external _ _ _ _ _ _))

end Browse
end BasisDB.Kv

namespace BasisDB.Service
open BasisDB.Raft BasisDB.Kv BasisDB.Runtime BasisDB.Runtime.RuntimeCluster

/-- The answer is not an internal error. -/
def External {α : Type} (answer : Except ServiceError α) : Prop :=
  ∀ error, answer = .error (.connect error) → error.code ≠ .internal

namespace External
variable {α β : Type}

theorem ok (a : α) : External (.ok a : Except ServiceError α) := by
  intro error h
  cases h

theorem withConnect {r : Except ConnectError α} (hr : Kv.External r) :
    External (Service.withConnect r) := by
  cases r with
  | ok a => exact ok a
  | error e =>
    intro error h
    obtain rfl := ServiceError.connect.inj (Except.error.inj h)
    exact hr _ rfl

theorem bind {r : Except ServiceError α} {f : α → Except ServiceError β} (hr : External r)
    (hf : ∀ a, External (f a)) : External (r >>= f) := by
  cases r with
  | error e =>
    intro error h
    exact hr error (congrArg Except.error (Except.error.inj h))
  | ok a => exact hf a

end External

/-- A handler whose proposal got an answer of the command's kind, and no internal error, does not
answer one. -/
theorem Request.answer_external {request : Request} {command : KvCommand}
    (hcommand : request.command = .ok command) {result : Except ConnectError KvApplyResult}
    (hkind : ∀ value, result = .ok value → command.answeredBy value = true)
    (hresult : Kv.External result) (state : KvState) :
    External (request.answer result state) := by
  have hfail {error : ConnectError} (he : result = .error error) :
      External (.error (.connect error) : Except ServiceError Response) :=
    External.withConnect (Kv.External.error (hresult error he))
  have hbarrier (hreads : request.reads = true) : External (readBarrier result) := by
    obtain rfl := command_of_reads hreads hcommand
    cases result with
    | error error => exact External.withConnect (Kv.External.error (hresult error rfl))
    | ok value =>
      have hvalue := hkind value rfl
      cases value with
      | readBarrier => exact External.ok ()
      | registerSession | put | delete => cases hvalue
  have hlookUp (namespace_ key : String) : External (lookUp state namespace_ key) := by
    unfold lookUp
    split
    · exact External.ok _
    · intro error h
      cases h
  have hsize (record : KvRecord) : External (withConnect (bodyLen record.body)) :=
    External.withConnect (Browse.bodyLen_external _)
  cases request with
  | registerSession =>
    obtain rfl := Except.ok.inj hcommand
    cases result with
    | error error => exact hfail rfl
    | ok value =>
      have hvalue := hkind value rfl
      cases value with
      | registerSession clientId => exact External.ok _
      | put | delete | readBarrier => cases hvalue
  | put clientId sequence namespace_ key body ifMatch ifNoneMatch =>
    obtain rfl := command_of_put hcommand
    cases result with
    | error error => exact hfail rfl
    | ok value =>
      have hvalue := hkind value rfl
      cases value with
      | put response => exact External.ok _
      | registerSession | delete | readBarrier => cases hvalue
  | delete clientId sequence namespace_ key ifMatch =>
    obtain rfl := command_of_delete hcommand
    cases result with
    | error error => exact hfail rfl
    | ok value =>
      have hvalue := hkind value rfl
      cases value with
      | delete response => exact External.ok _
      | registerSession | put | readBarrier => cases hvalue
  | head namespace_ key =>
    exact External.bind (hbarrier rfl) (fun _ => External.bind (hlookUp namespace_ key)
      (fun record => External.bind (hsize record) (fun _ => External.ok _)))
  | get namespace_ key =>
    exact External.bind (hbarrier rfl) (fun _ => External.bind (hlookUp namespace_ key)
      (fun record => External.bind (hsize record) (fun _ => External.ok _)))
  | list namespace_ keyPrefix startAfter limit =>
    exact External.bind (hbarrier rfl) (fun _ => External.bind
      (External.withConnect (Browse.list_external state _ _ _ _)) (fun _ => External.ok _))
  | listNamespaces startAfter limit =>
    exact External.bind (hbarrier rfl) (fun _ => External.bind
      (External.withConnect (Browse.listNamespaces_external state _ _)) (fun _ => External.ok _))

/-- Commands leave the sessions well formed. -/
theorem replay_wellFormed (codec : Codec) (es : List CommittedEntry) :
    (replay codec es).WellFormed := by
  have happly (s : KvState) (entry : CommittedEntry) (hs : s.WellFormed) :
      (RaftRuntime.applyTo codec s entry).WellFormed := by
    unfold RaftRuntime.applyTo
    split
    · exact hs
    · exact KvState.apply_wellFormed s _ hs
  unfold replay
  have hnew := KvState.new_wellFormed
  generalize KvState.new = s at hnew ⊢
  induction es generalizing s with
  | nil => exact hnew
  | cons entry es ih => exact ih _ (happly s entry hnew)

/-- No request that got an answer through its channel is answered with an internal error: neither
a session that is in disorder, nor a command that cannot be read back, nor an answer of another
kind than the command is ever met, in any run. -/
theorem service_never_answers_internal (codec : Codec) (configs : NodeId → NodeConfig)
    (acts : List RuntimeAction) (hcodec : codec.RoundTrips) (v : Visit)
    (h : v.Returns codec configs acts) : External (v.response codec configs acts) := by
  obtain ⟨call, hcall, hresult⟩ :=
    (registered_run codec configs (interrupted acts v.answered v.turn)).completions _ h.completes
  have hcalls := @during_calls codec acts (init configs) v.answered v.turn
  rw [during] at hcalls
  rw [hcalls] at hcall
  obtain ⟨-, command, hcommand, hencode⟩ := h.call hcall
  -- what is in the channel: the command's answer in a well-formed state, or `superseded`
  have hanswer : v.done.result = superseded ∨
      ∃ es, v.done.result = ((replay codec es).apply command).2 := by
    refine hresult.imp id ?_
    rintro ⟨hbytes, es, hes⟩
    refine ⟨es, hes.trans (answerTo_decoded ?_ _)⟩
    rw [hbytes]
    exact hcodec command call.command hencode
  refine Request.answer_external hcommand ?_ ?_ _
  · intro value hvalue
    rcases hanswer with hs | ⟨es, hes⟩
    · rw [hs] at hvalue
      cases hvalue
    · exact KvState.apply_answeredBy command (hes.symm.trans hvalue)
  · rcases hanswer with hs | ⟨es, hes⟩
    · rw [hs]
      apply Kv.External.error
      decide
    · rw [hes]
      exact KvState.apply_external (replay_wellFormed codec es) command

theorem service_never_answers_internal_quickGet :
    quickGet.response unitCodec quickNodes quickRead = .error keyNotFound ∧
      External (quickGet.response unitCodec quickNodes quickRead) :=
  ⟨by decide +kernel, service_never_answers_internal unitCodec quickNodes quickRead
    unitCodec_roundTrips quickGet quickGet_happens.toReturns⟩

end BasisDB.Service
