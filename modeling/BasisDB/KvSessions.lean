import BasisDB.CommandRuns
import BasisDB.KvCommand

/-! Client sessions of the KV state machine: what one command does to a session, the
invariant of reachable states, and exactly-once execution of mutations. -/
namespace BasisDB.Kv

/-- The client id and sequence of a mutation. -/
def KvCommand.client : KvCommand → Option (ℕ × ℕ)
  | .put clientId sequence .. => some (clientId, sequence)
  | .delete clientId sequence .. => some (clientId, sequence)
  | .registerSession => none
  | .readBarrier => none

/-- The request of a mutation that passes validation. -/
def KvCommand.request : KvCommand → Option MutationRequest
  | .put clientId sequence namespace_ key body ifMatch ifNoneMatch =>
    match putName clientId sequence namespace_ key body ifMatch ifNoneMatch with
    | .ok name => some (.put name body ifMatch ifNoneMatch)
    | .error _ => none
  | .delete clientId sequence namespace_ key ifMatch =>
    match deleteName clientId sequence namespace_ key ifMatch with
    | .ok name => some (.delete name ifMatch)
    | .error _ => none
  | .registerSession => none
  | .readBarrier => none

/-- A mutation that is not refused by validation, an unknown session or a stale sequence. -/
def KvState.executes (s : KvState) (c : KvCommand) : Bool :=
  match c.client, c.request with
  | some (clientId, sequence), some _ =>
    (s.sessions.get clientId).any (fun session => decide (session.sequence ≤ sequence))
  | _, _ => false

theorem KvState.executes_iff {s : KvState} {c : KvCommand} : s.executes c = true ↔
    ∃ k n request session, c.client = some (k, n) ∧ c.request = some request ∧
      s.sessions.get k = some session ∧ session.sequence ≤ n := by
  unfold executes
  rcases hc : c.client with _ | ⟨k, n⟩
  · simp
  rcases hreq : c.request with _ | request
  · simp
  · simp [Option.any_eq_true]

def MutationResult.answer : MutationResult → Except ConnectError KvApplyResult
  | .put response => .ok (.put response)
  | .delete response => .ok (.delete response)
  | .rejected rejection => .error rejection.connectError

/-- A result is a rejection or of the request's own kind. -/
def MutationRequest.Fits : MutationRequest → MutationResult → Prop
  | _, .rejected _ => True
  | .put .., .put _ => True
  | .delete .., .delete _ => True
  | .put .., .delete _ => False
  | .delete .., .put _ => False

/-- A session without a mutation, or with the request and the result of its last one. -/
def SessionState.WellFormed (session : SessionState) : Prop :=
  session = {} ∨ 0 < session.sequence ∧ ∃ request result, session.request = some request ∧
    session.result = some result ∧ request.Fits result

/-- The answer to a mutation that carries the session's own sequence. -/
def SessionState.replay (session : SessionState) (request : MutationRequest) :
    Except ConnectError KvApplyResult :=
  match session.request, session.result with
  | some cached, some result =>
    if cached = request then result.answer else .error sequenceReused
  | _, _ => .error ⟨.internal, "session cache is incomplete"⟩

/-- A mutation executed for the first time: its result is answered and recorded. -/
def Records (s : KvState) (clientId sequence : ℕ) (request : MutationRequest)
    (out : KvState × Except ConnectError KvApplyResult) : Prop :=
  ∃ result, request.Fits result ∧ out.2 = result.answer ∧
    out.1.nextClientId = s.nextClientId ∧
    out.1.sessions = s.sessions.insert clientId ⟨sequence, some request, some result⟩

theorem sequence_pos_of_validate {clientId sequence : ℕ} {u : Unit}
    (h : validateMutationRequest clientId sequence = .ok u) : 0 < sequence := by
  unfold validateMutationRequest at h
  split_ifs at h with hc hs
  exact Nat.pos_of_ne_zero hs

theorem putName_ok {clientId sequence : ℕ} {namespace_ key : String} {body : List UInt8}
    {ifMatch : String} {ifNoneMatch : Bool} {name : KvName}
    (h : putName clientId sequence namespace_ key body ifMatch ifNoneMatch = .ok name) :
    0 < sequence ∧ validatePutPreconditions ifMatch ifNoneMatch = .ok () ∧
      body.length ≤ maxValueBytes ∧ KvName.new namespace_ key = .ok name := by
  simp only [putName, bind, Except.bind] at h
  split at h
  · cases h
  rename_i hv
  split at h
  · cases h
  rename_i hp
  split at h
  · cases h
  rename_i hb
  refine ⟨sequence_pos_of_validate hv, hp, ?_, h⟩
  unfold validateValue at hb
  split_ifs at hb with hlen
  exact not_lt.mp hlen

/-- The request of a put carries what the command does, under the name that was checked. -/
theorem KvCommand.request_put {c : KvCommand} {name : KvName} {body : List UInt8}
    {ifMatch : String} {ifNoneMatch : Bool}
    (h : c.request = some (.put name body ifMatch ifNoneMatch)) :
    ∃ clientId sequence namespace_ key,
      c = .put clientId sequence namespace_ key body ifMatch ifNoneMatch ∧
      putName clientId sequence namespace_ key body ifMatch ifNoneMatch = .ok name := by
  cases c with
  | registerSession => cases h
  | readBarrier => cases h
  | delete k n ns key ifMatch' =>
    simp only [KvCommand.request] at h
    cases hname : deleteName k n ns key ifMatch' <;> simp [hname] at h
  | put k n ns key body' ifMatch' ifNoneMatch' =>
    simp only [KvCommand.request] at h
    cases hname : putName k n ns key body' ifMatch' ifNoneMatch' with
    | error e => simp [hname] at h
    | ok name' =>
      simp only [hname, Option.some.injEq, MutationRequest.put.injEq] at h
      obtain ⟨rfl, rfl, rfl, rfl⟩ := h
      exact ⟨k, n, ns, key, rfl, hname⟩

theorem deleteName_ok {clientId sequence : ℕ} {namespace_ key : String} {ifMatch : String}
    {name : KvName} (h : deleteName clientId sequence namespace_ key ifMatch = .ok name) :
    0 < sequence := by
  simp only [deleteName, bind, Except.bind] at h
  split at h
  · cases h
  rename_i hv
  exact sequence_pos_of_validate hv

theorem cachedMutation_stale {session : SessionState} {sequence : ℕ} (request : MutationRequest)
    (h : sequence < session.sequence) :
    cachedMutation session sequence request = .error staleSequence := by
  rw [cachedMutation, compare_lt_iff_lt.mpr h]

theorem cachedMutation_fresh {session : SessionState} {sequence : ℕ} (request : MutationRequest)
    (h : session.sequence < sequence) : cachedMutation session sequence request = .ok none := by
  rw [cachedMutation, compare_gt_iff_gt.mpr h]

theorem cachedMutation_recorded {session : SessionState} {cached request : MutationRequest}
    {result : MutationResult} (hreq : session.request = some cached)
    (hres : session.result = some result) :
    cachedMutation session session.sequence request =
      if cached = request then .ok (some result) else .error sequenceReused := by
  rw [cachedMutation, compare_eq_iff_eq.mpr rfl, hreq, hres]

theorem bodyLen_ok {body : List UInt8} (h : body.length ≤ maxValueBytes) :
    bodyLen body = .ok body.length := by
  unfold bodyLen maxValueBytes at *
  rw [if_pos (by omega)]

namespace KvState
variable {s : KvState} {clientId sequence : ℕ} {session : SessionState}

theorem session_eq (hs : s.sessions.get clientId = some session) :
    s.session clientId = .ok session := by
  rw [KvState.session, hs]

/-- Recording a result on a state with the same sessions. -/
theorem records_record {t : KvState} {request : MutationRequest} {result : MutationResult}
    (hs : s.sessions.get clientId = some session) (hid : t.nextClientId = s.nextClientId)
    (ht : t.sessions = s.sessions) (hfit : request.Fits result) :
    Records s clientId sequence request
      (t.record clientId sequence request result result.answer) := by
  rw [KvState.record, session_eq (ht ▸ hs)]
  exact ⟨result, hfit, rfl, hid, congrArg (OrdMap.insert · _ _) ht⟩

theorem takeGeneration_frame (s : KvState) :
    s.takeGeneration.1.nextClientId = s.nextClientId ∧
      s.takeGeneration.1.sessions = s.sessions := by
  unfold takeGeneration
  cases checkedSucc s.nextGeneration <;> exact ⟨rfl, rfl⟩

theorem executePut_records {name : KvName} {body : List UInt8} {ifMatch : String}
    {ifNoneMatch : Bool} (hs : s.sessions.get clientId = some session)
    (hbody : body.length ≤ maxValueBytes) :
    Records s clientId sequence (.put name body ifMatch ifNoneMatch)
      (s.executePut clientId sequence name body ifMatch ifNoneMatch) := by
  obtain ⟨hid, hss⟩ := takeGeneration_frame s
  unfold executePut
  rw [bodyLen_ok hbody]
  cases checkPutPreconditions (s.entries.get name) ifMatch ifNoneMatch with
  | error rejection => exact records_record hs rfl rfl trivial
  | ok _ =>
    generalize s.takeGeneration = taken at hid hss ⊢
    obtain ⟨t, rejection | generation⟩ := taken
    · exact records_record hs hid hss trivial
    · exact records_record hs hid hss trivial

theorem executeDelete_records {name : KvName} {ifMatch : String}
    (hs : s.sessions.get clientId = some session) :
    Records s clientId sequence (.delete name ifMatch)
      (s.executeDelete clientId sequence name ifMatch) := by
  unfold executeDelete
  dsimp only
  split
  · exact records_record hs rfl rfl trivial
  · exact records_record hs rfl rfl trivial

section Cache
variable (hs : s.sessions.get clientId = some session) {request : MutationRequest}
include hs

theorem cachedPut_eq : s.cachedPut clientId sequence request =
    (cachedMutation session sequence request >>= fun
      | some (.put response) => .ok (some response)
      | some (.rejected rejection) => .error rejection.connectError
      | some (.delete _) => .error ⟨.internal, "session result mismatch"⟩
      | none => .ok none) := by
  rw [cachedPut, session_eq hs]
  rfl

theorem cachedDelete_eq : s.cachedDelete clientId sequence request =
    (cachedMutation session sequence request >>= fun
      | some (.delete response) => .ok (some response)
      | some (.rejected rejection) => .error rejection.connectError
      | some (.put _) => .error ⟨.internal, "session result mismatch"⟩
      | none => .ok none) := by
  rw [cachedDelete, session_eq hs]
  rfl

end Cache

section Mutation
variable {c : KvCommand} {request : MutationRequest}

/-- A valid mutation consults the session cache and executes when the cache has no answer. -/
theorem apply_valid (hc : c.client = some (clientId, sequence)) (hreq : c.request = some request) :
    0 < sequence ∧
    ((∃ name body ifMatch ifNoneMatch, request = .put name body ifMatch ifNoneMatch ∧
      body.length ≤ maxValueBytes ∧ ∀ s : KvState, s.apply c =
        match s.cachedPut clientId sequence request with
        | .error error => (s, .error error)
        | .ok (some response) => (s, .ok (.put response))
        | .ok none => s.executePut clientId sequence name body ifMatch ifNoneMatch) ∨
    (∃ name ifMatch, request = .delete name ifMatch ∧ ∀ s : KvState, s.apply c =
        match s.cachedDelete clientId sequence request with
        | .error error => (s, .error error)
        | .ok (some response) => (s, .ok (.delete response))
        | .ok none => s.executeDelete clientId sequence name ifMatch)) := by
  cases c with
  | registerSession => cases hc
  | readBarrier => cases hc
  | put k n namespace_ key body ifMatch ifNoneMatch =>
    cases hc
    cases hname : putName clientId sequence namespace_ key body ifMatch ifNoneMatch with
    | error error => simp [KvCommand.request, hname] at hreq
    | ok name =>
      simp only [KvCommand.request, hname, Option.some.injEq] at hreq
      subst hreq
      obtain ⟨hn, -, hbody, -⟩ := putName_ok hname
      refine ⟨hn, Or.inl ⟨name, body, ifMatch, ifNoneMatch, rfl, hbody, fun s => ?_⟩⟩
      rewrite [apply, applyPut, hname]
      rfl
  | delete k n namespace_ key ifMatch =>
    cases hc
    cases hname : deleteName clientId sequence namespace_ key ifMatch with
    | error error => simp [KvCommand.request, hname] at hreq
    | ok name =>
      simp only [KvCommand.request, hname, Option.some.injEq] at hreq
      subst hreq
      refine ⟨deleteName_ok hname, Or.inr ⟨name, ifMatch, rfl, fun s => ?_⟩⟩
      rewrite [apply, applyDelete, hname]
      rfl

/-- A mutation that fails validation changes nothing. -/
theorem apply_invalid (s : KvState) (hc : c.client = some (clientId, sequence))
    (hreq : c.request = none) : ∃ error, s.apply c = (s, .error error) := by
  cases c with
  | registerSession => cases hc
  | readBarrier => cases hc
  | put k n namespace_ key body ifMatch ifNoneMatch =>
    cases hname : putName k n namespace_ key body ifMatch ifNoneMatch with
    | error error => exact ⟨error, by rw [apply, applyPut, hname]⟩
    | ok name => simp [KvCommand.request, hname] at hreq
  | delete k n namespace_ key ifMatch =>
    cases hname : deleteName k n namespace_ key ifMatch with
    | error error => exact ⟨error, by rw [apply, applyDelete, hname]⟩
    | ok name => simp [KvCommand.request, hname] at hreq

variable (hc : c.client = some (clientId, sequence)) (hreq : c.request = some request)
include hc hreq

theorem apply_unknown (hs : s.sessions.get clientId = none) :
    s.apply c = (s, .error unknownSession) := by
  have hsession : s.session clientId = .error unknownSession := by rw [KvState.session, hs]
  obtain ⟨-, ⟨name, body, ifMatch, ifNoneMatch, -, -, happly⟩ | ⟨name, ifMatch, -, happly⟩⟩ :=
    apply_valid hc hreq
  · rw [happly, cachedPut, hsession]
    rfl
  · rw [happly, cachedDelete, hsession]
    rfl

theorem apply_stale (hs : s.sessions.get clientId = some session)
    (hlt : sequence < session.sequence) : s.apply c = (s, .error staleSequence) := by
  obtain ⟨-, ⟨name, body, ifMatch, ifNoneMatch, -, -, happly⟩ | ⟨name, ifMatch, -, happly⟩⟩ :=
    apply_valid hc hreq
  · rw [happly, cachedPut_eq hs, cachedMutation_stale request hlt]
    rfl
  · rw [happly, cachedDelete_eq hs, cachedMutation_stale request hlt]
    rfl

theorem apply_fresh (hs : s.sessions.get clientId = some session)
    (hlt : session.sequence < sequence) :
    Records s clientId sequence request (s.apply c) := by
  obtain ⟨-, ⟨name, body, ifMatch, ifNoneMatch, rfl, hbody, happly⟩ |
    ⟨name, ifMatch, rfl, happly⟩⟩ := apply_valid hc hreq
  · rw [happly, cachedPut_eq hs, cachedMutation_fresh _ hlt]
    exact executePut_records hs hbody
  · rw [happly, cachedDelete_eq hs, cachedMutation_fresh _ hlt]
    exact executeDelete_records hs

/-- A mutation with the session's own sequence is answered from the session. -/
theorem apply_replay (hs : s.sessions.get clientId = some session) (hwf : session.WellFormed)
    (heq : sequence = session.sequence) : s.apply c = (s, session.replay request) := by
  obtain ⟨hpos, hkind⟩ := apply_valid hc hreq
  rcases hwf with rfl | ⟨-, cached, result, hcached, hresult, hfit⟩
  · exact absurd heq hpos.ne'
  have hmut : cachedMutation session sequence request =
      if cached = request then .ok (some result) else .error sequenceReused := by
    rw [heq, cachedMutation_recorded hcached hresult]
  have hreplay : session.replay request =
      if cached = request then result.answer else .error sequenceReused := by
    rw [SessionState.replay, hcached, hresult]
  rw [hreplay]
  by_cases hsame : cached = request
  · rw [if_pos hsame] at hmut ⊢
    subst hsame
    rcases hkind with ⟨name, body, ifMatch, ifNoneMatch, rfl, -, happly⟩ |
      ⟨name, ifMatch, rfl, happly⟩
    · rw [happly, cachedPut_eq hs, hmut]
      cases result with
      | put response => rfl
      | delete response => exact hfit.elim
      | rejected rejection => rfl
    · rw [happly, cachedDelete_eq hs, hmut]
      cases result with
      | put response => exact hfit.elim
      | delete response => rfl
      | rejected rejection => rfl
  · rw [if_neg hsame] at hmut ⊢
    rcases hkind with ⟨name, body, ifMatch, ifNoneMatch, -, -, happly⟩ | ⟨name, ifMatch, -, happly⟩
    · rw [happly, cachedPut_eq hs, hmut]
      rfl
    · rw [happly, cachedDelete_eq hs, hmut]
      rfl

end Mutation
end KvState
end BasisDB.Kv
