import BasisDB.OrdMap

/-! Replicated KV commands and their deterministic application. A step that fails still
returns a state: a committed rejection is recorded in the caller's session. -/
namespace BasisDB.Kv

def maxValueBytes : ℕ := 64 * 1024
def maxNamespaceBytes : ℕ := 255
def maxKeyBytes : ℕ := 1024
def maxEtagBytes : ℕ := 128

inductive ErrorCode where
  | invalidArgument
  | failedPrecondition
  | resourceExhausted
  | aborted
  | unavailable
  | internal
  deriving DecidableEq

structure ConnectError where
  code : ErrorCode
  message : String
  deriving DecidableEq

inductive KvCommand where
  | registerSession
  | readBarrier
  | put (clientId sequence : ℕ) (namespace_ key : String) (body : List UInt8)
      (ifMatch : String) (ifNoneMatch : Bool)
  | delete (clientId sequence : ℕ) (namespace_ key : String) (ifMatch : String)
  deriving DecidableEq

structure PutResponse where
  namespace_ : String
  key : String
  etag : String
  generation : ℕ
  size : ℕ
  deriving DecidableEq

structure DeleteResponse where
  namespace_ : String
  key : String
  etag : String
  generation : ℕ
  deleted : Bool
  deriving DecidableEq

inductive KvApplyResult where
  | registerSession (clientId : ℕ)
  | put (response : PutResponse)
  | delete (response : DeleteResponse)
  | readBarrier
  deriving DecidableEq

structure KvName where
  namespace_ : String
  key : String
  deriving DecidableEq

/-- Names are ordered by namespace, then key. -/
instance : LinearOrder KvName :=
  LinearOrder.lift' (fun name => toLex (name.namespace_, name.key)) <| by
    intro a b h
    cases a
    cases b
    simpa using h

structure KvRecord where
  body : List UInt8
  etag : String
  generation : ℕ
  deriving DecidableEq

inductive MutationRequest where
  | put (name : KvName) (body : List UInt8) (ifMatch : String) (ifNoneMatch : Bool)
  | delete (name : KvName) (ifMatch : String)
  deriving DecidableEq

inductive MutationRejection where
  | keyExists
  | etagMismatch
  | generationExhausted
  deriving DecidableEq

def MutationRejection.connectError : MutationRejection → ConnectError
  | .keyExists => ⟨.failedPrecondition, "key already exists"⟩
  | .etagMismatch => ⟨.failedPrecondition, "ETag precondition failed"⟩
  | .generationExhausted => ⟨.resourceExhausted, "kv generation space exhausted"⟩

inductive MutationResult where
  | put (response : PutResponse)
  | delete (response : DeleteResponse)
  | rejected (rejection : MutationRejection)
  deriving DecidableEq

structure SessionState where
  sequence : ℕ := 0
  request : Option MutationRequest := none
  result : Option MutationResult := none
  deriving DecidableEq

structure KvState where
  nextClientId : ℕ
  nextGeneration : ℕ
  entries : OrdMap KvName KvRecord
  sessions : OrdMap ℕ SessionState
  deriving DecidableEq

/-- `KvState::new`. -/
def KvState.new : KvState := ⟨1, 1, OrdMap.empty, OrdMap.empty⟩

/-- `checked_add(1)` on a 64-bit counter. -/
def checkedSucc (n : ℕ) : Option ℕ := if n + 1 < 2 ^ 64 then some (n + 1) else none

def validateMutationRequest (clientId sequence : ℕ) : Except ConnectError Unit :=
  if clientId = 0 then .error ⟨.invalidArgument, "client_id must be registered"⟩
  else if sequence = 0 then .error ⟨.invalidArgument, "sequence must be positive"⟩
  else .ok ()

def validateEtag (etag : String) : Except ConnectError Unit :=
  if maxEtagBytes < etag.utf8ByteSize then
    .error ⟨.invalidArgument, "ETag exceeds 128-byte limit"⟩
  else .ok ()

def validatePutPreconditions (ifMatch : String) (ifNoneMatch : Bool) :
    Except ConnectError Unit := do
  validateEtag ifMatch
  if ifMatch ≠ "" ∧ ifNoneMatch then
    .error ⟨.invalidArgument, "if_match and if_none_match are mutually exclusive"⟩
  else .ok ()

def validateValue (body : List UInt8) : Except ConnectError Unit :=
  if maxValueBytes < body.length then
    .error ⟨.resourceExhausted, "value exceeds 65536-byte limit"⟩
  else .ok ()

/-- `KvName::new`. -/
def KvName.new (namespace_ key : String) : Except ConnectError KvName :=
  if namespace_ = "" then .error ⟨.invalidArgument, "namespace must not be empty"⟩
  else if maxNamespaceBytes < namespace_.utf8ByteSize then
    .error ⟨.invalidArgument, "namespace exceeds 255-byte limit"⟩
  else if key = "" then .error ⟨.invalidArgument, "key must not be empty"⟩
  else if maxKeyBytes < key.utf8ByteSize then
    .error ⟨.invalidArgument, "key exceeds 1024-byte limit"⟩
  else .ok ⟨namespace_, key⟩

def checkPutPreconditions (current : Option KvRecord) (ifMatch : String) (ifNoneMatch : Bool) :
    Except MutationRejection Unit :=
  if ifNoneMatch ∧ current.isSome then .error .keyExists
  else if ifMatch ≠ "" then
    match current with
    | some record => if record.etag = ifMatch then .ok () else .error .etagMismatch
    | none => .error .etagMismatch
  else .ok ()

def unknownSession : ConnectError := ⟨.invalidArgument, "unknown client session"⟩
def staleSequence : ConnectError := ⟨.aborted, "stale client sequence"⟩
def sequenceReused : ConnectError := ⟨.aborted, "sequence reused for different request"⟩

def cachedMutation (session : SessionState) (sequence : ℕ) (request : MutationRequest) :
    Except ConnectError (Option MutationResult) :=
  match compare sequence session.sequence with
  | .lt => .error staleSequence
  | .gt => .ok none
  | .eq =>
    match session.request, session.result with
    | some cached, some result =>
      if cached = request then .ok (some result) else .error sequenceReused
    | none, none => .error ⟨.internal, "session cache is incomplete"⟩
    | _, _ => .error ⟨.internal, "session cache is inconsistent"⟩

def etagFor (generation : ℕ) : String := "\"c9-" ++ toString generation ++ "\""

def bodyLen (body : List UInt8) : Except ConnectError ℕ :=
  if body.length < 2 ^ 64 then .ok body.length
  else .error ⟨.resourceExhausted, "value too large"⟩

namespace KvState

def session (s : KvState) (clientId : ℕ) : Except ConnectError SessionState :=
  match s.sessions.get clientId with
  | some session => .ok session
  | none => .error unknownSession

/-- `self.session_mut(client_id)?.record(..)` followed by the answer. -/
def record (s : KvState) (clientId sequence : ℕ) (request : MutationRequest)
    (result : MutationResult) (answer : Except ConnectError KvApplyResult) :
    KvState × Except ConnectError KvApplyResult :=
  match s.session clientId with
  | .error error => (s, .error error)
  | .ok _ =>
    ({ s with sessions := s.sessions.insert clientId ⟨sequence, some request, some result⟩ },
      answer)

def reject (s : KvState) (clientId sequence : ℕ) (request : MutationRequest)
    (rejection : MutationRejection) : KvState × Except ConnectError KvApplyResult :=
  s.record clientId sequence request (.rejected rejection) (.error rejection.connectError)

def cachedPut (s : KvState) (clientId sequence : ℕ) (request : MutationRequest) :
    Except ConnectError (Option PutResponse) := do
  let session ← s.session clientId
  match ← cachedMutation session sequence request with
  | some (.put response) => .ok (some response)
  | some (.rejected rejection) => .error rejection.connectError
  | some (.delete _) => .error ⟨.internal, "session result mismatch"⟩
  | none => .ok none

def cachedDelete (s : KvState) (clientId sequence : ℕ) (request : MutationRequest) :
    Except ConnectError (Option DeleteResponse) := do
  let session ← s.session clientId
  match ← cachedMutation session sequence request with
  | some (.delete response) => .ok (some response)
  | some (.rejected rejection) => .error rejection.connectError
  | some (.put _) => .error ⟨.internal, "session result mismatch"⟩
  | none => .ok none

/-- `KvState::next_client_id`, with the session it opens. -/
def takeClientId (s : KvState) : KvState × Except ConnectError ℕ :=
  match checkedSucc s.nextClientId with
  | none => (s, .error ⟨.resourceExhausted, "client id space exhausted"⟩)
  | some next =>
    ({ s with nextClientId := next, sessions := s.sessions.insert s.nextClientId {} },
      .ok s.nextClientId)

/-- `KvState::next_generation`. -/
def takeGeneration (s : KvState) : KvState × Except MutationRejection ℕ :=
  match checkedSucc s.nextGeneration with
  | none => (s, .error .generationExhausted)
  | some next => ({ s with nextGeneration := next }, .ok s.nextGeneration)

end KvState

/-- What `apply_put` checks before it looks at the state. -/
def putName (clientId sequence : ℕ) (namespace_ key : String) (body : List UInt8)
    (ifMatch : String) (ifNoneMatch : Bool) : Except ConnectError KvName := do
  validateMutationRequest clientId sequence
  validatePutPreconditions ifMatch ifNoneMatch
  validateValue body
  KvName.new namespace_ key

/-- What `apply_delete` checks before it looks at the state. -/
def deleteName (clientId sequence : ℕ) (namespace_ key : String) (ifMatch : String) :
    Except ConnectError KvName := do
  validateMutationRequest clientId sequence
  validateEtag ifMatch
  KvName.new namespace_ key

namespace KvState

/-- The part of `apply_put` behind the session cache. -/
def executePut (s : KvState) (clientId sequence : ℕ) (name : KvName) (body : List UInt8)
    (ifMatch : String) (ifNoneMatch : Bool) : KvState × Except ConnectError KvApplyResult :=
  let request := MutationRequest.put name body ifMatch ifNoneMatch
  match checkPutPreconditions (s.entries.get name) ifMatch ifNoneMatch with
  | .error rejection => s.reject clientId sequence request rejection
  | .ok () =>
    match bodyLen body with
    | .error error => (s, .error error)
    | .ok size =>
      match s.takeGeneration with
      | (s, .error rejection) => s.reject clientId sequence request rejection
      | (s, .ok generation) =>
        let etag := etagFor generation
        let response := ⟨name.namespace_, name.key, etag, generation, size⟩
        { s with entries := s.entries.insert name ⟨body, etag, generation⟩ }.record
          clientId sequence request (.put response) (.ok (.put response))

def applyPut (s : KvState) (clientId sequence : ℕ) (namespace_ key : String)
    (body : List UInt8) (ifMatch : String) (ifNoneMatch : Bool) :
    KvState × Except ConnectError KvApplyResult :=
  match putName clientId sequence namespace_ key body ifMatch ifNoneMatch with
  | .error error => (s, .error error)
  | .ok name =>
    match s.cachedPut clientId sequence (.put name body ifMatch ifNoneMatch) with
    | .error error => (s, .error error)
    | .ok (some response) => (s, .ok (.put response))
    | .ok none => s.executePut clientId sequence name body ifMatch ifNoneMatch

/-- The part of `apply_delete` behind the session cache. -/
def executeDelete (s : KvState) (clientId sequence : ℕ) (name : KvName) (ifMatch : String) :
    KvState × Except ConnectError KvApplyResult :=
  let request := MutationRequest.delete name ifMatch
  if ifMatch ≠ "" ∧ (s.entries.get name).all (fun record => ifMatch ≠ record.etag) then
    s.reject clientId sequence request .etagMismatch
  else
    let response : DeleteResponse :=
      match s.entries.get name with
      | some record => ⟨name.namespace_, name.key, record.etag, record.generation, true⟩
      | none => ⟨name.namespace_, name.key, "", 0, false⟩
    { s with entries := s.entries.remove name }.record
      clientId sequence request (.delete response) (.ok (.delete response))

def applyDelete (s : KvState) (clientId sequence : ℕ) (namespace_ key : String)
    (ifMatch : String) : KvState × Except ConnectError KvApplyResult :=
  match deleteName clientId sequence namespace_ key ifMatch with
  | .error error => (s, .error error)
  | .ok name =>
    match s.cachedDelete clientId sequence (.delete name ifMatch) with
    | .error error => (s, .error error)
    | .ok (some response) => (s, .ok (.delete response))
    | .ok none => s.executeDelete clientId sequence name ifMatch

def apply (s : KvState) : KvCommand → KvState × Except ConnectError KvApplyResult
  | .registerSession =>
    match s.takeClientId with
    | (s, .error error) => (s, .error error)
    | (s, .ok clientId) => (s, .ok (.registerSession clientId))
  | .readBarrier => (s, .ok .readBarrier)
  | .put clientId sequence namespace_ key body ifMatch ifNoneMatch =>
    s.applyPut clientId sequence namespace_ key body ifMatch ifNoneMatch
  | .delete clientId sequence namespace_ key ifMatch =>
    s.applyDelete clientId sequence namespace_ key ifMatch

end KvState
end BasisDB.Kv
