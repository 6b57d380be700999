import BasisDB.KvBrowse

/-! The public KV service: what a handler checks before it proposes a command, and how it answers
from the command's result and from the state that it then reads. -/
namespace BasisDB.Service
open BasisDB.Kv

/-- The errors of the service: those of the state machine and the runtime, and `not_found`. -/
inductive ServiceError where
  | connect (error : ConnectError)
  | notFound (message : String)
  deriving DecidableEq

def keyNotFound : ServiceError := .notFound "key not found"

structure GetResponse where
  namespace_ : String
  key : String
  etag : String
  generation : ℕ
  size : ℕ
  body : List UInt8
  deriving DecidableEq

inductive Request where
  | registerSession
  | put (clientId sequence : ℕ) (namespace_ key : String) (body : List UInt8)
      (ifMatch : String) (ifNoneMatch : Bool)
  | delete (clientId sequence : ℕ) (namespace_ key : String) (ifMatch : String)
  | head (namespace_ key : String)
  | get (namespace_ key : String)
  | list (namespace_ keyPrefix startAfter : String) (limit : ℕ)
  | listNamespaces (startAfter : String) (limit : ℕ)
  deriving DecidableEq

inductive Response where
  | registerSession (clientId : ℕ)
  | put (response : PutResponse)
  | delete (response : DeleteResponse)
  | head (response : HeadResponse)
  | get (response : GetResponse)
  | list (response : ListResponse)
  | listNamespaces (response : ListNamespacesResponse)
  deriving DecidableEq

/-- An answer of the runtime that is of another kind than the command. -/
def mismatch (what : String) : ServiceError :=
  .connect ⟨.internal, "Raft " ++ what ++ " mismatch"⟩

def withConnect {α : Type} : Except ConnectError α → Except ServiceError α
  | .ok a => .ok a
  | .error error => .error (.connect error)

/-- `read_barrier`, once its proposal was answered. -/
def readBarrier : Except ConnectError KvApplyResult → Except ServiceError Unit
  | .ok .readBarrier => .ok ()
  | .ok _ => .error (mismatch "read barrier")
  | .error error => .error (.connect error)

namespace Request

/-- The handler does not change the state: it reads it behind a barrier. -/
def reads : Request → Bool
  | .registerSession => false
  | .put .. => false
  | .delete .. => false
  | _ => true

/-- The checks of a handler, and the command that it then proposes. -/
def command : Request → Except ConnectError KvCommand
  | .registerSession => .ok .registerSession
  | .put clientId sequence namespace_ key body ifMatch ifNoneMatch => do
    validateMutationRequest clientId sequence
    validatePutPreconditions ifMatch ifNoneMatch
    validateValue body
    let _ ← KvName.new namespace_ key
    return .put clientId sequence namespace_ key body ifMatch ifNoneMatch
  | .delete clientId sequence namespace_ key ifMatch => do
    validateMutationRequest clientId sequence
    validateEtag ifMatch
    let _ ← KvName.new namespace_ key
    return .delete clientId sequence namespace_ key ifMatch
  | .head namespace_ key => do
    let _ ← KvName.new namespace_ key
    return .readBarrier
  | .get namespace_ key => do
    let _ ← KvName.new namespace_ key
    return .readBarrier
  | .list namespace_ keyPrefix startAfter limit => do
    let _ ← Browse.pageLimit limit
    Browse.validateList namespace_ keyPrefix startAfter
    return .readBarrier
  | .listNamespaces startAfter limit => do
    let _ ← Browse.pageLimit limit
    Browse.validateNamespaceCursor startAfter
    return .readBarrier

/-- The record of a name, if there is one. -/
def lookUp (state : KvState) (namespace_ key : String) : Except ServiceError KvRecord :=
  match state.entries.get ⟨namespace_, key⟩ with
  | some record => .ok record
  | none => .error keyNotFound

/-- The rest of a handler: the proposal's answer, and for a read the state behind the barrier. -/
def answer (request : Request) (result : Except ConnectError KvApplyResult) (state : KvState) :
    Except ServiceError Response :=
  match request with
  | .registerSession =>
    match result with
    | .ok (.registerSession clientId) => .ok (.registerSession clientId)
    | .ok _ => .error (mismatch "session command")
    | .error error => .error (.connect error)
  | .put .. =>
    match result with
    | .ok (.put response) => .ok (.put response)
    | .ok _ => .error (mismatch "put command")
    | .error error => .error (.connect error)
  | .delete .. =>
    match result with
    | .ok (.delete response) => .ok (.delete response)
    | .ok _ => .error (mismatch "delete command")
    | .error error => .error (.connect error)
  | .head namespace_ key => do
    readBarrier result
    let record ← lookUp state namespace_ key
    let size ← withConnect (bodyLen record.body)
    return .head ⟨namespace_, key, record.etag, record.generation, size⟩
  | .get namespace_ key => do
    readBarrier result
    let record ← lookUp state namespace_ key
    let size ← withConnect (bodyLen record.body)
    return .get ⟨namespace_, key, record.etag, record.generation, size, record.body⟩
  | .list namespace_ keyPrefix startAfter limit => do
    readBarrier result
    let page ← withConnect (Browse.list state namespace_ keyPrefix startAfter limit)
    return .list page
  | .listNamespaces startAfter limit => do
    readBarrier result
    let page ← withConnect (Browse.listNamespaces state startAfter limit)
    return .listNamespaces page

/-- The server that a client should believe in: one state, and one request after the other. -/
def serve (state : KvState) (request : Request) : KvState × Except ServiceError Response :=
  match request.command with
  | .error error => (state, .error (.connect error))
  | .ok command =>
    let (state, result) := state.apply command
    (state, request.answer result state)

variable {request : Request} {c : KvCommand}

theorem bind_eq_ok {ε α β : Type} {check : Except ε α} {f : α → Except ε β} {b : β}
    (h : (check >>= f) = .ok b) : ∃ a, check = .ok a ∧ f a = .ok b := by
  cases check with
  | error error => cases h
  | ok a => exact ⟨a, rfl, h⟩

/-- A handler that reads proposes a barrier. -/
theorem command_of_reads (hreads : request.reads = true) (h : request.command = .ok c) :
    c = .readBarrier := by
  cases request with
  | registerSession | put | delete => cases hreads
  | head namespace_ key | get namespace_ key =>
    obtain ⟨-, -, h⟩ := bind_eq_ok h
    exact (Except.ok.inj h).symm
  | list namespace_ keyPrefix startAfter limit | listNamespaces startAfter limit =>
    obtain ⟨-, -, h⟩ := bind_eq_ok h
    obtain ⟨-, -, h⟩ := bind_eq_ok h
    exact (Except.ok.inj h).symm

theorem command_of_put {clientId sequence : ℕ} {namespace_ key : String} {body : List UInt8}
    {ifMatch : String} {ifNoneMatch : Bool}
    (h : (put clientId sequence namespace_ key body ifMatch ifNoneMatch).command = .ok c) :
    c = .put clientId sequence namespace_ key body ifMatch ifNoneMatch := by
  obtain ⟨-, -, h⟩ := bind_eq_ok h
  obtain ⟨-, -, h⟩ := bind_eq_ok h
  obtain ⟨-, -, h⟩ := bind_eq_ok h
  obtain ⟨-, -, h⟩ := bind_eq_ok h
  exact (Except.ok.inj h).symm

theorem command_of_delete {clientId sequence : ℕ} {namespace_ key : String} {ifMatch : String}
    (h : (delete clientId sequence namespace_ key ifMatch).command = .ok c) :
    c = .delete clientId sequence namespace_ key ifMatch := by
  obtain ⟨-, -, h⟩ := bind_eq_ok h
  obtain ⟨-, -, h⟩ := bind_eq_ok h
  obtain ⟨-, -, h⟩ := bind_eq_ok h
  exact (Except.ok.inj h).symm

/-- A handler that writes answers from the command's result alone. -/
theorem answer_of_writes (hwrites : request.reads = false)
    (result : Except ConnectError KvApplyResult) (s t : KvState) :
    request.answer result s = request.answer result t := by
  cases request with
  | registerSession | put | delete => rfl
  | head | get | list | listNamespaces => cases hwrites

theorem serve_ok (h : request.command = .ok c) (s : KvState) :
    request.serve s = ((s.apply c).1, request.answer (s.apply c).2 (s.apply c).1) := by
  rw [serve, h]

end Request
end BasisDB.Service
