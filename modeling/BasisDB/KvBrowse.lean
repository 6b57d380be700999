import BasisDB.KvCommand

/-! Bounded, ordered pages over the KV state. Model of `browse.rs`. -/
namespace BasisDB.Kv

structure HeadResponse where
  namespace_ : String
  key : String
  etag : String
  generation : ℕ
  size : ℕ
  deriving DecidableEq

structure ListResponse where
  entries : List HeadResponse
  nextStartAfter : String
  deriving DecidableEq

structure Namespace where
  name : String
  keyCount : ℕ := 0
  deriving DecidableEq

structure ListNamespacesResponse where
  namespaces : List Namespace
  nextStartAfter : String
  deriving DecidableEq

namespace Browse

def pageLimit (limit : ℕ) : Except ConnectError ℕ :=
  if limit = 0 then .ok 50
  else if limit ≤ 100 then .ok limit
  else .error ⟨.invalidArgument, "page limit must not exceed 100"⟩

def validateNamespaceCursor (cursor : String) : Except ConnectError Unit :=
  if maxNamespaceBytes < cursor.utf8ByteSize then
    .error ⟨.invalidArgument, "namespace cursor exceeds 255-byte limit"⟩
  else .ok ()

def validateList (namespace_ keyPrefix startAfter : String) : Except ConnectError Unit :=
  if namespace_ = "" ∨ maxNamespaceBytes < namespace_.utf8ByteSize then
    .error ⟨.invalidArgument, "namespace must contain 1 to 255 bytes"⟩
  else if maxKeyBytes < keyPrefix.utf8ByteSize ∨ maxKeyBytes < startAfter.utf8ByteSize then
    .error ⟨.invalidArgument, "prefix and cursor must not exceed 1024 bytes"⟩
  else .ok ()

/-- `key.starts_with(prefix)`. -/
def startsWith (key keyPrefix : String) : Bool := keyPrefix.toList.isPrefixOf key.toList

/-- One more key for the last namespace of the page. -/
def countKey (page : List Namespace) : Except ConnectError (List Namespace) :=
  let index := page.length - 1
  match page[index]? with
  | none => .ok page
  | some row =>
    match checkedSucc row.keyCount with
    | none => .error ⟨.resourceExhausted, "namespace key count overflow"⟩
    | some count => .ok (page.set index { row with keyCount := count })

/-- The loop of `namespaces` over the names that are left. The limit is positive, so a full
page has a last row. -/
def namespacesFrom (startAfter : String) (limit : ℕ) :
    List Namespace → List (KvName × KvRecord) → Except ConnectError ListNamespacesResponse
  | page, [] => .ok ⟨page, ""⟩
  | page, (name, _) :: rest =>
    if name.namespace_ = startAfter then namespacesFrom startAfter limit page rest
    else if page.getLast?.all (fun last => last.name ≠ name.namespace_) then
      if page.length = limit then
        .ok ⟨page, (page[limit - 1]?.map Namespace.name).getD ""⟩
      else do
        let page ← countKey (page ++ [{ name := name.namespace_ }])
        namespacesFrom startAfter limit page rest
    else do
      let page ← countKey page
      namespacesFrom startAfter limit page rest

def namespaces (state : KvState) (startAfter : String) (limit : ℕ) :
    Except ConnectError ListNamespacesResponse :=
  namespacesFrom startAfter limit [] (state.entries.rangeFrom ⟨startAfter, ""⟩)

/-- The loop of `entries` over the bindings that are left. -/
def entriesFrom (namespace_ keyPrefix startAfter : String) (limit : ℕ) :
    List HeadResponse → List (KvName × KvRecord) → Except ConnectError ListResponse
  | page, [] => .ok ⟨page, ""⟩
  | page, (name, record) :: rest =>
    if name.namespace_ ≠ namespace_ ∨ startsWith name.key keyPrefix = false then .ok ⟨page, ""⟩
    else if name.key ≤ startAfter then entriesFrom namespace_ keyPrefix startAfter limit page rest
    else if page.length = limit then
      .ok ⟨page, (page[limit - 1]?.map HeadResponse.key).getD ""⟩
    else do
      let size ← bodyLen record.body
      let row := ⟨name.namespace_, name.key, record.etag, record.generation, size⟩
      entriesFrom namespace_ keyPrefix startAfter limit (page ++ [row]) rest

def entries (state : KvState) (namespace_ keyPrefix startAfter : String) (limit : ℕ) :
    Except ConnectError ListResponse :=
  entriesFrom namespace_ keyPrefix startAfter limit []
    (state.entries.rangeFrom ⟨namespace_, max keyPrefix startAfter⟩)

/-- `list_namespaces` of the service, on the state it reads. -/
def listNamespaces (state : KvState) (startAfter : String) (limit : ℕ) :
    Except ConnectError ListNamespacesResponse := do
  let limit ← pageLimit limit
  validateNamespaceCursor startAfter
  namespaces state startAfter limit

/-- `list` of the service, on the state it reads. -/
def list (state : KvState) (namespace_ keyPrefix startAfter : String) (limit : ℕ) :
    Except ConnectError ListResponse := do
  let limit ← pageLimit limit
  validateList namespace_ keyPrefix startAfter
  entries state namespace_ keyPrefix startAfter limit

end Browse
end BasisDB.Kv
