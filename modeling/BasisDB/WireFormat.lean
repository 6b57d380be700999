import BasisDB.JsonText
import BasisDB.KvListing
import BasisDB.KvService
import BasisDB.RaftFormed

/-! The JSON form of replicated commands and peer messages, and how much of it there can be. A
command is written twice: once as the bytes of its log entry, and those bytes once more as an
array of numbers in every message that carries the entry. -/
namespace BasisDB.Kv
open BasisDB.Json

def KvCommand.toJson : KvCommand → Value
  | .registerSession => .string "RegisterSession"
  | .readBarrier => .string "ReadBarrier"
  | .put clientId sequence namespace_ key body ifMatch ifNoneMatch =>
    .variant "Put" (.object
      [("client_id", .number clientId), ("sequence", .number sequence),
        ("namespace", .string namespace_), ("key", .string key), ("body", .bytes body),
        ("if_match", .string ifMatch), ("if_none_match", .bool ifNoneMatch)])
  | .delete clientId sequence namespace_ key ifMatch =>
    .variant "Delete" (.object
      [("client_id", .number clientId), ("sequence", .number sequence),
        ("namespace", .string namespace_), ("key", .string key), ("if_match", .string ifMatch)])

/-- A command whose numbers are 64-bit numbers and whose texts are within the limits. -/
def KvCommand.Bounded : KvCommand → Prop
  | .registerSession => True
  | .readBarrier => True
  | .put clientId sequence namespace_ key body ifMatch _ =>
    (clientId < 2 ^ 64 ∧ sequence < 2 ^ 64) ∧ namespace_.utf8ByteSize ≤ maxNamespaceBytes ∧
      key.utf8ByteSize ≤ maxKeyBytes ∧ body.length ≤ maxValueBytes ∧
      ifMatch.utf8ByteSize ≤ maxEtagBytes
  | .delete clientId sequence namespace_ key ifMatch =>
    (clientId < 2 ^ 64 ∧ sequence < 2 ^ 64) ∧ namespace_.utf8ByteSize ≤ maxNamespaceBytes ∧
      key.utf8ByteSize ≤ maxKeyBytes ∧ ifMatch.utf8ByteSize ≤ maxEtagBytes

/-- What the bytes of a command take up in a message. -/
def maxCommandCost : ℕ := 825000

section Cost
variable (writer : Writer)

/-- Whatever is written takes up at most four bytes for each of its own. -/
theorem weigh_print_le {v : Value} {n : ℕ} (h : (writer.print v).length ≤ n) :
    weigh writer.arrayCost (writer.print v) ≤ 4 * n :=
  (weigh_le (fun b _ => writer.arrayCost_le b)).trans (Nat.mul_le_mul_left 4 h)

theorem weigh_variant_le {name : String} (h : name.utf8ByteSize ≤ 13) (v : Value) :
    weigh writer.arrayCost (writer.print (.variant name v)) ≤
      weigh writer.arrayCost (writer.print v) + 336 := by
  have hobject := @Writer.weigh_object writer _ _ 13 writer.arrayCost_le [(name, v)]
    (by simpa using h)
  simp only [List.length_singleton, List.map_cons, List.map_nil, List.sum_singleton] at hobject
  rw [Value.variant]
  omega

theorem KvCommand.Bounded.cost_le {c : KvCommand} (h : c.Bounded) :
    weigh writer.arrayCost (writer.print c.toJson) ≤ maxCommandCost := by
  have hstring (text : String) := weigh_print_le writer (writer.length_string text)
  have hnumber {n : ℕ} (h : n < 2 ^ 64) := weigh_print_le writer (writer.length_word h)
  cases c with
  | registerSession => exact (hstring "RegisterSession").trans (by decide)
  | readBarrier => exact (hstring "ReadBarrier").trans (by decide)
  | put clientId sequence namespace_ key body ifMatch ifNoneMatch =>
    obtain ⟨⟨hclient, hsequence⟩, hnamespace, hkey, hbody, hmatch⟩ := h
    have hclient' := hnumber hclient
    have hsequence' := hnumber hsequence
    have hnamespace' := hstring namespace_
    have hkey' := hstring key
    have hbody' := writer.weigh_bytes body
    have hmatch' := hstring ifMatch
    have hflag := weigh_print_le writer (writer.length_bool ifNoneMatch)
    calc weigh writer.arrayCost (writer.print
          (put clientId sequence namespace_ key body ifMatch ifNoneMatch).toJson)
        ≤ weigh writer.arrayCost (writer.print (.object _)) + 336 :=
          weigh_variant_le writer (by decide) _
      _ ≤ _ := Nat.add_le_add_right
        (@Writer.weigh_object writer _ _ 13 writer.arrayCost_le _ (by simp; decide)) 336
      _ ≤ maxCommandCost := by
        simp only [List.map_cons, List.map_nil, List.sum_cons, List.sum_nil, List.length_cons,
          List.length_nil, maxNamespaceBytes, maxKeyBytes, maxValueBytes,
          maxEtagBytes, maxCommandCost] at *
        omega
  | delete clientId sequence namespace_ key ifMatch =>
    obtain ⟨⟨hclient, hsequence⟩, hnamespace, hkey, hmatch⟩ := h
    have hclient' := hnumber hclient
    have hsequence' := hnumber hsequence
    have hnamespace' := hstring namespace_
    have hkey' := hstring key
    have hmatch' := hstring ifMatch
    calc weigh writer.arrayCost (writer.print
          (delete clientId sequence namespace_ key ifMatch).toJson)
        ≤ weigh writer.arrayCost (writer.print (.object _)) + 336 :=
          weigh_variant_le writer (by decide) _
      _ ≤ _ := Nat.add_le_add_right
        (@Writer.weigh_object writer _ _ 13 writer.arrayCost_le _ (by simp; decide)) 336
      _ ≤ maxCommandCost := by
        simp only [List.map_cons, List.map_nil, List.sum_cons, List.sum_nil, List.length_cons,
          List.length_nil, maxNamespaceBytes, maxKeyBytes, maxEtagBytes,
          maxCommandCost] at *
        omega

end Cost
end BasisDB.Kv

namespace BasisDB.Service
open BasisDB.Kv

theorem validateEtag_ok {etag : String} (h : validateEtag etag = .ok ()) :
    etag.utf8ByteSize ≤ maxEtagBytes := by
  unfold validateEtag at h
  split_ifs at h with hsize
  exact not_lt.mp hsize

/-- What passes the checks of a handler is within the limits. -/
theorem Request.bounded {request : Request} {c : KvCommand} (h : request.command = .ok c)
    (hwords : c.toJson.Words) : c.Bounded := by
  cases hreads : request.reads with
  | true =>
    rw [command_of_reads hreads h]
    trivial
  | false =>
    cases request with
    | registerSession =>
      obtain rfl := Except.ok.inj h
      trivial
    | put clientId sequence namespace_ key body ifMatch ifNoneMatch =>
      obtain rfl := command_of_put h
      obtain ⟨-, -, h⟩ := bind_eq_ok h
      obtain ⟨⟨⟩, hmatch, h⟩ := bind_eq_ok h
      obtain ⟨⟨⟩, hbody, h⟩ := bind_eq_ok h
      obtain ⟨name, hname, -⟩ := bind_eq_ok h
      obtain ⟨⟨⟩, hetag, -⟩ := bind_eq_ok hmatch
      obtain ⟨-, -, hnamespace, -, hkey⟩ := KvName.new_ok hname
      have hvalue : body.length ≤ maxValueBytes := by
        unfold validateValue at hbody
        split_ifs at hbody with hsize
        exact not_lt.mp hsize
      simp only [KvCommand.toJson, Json.Value.variant, Json.Value.Words, Json.fieldsWords] at hwords
      exact ⟨⟨hwords.1.1, hwords.1.2.1⟩, hnamespace, hkey, hvalue, validateEtag_ok hetag⟩
    | delete clientId sequence namespace_ key ifMatch =>
      obtain rfl := command_of_delete h
      obtain ⟨-, -, h⟩ := bind_eq_ok h
      obtain ⟨⟨⟩, hetag, h⟩ := bind_eq_ok h
      obtain ⟨name, hname, -⟩ := bind_eq_ok h
      obtain ⟨-, -, hnamespace, -, hkey⟩ := KvName.new_ok hname
      simp only [KvCommand.toJson, Json.Value.variant, Json.Value.Words, Json.fieldsWords] at hwords
      exact ⟨⟨hwords.1.1, hwords.1.2.1⟩, hnamespace, hkey, validateEtag_ok hetag⟩
    | head | get | list | listNamespaces => cases hreads

end BasisDB.Service

namespace BasisDB.Raft
open BasisDB.Json

/-- A set of nodes is written as a list. -/
def nodesJson (nodes : OrdSet NodeId) : Value := .array (nodes.toList.map Value.number)

def Configuration.toJson : Configuration → Value
  | .simple voters learners =>
    .variant "Simple" (.object [("voters", nodesJson voters), ("learners", nodesJson learners)])
  | .joint old new learners =>
    .variant "Joint" (.object
      [("old", nodesJson old), ("new", nodesJson new), ("learners", nodesJson learners)])

def EntryPayload.toJson : EntryPayload → Value
  | .command cmd => .variant "Command" (.bytes cmd.bytes)
  | .config cfg => .variant "Config" cfg.toJson

def Entry.toJson (e : Entry) : Value :=
  .object [("term", .number e.term), ("index", .number e.index), ("payload", e.payload.toJson)]

def Payload.toJson : Payload → Value
  | .preVoteRequest req => .variant "PreVoteRequest" (.object
      [("next_term", .number req.nextTerm), ("last_log_index", .number req.lastLogIndex),
        ("last_log_term", .number req.lastLogTerm)])
  | .preVoteResponse resp => .variant "PreVoteResponse" (.object
      [("term", .number resp.term), ("granted", .bool resp.granted)])
  | .voteRequest req => .variant "VoteRequest" (.object
      [("last_log_index", .number req.lastLogIndex), ("last_log_term", .number req.lastLogTerm)])
  | .voteResponse resp => .variant "VoteResponse" (.object [("granted", .bool resp.granted)])
  | .appendRequest req => .variant "AppendRequest" (.object
      [("prev_log_index", .number req.prevLogIndex), ("prev_log_term", .number req.prevLogTerm),
        ("entries", .array (req.entries.map Entry.toJson)),
        ("leader_commit", .number req.leaderCommit)])
  | .appendResponse resp => .variant "AppendResponse" (.object
      [("success", .bool resp.success), ("last_log_index", .number resp.lastLogIndex)])
  | .installSnapshotRequest req => .variant "InstallSnapshotRequest" (.object
      [("last_included_index", .number req.lastIncludedIndex),
        ("last_included_term", .number req.lastIncludedTerm),
        ("configuration", req.configuration.toJson)])
  | .installSnapshotResponse resp => .variant "InstallSnapshotResponse" (.object
      [("success", .bool resp.success), ("last_included_index", .number resp.lastIncludedIndex)])
  | .readIndexRequest req => .variant "ReadIndexRequest" (.object
      [("id", .number req.id), ("read_index", .number req.readIndex)])
  | .readIndexResponse resp => .variant "ReadIndexResponse" (.object
      [("id", .number resp.id), ("read_index", .number resp.readIndex)])
  | .timeoutNow => .string "TimeoutNow"

def Message.toJson (m : Message) : Value :=
  .object [("from", .number m.sender), ("to", .number m.receiver), ("term", .number m.term),
    ("payload", m.payload.toJson)]

/-- An entry that holds a command whose bytes take up no more than is allowed. -/
def Entry.Light (writer : Writer) (e : Entry) : Prop :=
  ∃ cmd, e.payload = .command cmd ∧ weigh writer.arrayCost cmd.bytes ≤ Kv.maxCommandCost

section Sizes
variable {writer : Writer}

theorem Entry.Light.length_le {e : Entry} (h : e.Light writer) (hwords : e.toJson.Words) :
    (writer.print e.toJson).length ≤ Kv.maxCommandCost + 300 := by
  obtain ⟨cmd, hpayload, hcost⟩ := h
  rw [Entry.toJson, hpayload] at hwords ⊢
  obtain ⟨hterm, hindex, -⟩ := hwords
  have hterm' := writer.length_word hterm
  have hindex' := writer.length_word hindex
  have hvariant := @Writer.length_variant writer 7 "Command" (by decide) (.bytes cmd.bytes)
  have hbytes := writer.length_bytes cmd.bytes
  refine (@Writer.length_object writer 7 _ (by simp; decide)).trans ?_
  simp only [List.map_cons, List.map_nil, List.sum_cons, List.sum_nil, List.length_cons,
    List.length_nil, EntryPayload.toJson]
  omega

/-- Everything but an append request or a snapshot is short. -/
theorem Message.length_payload_le {m : Message} (hformed : m.Formed)
    (hwords : m.payload.toJson.Words) (happend : m.payload.isAppendRequest = false) :
    (writer.print m.payload.toJson).length ≤ 1000 := by
  unfold Formed at hformed
  cases hpayload : m.payload with
  | appendRequest req =>
    rw [hpayload] at happend
    cases happend
  | installSnapshotRequest req | installSnapshotResponse resp =>
    rw [hpayload] at hformed
    exact hformed.elim
  | timeoutNow => exact (writer.length_string "TimeoutNow").trans (by decide)
  | preVoteRequest | preVoteResponse | voteRequest | voteResponse | appendResponse
  | readIndexRequest | readIndexResponse =>
    rw [hpayload] at hwords
    refine (@Writer.length_flat writer 23 _ _ (by decide) (by simp; decide) (by simp [Value.Flat])
      hwords.1).trans ?_
    simp

theorem words_entries {entries : List Entry} (h : itemsWords (entries.map Entry.toJson)) :
    ∀ e ∈ entries, e.toJson.Words := by
  induction entries with
  | nil => exact fun _ he => absurd he List.not_mem_nil
  | cons e entries ih => exact List.forall_mem_cons.mpr ⟨h.1, ih h.2⟩

/-- An append request with at most two light entries. -/
theorem AppendRequest.length_le {req : AppendRequest}
    (hwords : (Payload.appendRequest req).toJson.Words) (hlength : req.entries.length ≤ 2)
    (hlight : ∀ e ∈ req.entries, e.Light writer) :
    (writer.print (Payload.appendRequest req).toJson).length ≤ 2 * Kv.maxCommandCost + 2000 := by
  obtain ⟨⟨hindex, hterm, hentries, hcommit, -⟩, -⟩ := hwords
  have hindex' := writer.length_word hindex
  have hterm' := writer.length_word hterm
  have hcommit' := writer.length_word hcommit
  have hsum : ((req.entries.map Entry.toJson).map (fun v => (writer.print v).length)).sum ≤
      req.entries.length * (Kv.maxCommandCost + 300) := by
    rw [List.map_map]
    refine (List.sum_le_card_nsmul _ (Kv.maxCommandCost + 300) ?_).trans_eq (by simp)
    intro len hlen
    obtain ⟨e, he, rfl⟩ := List.mem_map.mp hlen
    exact (hlight e he).length_le (words_entries hentries e he)
  have hlist : (writer.print (.array (req.entries.map Entry.toJson))).length ≤
      2 + 2 + 2 * (Kv.maxCommandCost + 300) := by
    refine (writer.length_array _).trans ?_
    rw [List.length_map]
    refine Nat.add_le_add (Nat.add_le_add_left hlength 2) (hsum.trans ?_)
    exact Nat.mul_le_mul_right _ hlength
  calc (writer.print (Payload.appendRequest req).toJson).length
      ≤ (writer.print (.object _)).length + 6 * 14 + 6 :=
        @Writer.length_variant writer 14 "AppendRequest" (by decide) _
    _ ≤ _ := Nat.add_le_add_right
        (Nat.add_le_add_right (@Writer.length_object writer 14 _ (by simp; decide)) _) _
    _ ≤ 2 * Kv.maxCommandCost + 2000 := by
      simp only [List.map_cons, List.map_nil, List.sum_cons, List.sum_nil, List.length_cons,
        List.length_nil]
      omega

/-- A message of good form whose numbers have 64 bits, with at most two light entries. -/
theorem Message.length_le {m : Message} (hformed : m.Formed) (hwords : m.toJson.Words)
    (hentries : ∀ req, m.payload = .appendRequest req →
      req.entries.length ≤ 2 ∧ ∀ e ∈ req.entries, e.Light writer) :
    (writer.print m.toJson).length ≤ 2 * Kv.maxCommandCost + 3000 := by
  obtain ⟨hsender, hreceiver, hterm, hpayload, -⟩ := hwords
  have hsender' := writer.length_word hsender
  have hreceiver' := writer.length_word hreceiver
  have hterm' := writer.length_word hterm
  have hpayload' : (writer.print m.payload.toJson).length ≤ 2 * Kv.maxCommandCost + 2000 := by
    cases happend : m.payload.isAppendRequest with
    | true =>
      obtain ⟨req, hreq⟩ : ∃ req, m.payload = .appendRequest req := by
        cases hp : m.payload <;> simp [Payload.isAppendRequest, hp] at happend ⊢
      rw [hreq] at hpayload ⊢
      exact AppendRequest.length_le hpayload (hentries req hreq).1 (hentries req hreq).2
    | false => exact (length_payload_le hformed hpayload happend).trans (by omega)
  refine (@Writer.length_object writer 7 _ (by simp; decide)).trans ?_
  simp only [List.map_cons, List.map_nil, List.sum_cons, List.sum_nil, List.length_cons,
    List.length_nil]
  omega

end Sizes
end BasisDB.Raft
