import BasisDB.RaftTransport
import BasisDB.RuntimeAttributed
import BasisDB.WireFormat

/-! Every message that the nodes send is small enough for the transport: what the service lets
into a log, written twice over, two entries at a time, stays below the limit of both ends. -/
namespace BasisDB.Runtime
open BasisDB.Raft BasisDB.Kv BasisDB.Service BasisDB.Transport BasisDB.Json

namespace RuntimeCluster
variable {codec : Codec} {configs : NodeId → NodeConfig} {peers : OrdSet NodeId}
  {acts : List RuntimeAction} {s s' : RuntimeCluster} {a : RuntimeAction} {k : ℕ}

/-- One action adds only messages with batches of the configured size. -/
theorem RuntimeStep.batches {low : Cluster → List Action} (h : RuntimeStep codec s a s' low)
    (ha : s.Orderly a) (hprep : ∀ n, s.Prepared peers n)
    (hlimit : ∀ n, (s.runtimes n).config.consensus.maxEntriesPerMsg = k)
    (hnet : ∀ m ∈ s.net, m.payload.Batch k) : ∀ m ∈ s'.net, m.payload.Batch k := by
  cases h with
  | nothing | cleanup | restart => exact hnet
  | refused n id error =>
    exact List.forall_mem_append.mpr ⟨hnet, fun _ hm => absurd hm List.not_mem_nil⟩
  | event n task event act hhealthy hset hevent hact hstep =>
    refine List.forall_mem_append.mpr ⟨hnet, fun m hm => ?_⟩
    have hreaches := ((hprep n).stepEvent (hset ha) hevent).1
    rw [← hlimit n]
    exact hreaches.batches m ((RaftRuntime.drive_of codec hhealthy _).messages hm)
  | proposal n command task id bytes index effects node hhealthy hset hencode haccepted hstep =>
    refine List.forall_mem_append.mpr ⟨hnet, fun m hm => ?_⟩
    have hreaches := ((hprep n).propose (hset ha) haccepted).1
    rw [← hlimit n]
    exact hreaches.batches m
      ((awaiting_of codec s n task id bytes index effects node).messages hm)

theorem batches_moment (hpeers : ∀ n, (configs n).peers = peers)
    (horderly : (init configs).OrderlyRun codec acts)
    (hlimit : ∀ n, (configs n).consensus.maxEntriesPerMsg = k) (i : ℕ) :
    ∀ m ∈ ((init configs).moment codec acts i).net, m.payload.Batch k := by
  induction i with
  | zero => exact fun _ hm => absurd hm List.not_mem_nil
  | succ i ih =>
    cases ha : acts[i]? with
    | none =>
      rw [moment_beyond _ ha]
      exact ih
    | some a =>
      refine (moment_step ha).batches (horderly.at ha) (prepared_moment hpeers horderly i) ?_ ih
      intro n
      rw [moment_config codec configs acts i n]
      exact hlimit n

/-- Both ends of the transport take every message that any node sends, whatever JSON writer wrote
the commands and the message: it never gets lost for its size. The commands in it were proposed by
handlers that had checked them, and numbers have 64 bits. -/
theorem messages_fit_the_transport (writer : Writer) (codec : Codec) (wire : MessageCodec)
    (hcodec : ∀ command, codec.encode command = some (writer.print command.toJson))
    (hwire : ∀ message, wire.encode message = some (writer.print message.toJson))
    (key : Auth.RaftKey) (configs : NodeId → NodeConfig) (peers : OrdSet NodeId)
    (acts : List RuntimeAction) (hpeers : ∀ n, (configs n).peers = peers)
    (hlimit : ∀ n, (configs n).consensus.maxEntriesPerMsg = (raftConfig n).maxEntriesPerMsg)
    (horderly : (init configs).OrderlyRun codec acts)
    (hchecked : ∀ n command task, .propose n command task ∈ acts →
      (∃ request : Request, request.command = .ok command) ∧ command.toJson.Words)
    (message : Message) (hmessage : message ∈ ((init configs).run codec acts).net)
    (hwords : message.toJson.Words) :
    ∃ request, postRaftMessage wire key message = some request ∧
      wire.encode message = some request.body ∧ request.body.length ≤ maxRaftMessageBytes := by
  have hattributes := (attributed_run codec configs acts).net message hmessage
  have hbatch : message.payload.Batch 1 := by
    refine batches_moment hpeers horderly hlimit acts.length message ?_
    rw [moment, List.take_length]
    exact hmessage
  have hlight (e : Entry) (hcommand : e.payload.asConfig = none)
      (hfrom : FromCall ((init configs).run codec acts).calls e) : e.Light writer := by
    cases hpayload : e.payload with
    | config cfg =>
      rw [hpayload] at hcommand
      cases hcommand
    | command cmd =>
      obtain ⟨call, hcall, -, -, hbytes⟩ := hfrom cmd hpayload
      obtain hinit | ⟨n, command, task, hmem, hencode⟩ :=
        calls_encoded codec (init configs) acts hcall
      · exact absurd hinit List.not_mem_nil
      · obtain ⟨⟨request, hrequest⟩, hwords⟩ := hchecked n command task hmem
        refine ⟨cmd, hpayload, ?_⟩
        rw [hcodec] at hencode
        rw [← hbytes, ← Option.some.inj hencode]
        exact (request.bounded hrequest hwords).cost_le writer
  have hlength := Message.length_le hattributes.formed hwords (fun req hreq => by
    rw [hreq] at hbatch
    exact ⟨hbatch.1, fun e he => hlight e (hbatch.2 e he) (hattributes.brings req hreq e he)⟩)
  have hfits : (writer.print message.toJson).length ≤ maxRaftMessageBytes :=
    hlength.trans (by decide)
  refine ⟨⟨some (key.signature (writer.print message.toJson)), writer.print message.toJson⟩, ?_,
    hwire message, hfits⟩
  simp only [postRaftMessage, hwire, Option.bind_eq_bind, Option.bind_some]
  rw [if_neg (not_lt.mpr hfits)]

/-- The decimal digits of a number, the first one first. -/
def decimal (n : ℕ) : List UInt8 :=
  if n = 0 then [48] else ((Nat.digits 10 n).map (fun d => UInt8.ofNat (48 + d))).reverse

/-- Quotes, backslashes and control characters by their number, everything else as it is. -/
def escape (b : UInt8) : List UInt8 :=
  if b < 32 ∨ b = 34 ∨ b = 92 then [92, 117, 48, 48] ++ Auth.encodeHex [b] else [b]

mutual

/-- A JSON writer that knows one escape only. -/
def plainText : Value → List UInt8
  | .bool value => if value then [116, 114, 117, 101] else [102, 97, 108, 115, 101]
  | .number n => decimal n
  | .string text => 34 :: (text.toUTF8.data.toList.flatMap escape ++ [34])
  | .array items => 91 :: (commas (itemTexts items) ++ [93])
  | .object fields => 123 :: (commas (fieldTexts fields) ++ [125])

def itemTexts : List Value → List (List UInt8)
  | [] => []
  | v :: items => plainText v :: itemTexts items

def fieldTexts : List (String × Value) → List (List UInt8)
  | [] => []
  | (name, v) :: fields =>
    (34 :: (name.toUTF8.data.toList.flatMap escape ++ [34]) ++ 58 :: plainText v) ::
      fieldTexts fields

end

theorem itemTexts_eq (items : List Value) : itemTexts items = items.map plainText := by
  induction items with
  | nil => rfl
  | cons v items ih => rw [itemTexts, ih, List.map_cons]

theorem fieldTexts_eq (fields : List (String × Value)) : fieldTexts fields =
    fields.map (fun field => plainText (.string field.1) ++ 58 :: plainText field.2) := by
  induction fields with
  | nil => rfl
  | cons field fields ih =>
    rw [fieldTexts, ih, List.map_cons, plainText]

theorem length_escaped_le (data : List UInt8) : (data.flatMap escape).length ≤ 6 * data.length := by
  induction data with
  | nil => exact Nat.zero_le _
  | cons b data ih =>
    have hb : (escape b).length ≤ 6 := by
      unfold escape
      split_ifs <;> simp [Auth.encodeHex]
    rw [List.flatMap_cons, List.length_append, List.length_cons]
    omega

theorem decimal_digits (n : ℕ) : ∀ b ∈ decimal n, 48 ≤ b ∧ b ≤ 57 := by
  intro b hb
  unfold decimal at hb
  split_ifs at hb
  · obtain rfl := List.mem_singleton.mp hb
    decide
  · obtain ⟨d, hd, rfl⟩ := List.mem_map.mp (List.mem_reverse.mp hb)
    have hlt : d < 10 := Nat.digits_lt_base (by norm_num) hd
    interval_cases d <;> decide

def plainWriter : Writer where
  print := plainText
  length_bool value := by cases value <;> decide
  digits := decimal_digits
  length_number n k hk h := by
    rw [plainText, decimal]
    split_ifs
    · exact hk
    · rw [List.length_reverse, List.length_map]
      exact (Nat.digits_length_le_iff (by norm_num) n).mpr h
  length_string text := by
    have htext := length_escaped_le text.toUTF8.data.toList
    have hsize : text.toUTF8.data.toList.length = text.utf8ByteSize := rfl
    rw [plainText, List.length_cons, List.length_append, List.length_singleton]
    omega
  array items := by rw [plainText, itemTexts_eq]
  object fields := by rw [plainText, fieldTexts_eq]

def plainCodec : Codec := ⟨fun command => some (plainWriter.print command.toJson), unitCodec.decode⟩

def plainWire : MessageCodec :=
  ⟨fun message => some (plainWriter.print message.toJson), fun _ => none⟩

/-- The nodes of `quickPair`, with the batches of the node runtime. -/
def wiredNodes (n : NodeId) : NodeConfig :=
  ⟨n, OrdSet.ofList [0, 1], { Cluster.quickConfig n with maxEntriesPerMsg := 1 }⟩

/-- The request that brings the registration of `quickPair` to the second node. -/
def wiredMessage : Message :=
  ⟨0, 1, 1, .appendRequest
    ⟨0, 0, [⟨1, 1, .command ⟨plainWriter.print KvCommand.registerSession.toJson⟩⟩], 0⟩⟩

theorem messages_fit_the_transport_wiredMessage :
    ∃ request, postRaftMessage plainWire OpenCluster.quickKey wiredMessage = some request ∧
      request.body.length ≤ maxRaftMessageBytes := by
  obtain ⟨request, hpost, -, hlength⟩ := messages_fit_the_transport plainWriter plainCodec plainWire
    (fun _ => rfl) (fun _ => rfl) OpenCluster.quickKey wiredNodes (OrdSet.ofList [0, 1]) quickPair
    (fun _ => rfl) (fun _ => rfl) (by decide +kernel)
    (by
      intro n command task hmem
      obtain ⟨rfl, rfl, rfl⟩ : n = 0 ∧ command = .registerSession ∧ task = {} := by
        simpa [quickPair, deliveries] using hmem
      exact ⟨⟨.registerSession, rfl⟩, trivial⟩)
    wiredMessage (by decide +kernel)
    (by
      simp [wiredMessage, Message.toJson, Payload.toJson, Entry.toJson, EntryPayload.toJson,
        Value.variant, Value.Words, fieldsWords, itemsWords, words_bytes])
  exact ⟨request, hpost, hlength⟩

end RuntimeCluster
end BasisDB.Runtime
