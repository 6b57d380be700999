import BasisDB.RaftAuth
import BasisDB.RuntimeHealthy

/-! The peer transport over a network that nobody is to be trusted on: whoever is out there may
post anything to any node, as often as they like, and see all that the nodes post. Without the
key they can do no more than the network itself can: lose, repeat and reorder messages. -/
namespace BasisDB.Transport
open BasisDB.Raft BasisDB.Kv BasisDB.Runtime BasisDB.Auth

def maxRaftMessageBytes : ℕ := 2 * 1024 * 1024

/-- The JSON encoding of peer messages. -/
structure MessageCodec where
  encode : Message → Option (List UInt8)
  decode : List UInt8 → Option Message

def MessageCodec.RoundTrips (wire : MessageCodec) : Prop :=
  ∀ message body, wire.encode message = some body → wire.decode body = some message

/-- A request to `/raft/message`: its signature header, if it has one, and its body. -/
structure PeerRequest where
  signature : Option (List UInt8)
  body : List UInt8
deriving DecidableEq

/-- `post_raft_message_inner`, up to what it writes into the connection. -/
def postRaftMessage (wire : MessageCodec) (key : RaftKey) (message : Message) :
    Option PeerRequest := do
  let body ← wire.encode message
  if maxRaftMessageBytes < body.length then none else some ⟨some (key.signature body), body⟩

inductive PeerReply where
  | noContent
  | payloadTooLarge
  | missingSignature
  | invalidSignature
  | invalidMessage
  | rejected (error : MessageError)
  | failed (error : RuntimeError)

/-- `receive_raft` behind the body limit of its route. -/
def receiveRaft (codec : Codec) (wire : MessageCodec) (key : RaftKey) (r : RaftRuntime)
    (request : PeerRequest) (task : Task) : Outcome × PeerReply :=
  if maxRaftMessageBytes < request.body.length then ({ runtime := r }, .payloadTooLarge)
  else
    match request.signature with
    | none => ({ runtime := r }, .missingSignature)
    | some signature =>
      if key.verify request.body signature then
        match wire.decode request.body with
        | none => ({ runtime := r }, .invalidMessage)
        | some message =>
          match r.validateMessage message with
          | .error error => ({ runtime := r }, .rejected error)
          | .ok () =>
            let out := r.step codec message task
            (out, match out.error with
              | some error => .failed error
              | none => .noContent)
      else ({ runtime := r }, .invalidSignature)

/-- The message that a request brings past the checks on its size, its signature and its text. -/
def PeerRequest.message (wire : MessageCodec) (key : RaftKey) (request : PeerRequest) :
    Option Message := do
  let signature ← request.signature
  if request.body.length ≤ maxRaftMessageBytes ∧ key.verify request.body signature then
    wire.decode request.body
  else none

/-- Runtimes, and every request that one of them has posted. -/
structure OpenCluster where
  cluster : RuntimeCluster
  posted : List PeerRequest

/-- One step on an open network. `post` is the task that `send` spawns for a message; `receive` is
a request of anyone to the node `n`. -/
inductive OpenAction where
  | tick (n : NodeId) (task : Task)
  | propose (n : NodeId) (command : KvCommand) (task : Task)
  | cleanup (n : NodeId) (index id : ℕ)
  | restart (n : NodeId)
  | post (k : ℕ)
  | receive (n : NodeId) (request : PeerRequest) (task : Task)

/-- The task that the action runs, if it runs one. -/
def OpenAction.task : OpenAction → Option Task
  | .tick _ task => some task
  | .propose _ _ task => some task
  | .receive _ _ task => some task
  | _ => none

namespace OpenCluster

def init (configs : NodeId → NodeConfig) : OpenCluster := ⟨RuntimeCluster.init configs, []⟩

def step (codec : Codec) (wire : MessageCodec) (key : RaftKey) (s : OpenCluster) :
    OpenAction → OpenCluster
  | .tick n task => { s with cluster := s.cluster.step codec (.tick n task) }
  | .propose n command task => { s with cluster := s.cluster.step codec (.propose n command task) }
  | .cleanup n index id => { s with cluster := s.cluster.step codec (.cleanup n index id) }
  | .restart n => { s with cluster := s.cluster.step codec (.restart n) }
  | .post k =>
    { s with posted := s.posted ++ (s.cluster.net[k]?.bind (postRaftMessage wire key)).toList }
  | .receive n request task =>
    { s with cluster :=
        s.cluster.record n (receiveRaft codec wire key (s.cluster.runtimes n) request task).1 }

def run (codec : Codec) (wire : MessageCodec) (key : RaftKey) (s : OpenCluster)
    (acts : List OpenAction) : OpenCluster := acts.foldl (step codec wire key) s

/-- A request that carries a valid signature has a body that one of the nodes has posted. -/
def Unforged (key : RaftKey) (s : OpenCluster) : OpenAction → Prop
  | .receive _ request _ => ∀ signature, request.signature = some signature →
    key.verify request.body signature = true → ∃ posted ∈ s.posted, posted.body = request.body
  | _ => True

/-- No request of the run was forged. -/
def UnforgedRun (codec : Codec) (wire : MessageCodec) (key : RaftKey) (s : OpenCluster)
    (acts : List OpenAction) : Prop :=
  ∀ k a, acts[k]? = some a → (s.run codec wire key (acts.take k)).Unforged key a

/-- What an action comes down to among runtimes that only deliver each other's messages. -/
def lower (wire : MessageCodec) (key : RaftKey) (s : OpenCluster) : OpenAction → List RuntimeAction
  | .tick n task => [.tick n task]
  | .propose n command task => [.propose n command task]
  | .cleanup n index id => [.cleanup n index id]
  | .restart n => [.restart n]
  | .post _ => []
  | .receive n request task =>
    match request.message wire key with
    | some message =>
      if message.receiver = n then [.deliver (s.cluster.net.idxOf message) task] else []
    | none => []

/-- What an action on the open network is on the closed one: an action of a node is the same, and
a request is the delivery of a message that was posted and is addressed to the node, or nothing.
It is not nothing if it is what a node posts for such a message. -/
inductive Closes (wire : MessageCodec) (key : RaftKey) (s : OpenCluster) :
    OpenAction → List RuntimeAction → Prop
  | tick (n : NodeId) (task : Task) : Closes wire key s (.tick n task) [.tick n task]
  | propose (n : NodeId) (command : KvCommand) (task : Task) :
      Closes wire key s (.propose n command task) [.propose n command task]
  | cleanup (n : NodeId) (index id : ℕ) :
      Closes wire key s (.cleanup n index id) [.cleanup n index id]
  | restart (n : NodeId) : Closes wire key s (.restart n) [.restart n]
  | post (k : ℕ) : Closes wire key s (.post k) []
  | delivered (n : NodeId) (request : PeerRequest) (task : Task) (i : ℕ) (message : Message)
      (hsent : s.cluster.net[i]? = some message) (hreceiver : message.receiver = n)
      (hposted : ∃ posted ∈ s.posted, posted.body = request.body)
      (hbody : wire.encode message = some request.body) :
      Closes wire key s (.receive n request task) [.deliver i task]
  | ignored (n : NodeId) (request : PeerRequest) (task : Task)
      (hother : ∀ message ∈ s.cluster.net, message.receiver = n →
        postRaftMessage wire key message ≠ some request) :
      Closes wire key s (.receive n request task) []

end OpenCluster
end BasisDB.Transport

namespace BasisDB.Runtime
open BasisDB.Raft BasisDB.Kv

/-- The task that the action runs, if it runs one. -/
def RuntimeAction.task : RuntimeAction → Option Task
  | .tick _ task => some task
  | .deliver _ task => some task
  | .propose _ _ task => some task
  | _ => none

namespace RuntimeCluster

theorem record_idle (s : RuntimeCluster) (n : NodeId) :
    s.record n { runtime := s.runtimes n } = s := by
  simp only [record, Function.update_eq_self, List.append_nil, Option.toList_none]

end RuntimeCluster
end BasisDB.Runtime

namespace BasisDB.Transport
open BasisDB.Raft BasisDB.Kv BasisDB.Runtime BasisDB.Auth
variable {codec : Codec} {wire : MessageCodec} {key : RaftKey} {r : RaftRuntime}
  {request : PeerRequest} {task : Task} {message : Message}

theorem PeerRequest.message_eq_some : request.message wire key = some message ↔
    ∃ signature, request.signature = some signature ∧
      request.body.length ≤ maxRaftMessageBytes ∧ key.verify request.body signature = true ∧
      wire.decode request.body = some message := by
  simp only [PeerRequest.message, Option.bind_eq_bind, Option.bind_eq_some_iff,
    Option.ite_none_right_eq_some, and_assoc]

theorem postRaftMessage_some (h : postRaftMessage wire key message = some request) :
    wire.encode message = some request.body ∧ request.body.length ≤ maxRaftMessageBytes ∧
      request.signature = some (key.signature request.body) := by
  obtain ⟨body, hbody, hrest⟩ := Option.bind_eq_some_iff.mp h
  split_ifs at hrest with hlarge
  obtain rfl := Option.some.inj hrest
  exact ⟨hbody, not_lt.mp hlarge, rfl⟩

/-- What a node posts is the message, to whoever reads it with the key. -/
theorem message_of_post (hwire : wire.RoundTrips)
    (h : postRaftMessage wire key message = some request) :
    request.message wire key = some message := by
  obtain ⟨hbody, hfits, hsignature⟩ := postRaftMessage_some h
  exact PeerRequest.message_eq_some.mpr ⟨_, hsignature, hfits, key.verify_signature request.body,
    hwire message request.body hbody⟩

/-- A request that brings no message leaves the runtime as it is. -/
theorem receiveRaft_of_none (h : request.message wire key = none) :
    (receiveRaft codec wire key r request task).1 = { runtime := r } := by
  unfold receiveRaft
  split_ifs with hlarge
  · rfl
  cases hsignature : request.signature with
  | none => rfl
  | some signature =>
    cases hverify : key.verify request.body signature with
    | false => simp only [hverify, Bool.false_eq_true, if_false]
    | true =>
      have hdecode : wire.decode request.body = none := by
        simpa only [PeerRequest.message, hsignature, hverify, not_lt.mp hlarge, true_and,
          Option.bind_eq_bind, Option.bind_some, if_true] using h
      simp only [hverify, hdecode, if_true]

theorem receiveRaft_of_some (h : request.message wire key = some message) :
    (receiveRaft codec wire key r request task).1 =
      match r.validateMessage message with
      | .error _ => { runtime := r }
      | .ok () => r.step codec message task := by
  obtain ⟨signature, hsignature, hfits, hverify, hdecode⟩ := PeerRequest.message_eq_some.mp h
  simp only [receiveRaft, if_neg (not_lt.mpr hfits), hsignature, hverify, hdecode, if_true]
  cases r.validateMessage message <;> rfl

end BasisDB.Transport

namespace BasisDB.Transport.OpenCluster
open BasisDB.Raft BasisDB.Kv BasisDB.Runtime BasisDB.Auth
variable {codec : Codec} {wire : MessageCodec} {key : RaftKey} {configs : NodeId → NodeConfig}
  {s : OpenCluster} {t : RuntimeCluster} {acts : List OpenAction}

/-- The runtimes are those of the closed network, and all that was posted is a message of theirs. -/
structure Mirrors (wire : MessageCodec) (s : OpenCluster) (t : RuntimeCluster) : Prop where
  cluster : s.cluster = t
  nodeId : ∀ n, (s.cluster.runtimes n).config.nodeId = n
  posted : ∀ request ∈ s.posted, ∃ message ∈ s.cluster.net,
    wire.encode message = some request.body

/-- A node's own action is the same action on the closed network. -/
theorem Mirrors.own (h : s.Mirrors wire t) (a : RuntimeAction) :
    OpenCluster.Mirrors wire { s with cluster := s.cluster.step codec a } (t.step codec a) where
  cluster := congrArg (RuntimeCluster.step codec · a) h.cluster
  nodeId n := by rw [(RuntimeCluster.step_cases codec s.cluster a).config, h.nodeId]
  posted request hrequest := by
    obtain ⟨message, hmem, hbody⟩ := h.posted request hrequest
    exact ⟨message, (RuntimeCluster.step_cases codec s.cluster a).net hmem, hbody⟩

/-- What a node has received of the nodes was posted by one of them. -/
theorem Mirrors.sent (h : s.Mirrors wire t) (hwire : wire.RoundTrips) {n : NodeId}
    {request : PeerRequest} {task : Task} {message : Message}
    (hunforged : s.Unforged key (.receive n request task))
    (hmessage : request.message wire key = some message) :
    message ∈ s.cluster.net ∧ wire.encode message = some request.body ∧
      ∃ posted ∈ s.posted, posted.body = request.body := by
  obtain ⟨signature, hsignature, -, hverify, hdecode⟩ := PeerRequest.message_eq_some.mp hmessage
  obtain ⟨posted, hposted, hbody⟩ := hunforged signature hsignature hverify
  obtain ⟨sent, hsent, hencode⟩ := h.posted posted hposted
  -- the body is that of a sent message, and it reads as no other one
  rw [hbody] at hencode
  obtain rfl : sent = message :=
    Option.some.inj ((hwire sent request.body hencode).symm.trans hdecode)
  exact ⟨hsent, hencode, posted, hposted, hbody⟩

/-- A request on the open network, and what it comes down to on the closed one. -/
theorem Mirrors.receive (h : s.Mirrors wire t) (hwire : wire.RoundTrips) (n : NodeId)
    (request : PeerRequest) (task : Task) (hunforged : s.Unforged key (.receive n request task)) :
    (s.step codec wire key (.receive n request task)).Mirrors wire
      ((s.lower wire key (.receive n request task)).foldl (RuntimeCluster.step codec) t) := by
  have hidle (hout : (receiveRaft codec wire key (s.cluster.runtimes n) request task).1 =
        { runtime := s.cluster.runtimes n })
      (hlower : s.lower wire key (.receive n request task) = []) :
      (s.step codec wire key (.receive n request task)).Mirrors wire
        ((s.lower wire key (.receive n request task)).foldl (RuntimeCluster.step codec) t) := by
    rw [hlower, step, hout, RuntimeCluster.record_idle]
    exact h
  cases hmessage : request.message wire key with
  | none => exact hidle (receiveRaft_of_none hmessage) (by simp only [lower, hmessage])
  | some message =>
    by_cases hn : message.receiver = n
    · -- the same delivery on the closed network
      subst hn
      have hfound : s.cluster.net[s.cluster.net.idxOf message]? = some message :=
        List.getElem?_idxOf (h.sent hwire hunforged hmessage).1
      have hsame : s.step codec wire key (.receive message.receiver request task) =
          ⟨s.cluster.step codec (.deliver (s.cluster.net.idxOf message) task), s.posted⟩ := by
        simp only [step, RuntimeCluster.step, hfound, RuntimeCluster.receiveRaft,
          receiveRaft_of_some hmessage]
        cases (s.cluster.runtimes message.receiver).validateMessage message with
        | error error => rw [RuntimeCluster.record_idle]
        | ok _ => rfl
      simp only [hsame, lower, hmessage, if_true, List.foldl_cons, List.foldl_nil]
      exact h.own _
    · -- a message for another node has a valid signature, and is turned away by its address
      have hreject : (s.cluster.runtimes n).validateMessage message =
          .error (.wrongRecipient n message.receiver) := by
        rw [RaftRuntime.validateMessage, h.nodeId, if_pos hn]
      exact hidle (by rw [receiveRaft_of_some hmessage, hreject])
        (by simp only [lower, hmessage, if_neg hn])

/-- What an action comes down to is what it is on the closed network. -/
theorem Mirrors.closes (h : s.Mirrors wire t) (hwire : wire.RoundTrips) (a : OpenAction)
    (hunforged : s.Unforged key a) : s.Closes wire key a (s.lower wire key a) := by
  cases a with
  | tick n task => exact .tick n task
  | propose n command task => exact .propose n command task
  | cleanup n index id => exact .cleanup n index id
  | restart n => exact .restart n
  | post k => exact .post k
  | receive n request task =>
    cases hmessage : request.message wire key with
    | none =>
      simp only [lower, hmessage]
      refine .ignored n request task (fun message _ _ hpost => ?_)
      rw [message_of_post hwire hpost] at hmessage
      cases hmessage
    | some message =>
      by_cases hn : message.receiver = n
      · simp only [lower, hmessage, if_pos hn]
        obtain ⟨hmem, hbody, hposted⟩ := h.sent hwire hunforged hmessage
        exact .delivered n request task _ message (List.getElem?_idxOf hmem) hn hposted hbody
      · simp only [lower, hmessage, if_neg hn]
        refine .ignored n request task (fun posted _ hreceiver hpost => hn ?_)
        rw [message_of_post hwire hpost] at hmessage
        obtain rfl := Option.some.inj hmessage
        exact hreceiver

/-- One action on the open network. -/
theorem Mirrors.step (h : s.Mirrors wire t) (hwire : wire.RoundTrips) (a : OpenAction)
    (hunforged : s.Unforged key a) : (s.step codec wire key a).Mirrors wire
      ((s.lower wire key a).foldl (RuntimeCluster.step codec) t) := by
  cases a with
  | tick n task => exact h.own (.tick n task)
  | propose n command task => exact h.own (.propose n command task)
  | cleanup n index id => exact h.own (.cleanup n index id)
  | restart n => exact h.own (.restart n)
  | post k =>
    refine ⟨h.cluster, h.nodeId, fun request hrequest => ?_⟩
    rcases List.mem_append.mp hrequest with hold | hnew
    · exact h.posted request hold
    · obtain ⟨message, hmessage, hpost⟩ :=
        Option.bind_eq_some_iff.mp (Option.mem_toList.mp hnew)
      exact ⟨message, List.mem_of_getElem? hmessage, (postRaftMessage_some hpost).1⟩
  | receive n request task => exact h.receive hwire n request task hunforged

theorem init_mirrors (wire : MessageCodec) (configs : NodeId → NodeConfig) :
    (init configs).Mirrors wire (RuntimeCluster.init configs) :=
  ⟨rfl, fun _ => rfl, fun _ hrequest => absurd hrequest List.not_mem_nil⟩

/-- The actions on a closed network that a run on the open one comes down to. -/
def lowered (codec : Codec) (wire : MessageCodec) (key : RaftKey) (configs : NodeId → NodeConfig)
    (acts : List OpenAction) : List RuntimeAction :=
  Simulations.lowered (step codec wire key) (RuntimeCluster.step codec)
    (fun s _ a => s.lower wire key a) (init configs) (RuntimeCluster.init configs) acts

theorem run_mirrors (hwire : wire.RoundTrips)
    (hunforged : (init configs).UnforgedRun codec wire key acts) :
    ((init configs).run codec wire key acts).Mirrors wire
      ((RuntimeCluster.init configs).run codec (lowered codec wire key configs acts)) :=
  Simulations.related_run (fun _ _ a h ha => h.step hwire a ha) (init_mirrors wire configs)
    hunforged

theorem UnforgedRun.take (h : (init configs).UnforgedRun codec wire key acts) (k : ℕ) :
    (init configs).UnforgedRun codec wire key (acts.take k) := by
  intro i a ha
  rw [List.getElem?_take] at ha
  split_ifs at ha with hi
  rw [List.take_take, min_eq_left hi.le]
  exact h i a ha

/-- An open network is no worse than a closed one. Whatever is posted to the nodes of a cluster by
whomever, made up, altered, repeated or sent to another node: as long as no valid signature was
forged, the runtimes are at every moment as in a run in which the nodes do the same and each
request is the delivery of a message that was posted for that node, or nothing. -/
theorem open_runs_are_closed_runs (codec : Codec) (wire : MessageCodec) (key : RaftKey)
    (configs : NodeId → NodeConfig) (acts : List OpenAction) (hwire : wire.RoundTrips)
    (hunforged : (init configs).UnforgedRun codec wire key acts) :
    ∃ closed : ℕ → List RuntimeAction, closed 0 = [] ∧
      (∀ k a, acts[k]? = some a → ∃ block, closed (k + 1) = closed k ++ block ∧
        ((init configs).run codec wire key (acts.take k)).Closes wire key a block) ∧
      ∀ k, ((init configs).run codec wire key (acts.take k)).cluster =
        (RuntimeCluster.init configs).run codec (closed k) := by
  have hmirrors (k : ℕ) := run_mirrors hwire (hunforged.take k)
  refine ⟨fun k => lowered codec wire key configs (acts.take k), rfl, fun k a ha => ?_,
    fun k => (hmirrors k).cluster⟩
  refine ⟨_, ?_, (hmirrors k).closes hwire a (hunforged k a ha)⟩
  simp only [lowered, List.take_add_one, ha, Option.toList_some, Simulations.lowered_append]
  exact congrArg _ (List.append_nil _)

/-- The vote request with which the first of two nodes begins. -/
def quickRequest : Option Message :=
  ((RuntimeCluster.init RuntimeCluster.quickNodes).run RuntimeCluster.unitCodec
    [.tick 0 {}]).net[0]?

/-- A codec of that message alone. -/
def quickWire : MessageCodec where
  encode message := if quickRequest = some message then some [7] else none
  decode body := if body = [7] then quickRequest else none

theorem quickWire_roundTrips : quickWire.RoundTrips := by
  intro message body h
  simp only [quickWire] at h ⊢
  split_ifs at h with hmessage
  obtain rfl := Option.some.inj h
  rw [if_pos rfl, hmessage]

def quickKey : RaftKey where
  tag body := (body ++ List.replicate 32 0).take 32
  length_tag body := by
    rw [List.length_take, List.length_append, List.length_replicate, signatureBytes]
    omega

/-- A request without a signature and one with a wrong one come first. The message that was posted
is then sent to its sender, and to its recipient twice. -/
def quickOpen : List OpenAction :=
  [.tick 0 {}, .receive 1 ⟨none, [7]⟩ {}, .receive 1 ⟨some [48, 55], [7]⟩ {}, .post 0,
    .receive 0 ⟨some (quickKey.signature [7]), [7]⟩ {},
    .receive 1 ⟨some (quickKey.signature [7]), [7]⟩ {},
    .receive 1 ⟨some (quickKey.signature [7]), [7]⟩ {}]

theorem quickOpen_unforged : (init RuntimeCluster.quickNodes).UnforgedRun RuntimeCluster.unitCodec
    quickWire quickKey quickOpen := by
  intro k a ha
  have hlen := (List.getElem?_eq_some_iff.mp ha).1
  simp only [quickOpen, List.length_cons, List.length_nil] at hlen
  have hposted (j : ℕ) (hj : ((init RuntimeCluster.quickNodes).run RuntimeCluster.unitCodec
      quickWire quickKey (quickOpen.take j)).posted.any (fun posted => posted.body = [7]) = true) :
      ∃ posted ∈ ((init RuntimeCluster.quickNodes).run RuntimeCluster.unitCodec quickWire quickKey
        (quickOpen.take j)).posted, posted.body = [7] := by
    simpa using hj
  interval_cases k <;> obtain rfl := Option.some.inj ha
  · trivial
  · exact fun _ h => nomatch h
  · intro signature hsignature hverify
    obtain rfl := Option.some.inj hsignature
    exact absurd hverify (by decide +kernel)
  · trivial
  · exact fun _ _ _ => hposted 4 (by decide +kernel)
  · exact fun _ _ _ => hposted 5 (by decide +kernel)
  · exact fun _ _ _ => hposted 6 (by decide +kernel)

/-- The last request but one was posted for its node, so it is a delivery. -/
theorem open_runs_are_closed_runs_quickOpen :
    ((init RuntimeCluster.quickNodes).run RuntimeCluster.unitCodec quickWire quickKey
        quickOpen).cluster.net.length = 3 ∧
      ∃ closed : ℕ → List RuntimeAction, (∃ i, closed 6 = closed 5 ++ [.deliver i {}]) ∧
        ((init RuntimeCluster.quickNodes).run RuntimeCluster.unitCodec quickWire quickKey
          quickOpen).cluster =
          (RuntimeCluster.init RuntimeCluster.quickNodes).run RuntimeCluster.unitCodec
            (closed 7) := by
  obtain ⟨closed, -, hblocks, hclosed⟩ := open_runs_are_closed_runs RuntimeCluster.unitCodec
    quickWire quickKey RuntimeCluster.quickNodes quickOpen quickWire_roundTrips quickOpen_unforged
  refine ⟨by decide +kernel, closed, ?_, hclosed 7⟩
  obtain ⟨block, hblock, hcloses⟩ := hblocks 5 _ rfl
  cases hcloses with
  | delivered _ _ _ i => exact ⟨i, hblock⟩
  | ignored _ _ _ hother =>
    obtain ⟨message, hmessage, hpost⟩ : ∃ message ∈ ((init RuntimeCluster.quickNodes).run
        RuntimeCluster.unitCodec quickWire quickKey (quickOpen.take 5)).cluster.net,
        message.receiver = 1 ∧ postRaftMessage quickWire quickKey message =
          some ⟨some (quickKey.signature [7]), [7]⟩ := by
      decide +kernel
    exact absurd hpost.2 (hother message hmessage hpost.1)

end BasisDB.Transport.OpenCluster
