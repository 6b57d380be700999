import BasisDB.KvService
import BasisDB.RuntimeLinear

/-! What a client of the KV service sees, whichever node it asks: one atomic server. A handler
proposes a command, waits for its answer, and a read then looks at the state of its own node,
possibly in the middle of a task that applies commands there. -/
namespace BasisDB.Runtime
open BasisDB.Raft BasisDB.Kv

/-- What is decoded is what was encoded. -/
def Codec.RoundTrips (codec : Codec) : Prop :=
  ∀ command bytes, codec.encode command = some bytes → codec.decode bytes = some command

/-- The entry that an accepted call appends carries the call's command. -/
theorem RaftRuntime.propose_call {codec : Codec} {r : RaftRuntime} {command : KvCommand}
    {sender : ℕ} {task : Task} {call : ProposeCall}
    (h : (r.propose codec command sender task).1.appended = some call) :
    call.node = r.config.nodeId ∧ codec.encode command = some call.command := by
  rcases r.propose_cases codec command sender task with
    ⟨id, hout⟩ | ⟨-, id, bytes, index, effects, node, hencode, -, hout⟩
  · rw [hout] at h
    cases h
  · rw [hout, awaitProposal_appended] at h
    obtain rfl := Option.some.inj h
    exact ⟨rfl, hencode⟩

section Sequential
variable {codec : Codec} {order : ℕ → Option CommittedEntry} {entry : CommittedEntry}
  {command : KvCommand} {i : ℕ}

theorem answerTo_decoded (h : codec.decode entry.command.bytes = some command) (state : KvState) :
    answerTo codec state entry = (state.apply command).2 := by
  rw [answerTo, h]

/-- One more place of the order. -/
theorem sequential_succ (h : order (i + 1) = some entry)
    (hdecode : codec.decode entry.command.bytes = some command) :
    sequential codec order (i + 1) = ((sequential codec order i).apply command).1 := by
  rw [sequential, List.range'_concat, List.filterMap_append, replay, List.foldl_append,
    Nat.one_mul, Nat.add_comm 1 i]
  simp only [List.filterMap_cons, h, List.filterMap_nil, List.foldl_cons, List.foldl_nil]
  rw [RaftRuntime.applyTo, hdecode]
  rfl

end Sequential
end BasisDB.Runtime

namespace BasisDB.Service
open BasisDB.Raft BasisDB.Kv BasisDB.Runtime BasisDB.Runtime.RuntimeCluster

/-- A request that the service of a node answered: action `called` was its proposal, and when it
answered, action `answered` had applied `turn` commands. -/
structure Visit where
  node : NodeId
  request : Request
  called : ℕ
  answered : ℕ
  turn : ℕ
  done : Completion

namespace Visit
variable {codec : Codec} {configs : NodeId → NodeConfig} {peers : OrdSet NodeId}
  {acts : List RuntimeAction} {v w : Visit}

/-- The runtime that the handler looks at. -/
def reader (codec : Codec) (configs : NodeId → NodeConfig) (acts : List RuntimeAction)
    (v : Visit) : RaftRuntime :=
  ((init configs).during codec acts v.answered v.turn).runtimes v.node

def response (codec : Codec) (configs : NodeId → NodeConfig) (acts : List RuntimeAction)
    (v : Visit) : Except ServiceError Response :=
  v.request.answer v.done.result (v.reader codec configs acts).state

/-- The visit's proposal was accepted, and its channel was filled in time. -/
structure Returns (codec : Codec) (configs : NodeId → NodeConfig) (acts : List RuntimeAction)
    (v : Visit) : Prop where
  proposes : ∃ command task, v.request.command = .ok command ∧
    acts[v.called]? = some (.propose v.node command task)
  channel : ((init configs).moment codec acts v.called).calls.length = v.done.sender
  accepted : ((init configs).moment codec acts (v.called + 1)).calls.length = v.done.sender + 1
  after : v.called ≤ v.answered
  completes : v.done ∈ ((init configs).during codec acts v.answered v.turn).completions

/-- The visit takes place in the run, and its proposal was not superseded. The process of a
handler is not started again while the handler runs. -/
structure Happens (codec : Codec) (configs : NodeId → NodeConfig) (acts : List RuntimeAction)
    (v : Visit) : Prop extends v.Returns codec configs acts where
  definite : v.done.result ≠ superseded
  stays : ∀ i, v.called ≤ i → i ≤ v.answered → acts[i]? ≠ some (.restart v.node)

/-- How many commands of the order the visit has behind it. -/
def reach (codec : Codec) (configs : NodeId → NodeConfig) (acts : List RuntimeAction)
    (v : Visit) : ℕ :=
  if v.request.reads then (v.reader codec configs acts).node.core.lastApplied
  else v.done.entry.index

/-- Where the visit stands among all visits: a write at its own command, a read behind the last
command that it saw. -/
def place (codec : Codec) (configs : NodeId → NodeConfig) (acts : List RuntimeAction)
    (v : Visit) : ℕ :=
  if v.request.reads then 2 * v.reach codec configs acts else 2 * v.reach codec configs acts - 1

theorem Happens.answered (h : v.Happens codec configs acts)
    (hown : TakesOwn codec (init configs) acts) :
    Answered codec configs acts (v.answered + 1) v.done :=
  ⟨during_completions hown _ _ h.completes, h.definite⟩

/-- The visit's channel belongs to its own command. -/
theorem Returns.call (h : v.Returns codec configs acts) {call : ProposeCall}
    (hcall : ((init configs).moment codec acts (v.answered + 1)).calls[v.done.sender]? =
      some call) :
    call.node = (((init configs).moment codec acts v.called).runtimes v.node).config.nodeId ∧
      ∃ command, v.request.command = .ok command ∧
        codec.encode command = some call.command := by
  obtain ⟨command, task, hcommand, ha⟩ := h.proposes
  have hle : v.called + 1 ≤ v.answered + 1 := Nat.succ_le_succ h.after
  obtain ⟨rest, hrest⟩ := calls_isPrefix codec (init configs) acts hle
  have hlen := h.accepted
  rw [← hrest, List.getElem?_append_left (by omega)] at hcall
  have hchannel := h.channel
  rw [moment_succ _ ha] at hcall hlen
  generalize (init configs).moment codec acts v.called = s at hcall hlen hchannel ⊢
  simp only [step, record, hchannel] at hcall hlen
  cases happended : ((s.runtimes v.node).propose codec command v.done.sender task).1.appended with
  | none =>
    simp only [happended, Option.toList_none, List.append_nil] at hlen
    omega
  | some appended =>
    simp only [happended, Option.toList_some] at hcall
    rw [← hchannel, List.getElem?_concat_length] at hcall
    obtain rfl := Option.some.inj hcall
    obtain ⟨hnode, hencode⟩ := RaftRuntime.propose_call happended
    exact ⟨hnode, command, hcommand, hencode⟩

/-- What the visit's entry is: the visit's command, on the visit's node. -/
theorem Happens.entry (hown : TakesOwn codec (init configs) acts)
    (h : v.Happens codec configs acts) (hcodec : codec.RoundTrips) :
    v.done.node = v.node ∧ ∃ command, v.request.command = .ok command ∧
      codec.decode v.done.entry.command.bytes = some command := by
  obtain ⟨call, hcall, hnode, hentry⟩ := answered_call hown (h.answered hown)
  obtain ⟨hvisit, command, hcommand, hencode⟩ := h.call hcall
  have hid := congrArg NodeConfig.nodeId (moment_config codec configs acts v.called v.node)
  refine ⟨hnode.trans (hvisit.trans hid), command, hcommand, ?_⟩
  rw [hentry]
  exact hcodec command call.command hencode

section Run
variable (hpeers : ∀ n, (configs n).peers = peers)
  (horderly : (init configs).OrderlyRun codec acts)
  (htrue : (init configs).Truthful codec acts)
include hpeers horderly htrue

/-- The reader's state: so many commands of the order, all committed. -/
theorem reader_state (v : Visit) {order : ℕ → Option CommittedEntry}
    (horder : CommittedOrder codec configs peers acts order) :
    (v.reader codec configs acts).state =
        sequential codec order (v.reader codec configs acts).node.core.lastApplied ∧
      (v.reader codec configs acts).node.core.lastApplied ≤
        ((lowMoment codec configs peers acts (v.answered + 1)).nodes v.node).core.commitIndex := by
  obtain ⟨hstate, hcommit⟩ := state_replayed hpeers (horderly.interrupted v.answered v.turn)
    (htrue.interrupted v.answered v.turn) (v.answered + 1) v.node
  rw [← during_eq] at hstate hcommit
  -- where the task is dropped makes no difference to the log and to what is committed
  obtain ⟨hlog, hindex⟩ := @lowMoment_during codec configs peers acts v.answered v.turn v.node
  rw [hindex] at hcommit
  have hsame : ((lowMoment codec configs peers (interrupted acts v.answered v.turn)
      (v.answered + 1)).nodes v.node).commandAt =
      ((lowMoment codec configs peers acts (v.answered + 1)).nodes v.node).commandAt := by
    funext i
    rw [RaftNode.commandAt, RaftNode.commandAt, hlog]
  refine ⟨hstate.trans ?_, hcommit⟩
  rw [sequential, reader, ← commandsUpTo_order horder hcommit, RaftNode.commandsUpTo, hsame]
  rfl

variable (hown : TakesOwn codec (init configs) acts)
include hown

/-- A read sees its own barrier. -/
theorem Happens.barrier (h : v.Happens codec configs acts) (hcodec : codec.RoundTrips) :
    v.done.entry.index ≤ (v.reader codec configs acts).node.core.lastApplied := by
  have horderly' := horderly.interrupted v.answered v.turn
  have htrue' := htrue.interrupted v.answered v.turn
  have hcompletes := h.completes
  rw [during_eq] at hcompletes
  obtain ⟨j, hj, hmem, -, happlied, -⟩ :=
    answered_applied hpeers horderly' htrue' ⟨hcompletes, h.definite⟩
  -- the answer came after the call, and the process was not started again since
  obtain ⟨call, i, hi, hplaced⟩ :=
    (waiting_moment hpeers horderly' htrue' j).completions v.done hmem
  have hmade : v.called ≤ i := by
    apply hplaced.after
    rw [moment_interrupted _ h.after]
    exact h.channel.le
  have hstay (x : ℕ) (hx : j ≤ x) (hxa : x < v.answered + 1) :
      (interrupted acts v.answered v.turn)[x]? ≠ some (.restart v.node) := by
    have hno := h.stays x (by omega) (by omega)
    rcases Nat.lt_or_ge x v.answered with hlt | hge
    · rw [interrupted_lt hlt]
      exact hno
    · obtain rfl : x = v.answered := by omega
      rw [interrupted_at]
      intro hrestart
      obtain ⟨a, ha, hdrop⟩ := Option.map_eq_some_iff.mp hrestart
      cases a with
      | restart n => exact hno (ha.trans (by rw [← hdrop]; rfl))
      | tick | deliver | propose | cleanup => cases hdrop
  have hnode := (h.entry hown hcodec).1
  rw [hnode] at happlied
  have hkept := (consistent_moment hpeers horderly' htrue' (v.answered + 1)).applied v.node j hj
    hstay
  rw [← during_eq] at hkept
  exact happlied.trans hkept

/-- What a visit has behind it was committed before it was answered. -/
theorem Happens.reach_committed (h : v.Happens codec configs acts) : ∃ j ≤ v.answered + 1, ∃ n,
    v.reach codec configs acts ≤
      ((lowMoment codec configs peers acts j).nodes n).core.commitIndex := by
  unfold reach
  split_ifs
  · obtain ⟨order, horder⟩ := exists_order hpeers horderly htrue
    exact ⟨v.answered + 1, le_rfl, v.node,
      (v.reader_state hpeers horderly htrue horder).2⟩
  · obtain ⟨j, hj, -, -, happlied, hcommit, -⟩ :=
      answered_applied hpeers horderly htrue (h.answered hown)
    exact ⟨j, hj, _, happlied.trans hcommit⟩

theorem Happens.entry_le_reach (h : v.Happens codec configs acts) (hcodec : codec.RoundTrips) :
    v.done.entry.index ≤ v.reach codec configs acts := by
  unfold reach
  split_ifs
  · exact h.barrier hpeers horderly htrue hown hcodec
  · exact le_rfl

theorem Happens.entry_pos (h : v.Happens codec configs acts) : 0 < v.done.entry.index := by
  obtain ⟨call, i, -, hplaced, hentry⟩ :=
    answered_placed hpeers horderly htrue hown (h.answered hown)
  rw [hentry]
  exact hplaced.index ▸ Nat.succ_pos _

/-- A visit that starts after another one has ended has more behind it. -/
theorem Happens.reach_lt (h : v.Happens codec configs acts) (h' : w.Happens codec configs acts)
    (hafter : v.answered < w.called) :
    v.reach codec configs acts < w.done.entry.index := by
  obtain ⟨j, hj, n, hreach⟩ := h.reach_committed hpeers horderly htrue hown
  have hcalls : ((init configs).moment codec acts j).calls.length ≤ w.done.sender := by
    rw [← h'.channel]
    exact (calls_isPrefix codec (init configs) acts (by omega)).length_le
  exact committed_before hpeers horderly htrue hown hreach (h'.answered hown) hcalls

end Run
end Visit

/-- What clients saw of a run is what one server shows them that serves one request after the
other: it applies the commands of `order` and stands at `sequential codec order i` after the
first `i` of them. -/
structure Linearizes (codec : Codec) (configs : NodeId → NodeConfig) (acts : List RuntimeAction)
    (order : ℕ → Option CommittedEntry) : Prop where
  /-- the commands of the order are commands that the run proposed -/
  proposed : ∀ i entry, order i = some entry → ∃ n command task,
    RuntimeAction.propose n command task ∈ acts ∧
      codec.decode entry.command.bytes = some command
  /-- a write is served at its own place, and takes the server to the next one -/
  writes : ∀ v : Visit, v.Happens codec configs acts → v.request.reads = false →
    ∃ i, v.place codec configs acts = 2 * i + 1 ∧ v.request.serve (sequential codec order i) =
      (sequential codec order (i + 1), v.response codec configs acts)
  /-- a read is served between two places -/
  reads : ∀ v : Visit, v.Happens codec configs acts → v.request.reads = true →
    ∃ i, v.place codec configs acts = 2 * i ∧ v.request.serve (sequential codec order i) =
      (sequential codec order i, v.response codec configs acts)
  /-- no two writes are served at one place -/
  distinct : ∀ v w : Visit, v.Happens codec configs acts → w.Happens codec configs acts →
    v.request.reads = false → v.place codec configs acts = w.place codec configs acts →
      v.done.sender = w.done.sender
  /-- a request that starts after another one was answered is served after it -/
  realTime : ∀ v w : Visit, v.Happens codec configs acts → w.Happens codec configs acts →
    v.answered < w.called → v.place codec configs acts < w.place codec configs acts

/-- The KV service is linearizable: whatever nodes the clients ask, over any network, with failing
disks and restarts, everything that they are told is what one atomic server tells them, in an
order that respects which requests were answered before others were made. -/
theorem service_requests_linearize (codec : Codec) (configs : NodeId → NodeConfig)
    (peers : OrdSet NodeId) (acts : List RuntimeAction) (hcodec : codec.RoundTrips)
    (hpeers : ∀ n, (configs n).peers = peers) (horderly : (init configs).OrderlyRun codec acts)
    (htrue : (init configs).Truthful codec acts) (hown : TakesOwn codec (init configs) acts) :
    ∃ order, Linearizes codec configs acts order := by
  obtain ⟨order, horder⟩ := exists_order hpeers horderly htrue
  have hlinear := linearizes_of_order hpeers horderly htrue hown horder
  refine ⟨order, fun i entry hentry => ?_, fun v h hwrites => ?_, fun v h hreads => ?_,
    fun v w h h' hwrites hplace => ?_, fun v w h h' hafter => ?_⟩
  · obtain ⟨call, hcall, -, rfl⟩ := hlinear.proposed i entry hentry
    obtain hinit | ⟨n, command, task, hmem, hencode⟩ :=
      calls_encoded codec (init configs) acts hcall
    · exact absurd hinit List.not_mem_nil
    · exact ⟨n, command, task, hmem, hcodec command call.command hencode⟩
  · obtain ⟨horderAt, hresult, -⟩ := hlinear.answers _ _ (h.answered hown)
    obtain ⟨-, command, hcommand, hdecode⟩ := h.entry hown hcodec
    obtain ⟨i, hi⟩ := Nat.exists_eq_succ_of_ne_zero
      (h.entry_pos hpeers horderly htrue hown).ne'
    refine ⟨i, ?_, ?_⟩
    · simp only [Visit.place, Visit.reach, hwrites, hi]
      rfl
    · rw [hi] at horderAt
      rw [hi, answerTo_decoded hdecode, Nat.succ_sub_one] at hresult
      rw [Request.serve_ok hcommand, sequential_succ horderAt hdecode, Visit.response, hresult]
      exact congrArg (Prod.mk _) (Request.answer_of_writes hwrites _ _ _)
  · obtain ⟨-, hresult, -⟩ := hlinear.answers _ _ (h.answered hown)
    obtain ⟨-, command, hcommand, hdecode⟩ := h.entry hown hcodec
    obtain rfl := Request.command_of_reads hreads hcommand
    obtain ⟨hstate, -⟩ := v.reader_state hpeers horderly htrue horder
    rw [answerTo_decoded hdecode] at hresult
    refine ⟨(v.reader codec configs acts).node.core.lastApplied, ?_, ?_⟩
    · simp only [Visit.place, Visit.reach, hreads, if_true]
    · rw [Request.serve_ok hcommand, Visit.response, hresult, hstate]
      rfl
  · have hreads : w.request.reads = false := by
      by_contra hreads
      rw [Bool.not_eq_false] at hreads
      have hpos := h.entry_pos hpeers horderly htrue hown
      simp only [Visit.place, Visit.reach, hwrites, hreads, if_true] at hplace
      simp only [Bool.false_eq_true, if_false] at hplace
      omega
    have hpos := h.entry_pos hpeers horderly htrue hown
    have hpos' := h'.entry_pos hpeers horderly htrue hown
    simp only [Visit.place, Visit.reach, hwrites, hreads, Bool.false_eq_true, if_false] at hplace
    exact hlinear.distinct _ _ _ _ (h.answered hown) (h'.answered hown) (by omega)
  · have hlt := h.reach_lt hpeers horderly htrue hown h' hafter
    have hle := h'.entry_le_reach hpeers horderly htrue hown hcodec
    simp only [Visit.place]
    split_ifs <;> omega

/-- The registration of `quickRead`. -/
def quickSession : Visit :=
  ⟨0, .registerSession, 3, 5, 1,
    ⟨0, 0, ⟨1, 1, ⟨"\"RegisterSession\"".toUTF8.toList⟩⟩, .ok (.registerSession 1)⟩⟩

/-- A read behind the barrier of `quickRead`. -/
def quickGet : Visit :=
  ⟨0, .get "config" "limits", 8, 10, 1,
    ⟨1, 0, ⟨2, 1, ⟨"\"ReadBarrier\"".toUTF8.toList⟩⟩, .ok .readBarrier⟩⟩

theorem unitCodec_roundTrips : unitCodec.RoundTrips := by
  intro command bytes h
  cases command with
  | registerSession | readBarrier =>
    obtain rfl := Option.some.inj h
    decide +kernel
  | put | delete => cases h

theorem quickSession_happens : quickSession.Happens unitCodec quickNodes quickRead where
  proposes := ⟨.registerSession, {}, rfl, rfl⟩
  channel := by decide +kernel
  accepted := by decide +kernel
  after := by decide
  completes := by decide +kernel
  definite := by simp [quickSession, superseded]
  stays i hi hi' := by
    simp only [quickSession] at hi hi'
    interval_cases i <;> simp [quickRead, quickPair, deliveries]

theorem quickGet_happens : quickGet.Happens unitCodec quickNodes quickRead where
  proposes := ⟨.readBarrier, {}, by decide, rfl⟩
  channel := by decide +kernel
  accepted := by decide +kernel
  after := by decide
  completes := by decide +kernel
  definite := by simp [quickGet, superseded]
  stays i hi hi' := by
    simp only [quickGet] at hi hi'
    interval_cases i <;> simp [quickRead, quickPair, deliveries]

theorem service_requests_linearize_quickRead :
    quickSession.place unitCodec quickNodes quickRead <
        quickGet.place unitCodec quickNodes quickRead ∧
      ∃ state, quickGet.request.serve state =
        (state, quickGet.response unitCodec quickNodes quickRead) := by
  obtain ⟨order, horder⟩ := service_requests_linearize unitCodec quickNodes
    (OrdSet.ofList [0, 1]) quickRead unitCodec_roundTrips (fun _ => rfl) (by decide +kernel)
    (by decide +kernel) (by decide +kernel)
  obtain ⟨i, -, hserve⟩ := horder.reads _ quickGet_happens rfl
  exact ⟨horder.realTime _ _ quickSession_happens quickGet_happens (by decide), _, hserve⟩

end BasisDB.Service
