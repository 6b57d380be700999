import BasisDB.RaftLeading

/-! `match_index` of a peer while a node leads: it falls back exactly when an older success
answer of the peer is handled after a newer one. -/
namespace BasisDB.Raft
open Leader

/-- The progress that a message reports of its sender, as a success of either kind. -/
def Message.reports (p : NodeId) (msg : Message) : Option ℕ :=
  match msg.payload with
  | .appendResponse resp =>
    if msg.sender = p ∧ resp.success = true then some resp.lastLogIndex else none
  | .installSnapshotResponse resp =>
    if msg.sender = p ∧ resp.success = true then some resp.lastIncludedIndex else none
  | _ => none

namespace Leader
variable {p : NodeId} {core : Core}

/-- The log end that a message reports for `p`, as a success answer of a member at the
current term. -/
def appendedBy (core : Core) (p : NodeId) (msg : Message) : Option ℕ :=
  match msg.payload with
  | .appendResponse resp =>
    if msg.term = core.term ∧ msg.sender = p ∧ core.effectiveConfig.isMember p = true ∧
        resp.success = true then some resp.lastLogIndex else none
  | _ => none

theorem appendedBy_eq_some {msg : Message} {i : ℕ} : appendedBy core p msg = some i ↔
    ∃ resp, msg.payload = .appendResponse resp ∧ (msg.term = core.term ∧ msg.sender = p ∧
      core.effectiveConfig.isMember p = true ∧ resp.success = true) ∧ resp.lastLogIndex = i := by
  unfold appendedBy
  cases msg.payload with
  | appendResponse resp =>
    simp only [Option.ite_none_right_eq_some, Option.some.injEq, Payload.appendResponse.injEq,
      exists_eq_left']
  | _ => simp

/-- A message at the current term goes to the handler of its payload. -/
theorem handleMessage_current (l : Leader) {msg : Message} (hterm : msg.term = core.term) :
    (∀ resp, msg.payload = .appendResponse resp →
      l.handleMessage core msg = l.handleAppendResponse core msg.sender resp) ∧
    ∀ resp, msg.payload = .installSnapshotResponse resp →
      l.handleMessage core msg = l.handleInstallSnapshotResponse core msg.sender resp := by
  have hnewer : ¬core.term < msg.term := by omega
  have hstale : ¬msg.term < core.term := by omega
  constructor
  · intro resp hp
    simp [handleMessage, hp, hnewer, hstale]
  · intro resp hp
    simp [handleMessage, hp, hnewer, hstale]

/-- At another term the leader itself stays as it is. -/
theorem handleMessage_otherTerm (l : Leader) {msg : Message} (hterm : msg.term ≠ core.term) :
    (l.handleMessage core msg).role = l := by
  unfold handleMessage
  split
  · rfl
  by_cases hnewer : core.term < msg.term
  · rw [if_pos hnewer]
  · have hstale : msg.term < core.term := by omega
    rw [if_neg hnewer, if_pos hstale]

/-- A success answer sets the progress, whatever it was. -/
theorem handleMessage_appended (hr : Reported p core) (l : Leader) {msg : Message} {i : ℕ}
    (h : appendedBy core p msg = some i) : (l.handleMessage core msg).role.matchOf p = i := by
  obtain ⟨resp, hp, ⟨hterm, hsender, hmember, hsuccess⟩, rfl⟩ := appendedBy_eq_some.mp h
  rw [(handleMessage_current l hterm).1 resp hp, handleAppendResponse, hsender]
  simp only [hmember, Bool.not_true, Bool.false_eq_true, if_false, hsuccess, if_true]
  rw [(commitStep_grows hr _).matched]
  split_ifs
  · exact matchOf_insert_self l p _
  · exact matchOf_insert_self l p _

/-- An installed snapshot raises the progress to its own index, or leaves it. -/
theorem handleInstallSnapshotResponse_matchOf (hr : Reported p core) (l : Leader)
    (resp : InstallSnapshotResponse) :
    (l.handleInstallSnapshotResponse core p resp).role.matchOf p = l.matchOf p ∨
      resp.success = true ∧ l.matchOf p < resp.lastIncludedIndex ∧
      (l.handleInstallSnapshotResponse core p resp).role.matchOf p = resp.lastIncludedIndex := by
  unfold handleInstallSnapshotResponse
  split_ifs with hrefused hold
  · exact Or.inl rfl
  · exact Or.inl rfl
  · right
    rw [not_or, Bool.not_eq_false] at hrefused
    refine ⟨hrefused.1, not_le.mp hold, ?_⟩
    rw [(commitStep_grows hr _).matched]
    simp [matchOf]

/-- A message leaves the progress of `p`, or is a success of `p` at the current term that sets it:
an answer to an append request whatever it was, an installed snapshot if it was below. -/
theorem handleMessage_matchOf (hr : Reported p core) (l : Leader) (msg : Message) :
    (l.handleMessage core msg).role.matchOf p = l.matchOf p ∨
      msg.term = core.term ∧
      msg.reports p = some ((l.handleMessage core msg).role.matchOf p) ∧
      (appendedBy core p msg = none →
        l.matchOf p ≤ (l.handleMessage core msg).role.matchOf p) := by
  by_cases hterm : msg.term = core.term
  swap
  · -- an older message is refused, a newer one makes the leader step down as it is
    exact Or.inl (by rw [handleMessage_otherTerm l hterm])
  by_cases hother : msg.sender ≠ p ∨ msg.payload.reportsProgress = false
  · exact Or.inl (handleMessage_grows hr l (by omega) hother).matched
  obtain ⟨hsender, hreports⟩ := not_or.mp hother
  rw [not_not] at hsender
  cases hp : msg.payload with
  | appendResponse resp =>
    by_cases hcounted : core.effectiveConfig.isMember p = true ∧ resp.success = true
    · right
      have happended : appendedBy core p msg = some resp.lastLogIndex :=
        appendedBy_eq_some.mpr ⟨resp, hp, ⟨hterm, hsender, hcounted⟩, rfl⟩
      refine ⟨hterm, ?_, fun hnone => ?_⟩
      · rw [handleMessage_appended hr l happended]
        simp only [Message.reports, hp, hsender, hcounted, and_self, if_true]
      · rw [happended] at hnone
        cases hnone
    · left
      rw [(handleMessage_current l hterm).1 resp hp]
      refine (handleAppendResponse_grows hr l resp (Or.inr ?_)).matched
      rw [hsender, ← Bool.not_eq_true, ← Bool.not_eq_true]
      exact not_and_or.mp hcounted
  | installSnapshotResponse resp =>
    rw [(handleMessage_current l hterm).2 resp hp, hsender]
    refine (handleInstallSnapshotResponse_matchOf hr l resp).imp_right ?_
    rintro ⟨hsuccess, hbelow, hset⟩
    refine ⟨hterm, ?_, fun _ => by omega⟩
    simp only [Message.reports, hp, hsender, hsuccess, hset, and_self, if_true]
  | _ =>
    rw [hp] at hreports
    exact absurd rfl hreports

/-- Nothing else lowers it. -/
theorem handleMessage_not_appended (hr : Reported p core) (l : Leader) {msg : Message}
    (h : appendedBy core p msg = none) :
    l.matchOf p ≤ (l.handleMessage core msg).role.matchOf p := by
  rcases handleMessage_matchOf hr l msg with hsame | ⟨-, -, hle⟩
  · exact hsame.ge
  · exact hle h

end Leader

namespace Solo
variable {s : Solo} {l l' : Leader} {p : NodeId}

/-- What an input that is no success answer of `p` leaves of its progress. -/
theorem leaderAfter_le (hr : Reported p s.node.core) (hp : s.node.id ≠ p) {input : Input}
    (hl : s.node.role = .leader l) (h : s.leaderAfter input = some l')
    (hother : ∀ msg, input = .event (.message msg) → appendedBy s.node.core p msg = none) :
    l.matchOf p ≤ l'.matchOf p := by
  by_cases hevent : ∃ event, input = .event event
  · obtain ⟨event, rfl⟩ := hevent
    simp only [leaderAfter, hl, Option.some.injEq] at h
    rw [← h]
    cases event with
    | message msg => exact handleMessage_not_appended hr l (hother msg rfl)
    | tick => exact (handleTick_grows l s.node.core).matched.ge
    | diskWriteComplete index =>
      refine (step_grows hr l ?_ (fun _ _ => hp)).matched.ge
      exact fun msg hmsg => by cases hmsg
  · have hcall : ∀ event, input ≠ .event event := fun event he => hevent ⟨event, he⟩
    exact (leaderAfter_grows hcall hl h hr).matched.ge

section Runs
variable {config : Config} {saved : Persistent} {inputs : List Input} {k : ℕ}

theorem moment_id_ne (hp : p ≠ config.id) (k : ℕ) :
    ((start config saved).moment inputs k).node.id ≠ p := by
  have hid : ((start config saved).moment inputs k).node.id = config.id :=
    congrArg Config.id (moment_config (start config saved) inputs k)
  exact fun heq => hp (heq.symm.trans hid)

theorem reported_moment (hp : p ≠ config.id) (k : ℕ) :
    Reported p ((start config saved).moment inputs k).node.core :=
  Or.inr (Ne.symm (moment_id_ne hp k))

/-- With success answers that report at least what the leader has for the peer already. -/
theorem matchOf_le_of_reports (hp : p ≠ config.id)
    (h : ∀ (k : ℕ) (msg : Message) (l : Leader) (i : ℕ), inputs[k]? = some (.event (.message msg)) →
      ((start config saved).moment inputs k).node.role = .leader l →
      appendedBy ((start config saved).moment inputs k).node.core p msg = some i →
      l.matchOf p ≤ i) {input : Input} (hinput : inputs[k]? = some input)
    (hl : ((start config saved).moment inputs k).node.role = .leader l)
    (hafter : ((start config saved).moment inputs k).leaderAfter input = some l') :
    l.matchOf p ≤ l'.matchOf p := by
  have hr : Reported p ((start config saved).moment inputs k).node.core := reported_moment hp k
  by_cases happended : ∃ msg i, input = .event (.message msg) ∧
      appendedBy ((start config saved).moment inputs k).node.core p msg = some i
  · obtain ⟨msg, i, rfl, hi⟩ := happended
    simp only [leaderAfter, hl, Option.some.injEq] at hafter
    have hle := h k msg l i hinput hl hi
    rw [← hafter]
    exact hle.trans (handleMessage_appended hr l hi).ge
  · refine leaderAfter_le hr (moment_id_ne hp k) hl hafter ?_
    intro msg hmsg
    cases hi : appendedBy ((start config saved).moment inputs k).node.core p msg with
    | none => rfl
    | some i => exact absurd ⟨msg, i, hmsg, hi⟩ happended

/-- What a leader has for `p` is nothing yet, or what `p` has reported at its term. -/
theorem matchOf_reported (hp : p ≠ config.id) (hk : k ≤ inputs.length)
    (hl : ((start config saved).moment inputs k).node.role = .leader l) :
    l.matchOf p = 0 ∨ ∃ j < k, ∃ msg, inputs[j]? = some (.event (.message msg)) ∧
      msg.term = ((start config saved).moment inputs k).node.core.term ∧
      msg.reports p = some (l.matchOf p) := by
  induction k generalizing l with
  | zero => cases hl
  | succ k ih =>
    have hinput : inputs[k]? = some inputs[k] := List.getElem?_eq_getElem (by omega)
    generalize inputs[k] = input at hinput
    have hr : Reported p ((start config saved).moment inputs k).node.core := reported_moment hp k
    have hr' : Reported p ((start config saved).moment inputs (k + 1)).node.core :=
      reported_moment hp (k + 1)
    rw [moment_succ _ _ hinput] at hl hr' ⊢
    by_cases hlead : ∃ l₀, ((start config saved).moment inputs k).node.role = .leader l₀
    · obtain ⟨l₀, hl₀⟩ := hlead
      -- a leader that goes on leading does so in its term
      have hterm := (handle_extends hl₀ hl).1
      have hkept (hsame : l.matchOf p = l₀.matchOf p) : l.matchOf p = 0 ∨
          ∃ j < k + 1, ∃ msg, inputs[j]? = some (.event (.message msg)) ∧
            msg.term = (((start config saved).moment inputs k).step input).node.core.term ∧
            msg.reports p = some (l.matchOf p) := by
        rw [hsame]
        refine (ih (by omega) hl₀).imp_right ?_
        rintro ⟨j, hj, msg, hmsg, hat, hreports⟩
        exact ⟨j, by omega, msg, hmsg, hat.trans hterm.symm, hreports⟩
      by_cases hmessage : ∃ msg, input = .event (.message msg)
      · obtain ⟨msg, rfl⟩ := hmessage
        obtain ⟨hrole, -⟩ := stepEvent_leads hl₀ hl
        rcases handleMessage_matchOf hr l₀ msg with hsame | ⟨hat, hreports, -⟩
        · exact hkept (hrole ▸ hsame)
        · exact Or.inr ⟨k, by omega, msg, hinput, hat.trans hterm.symm, hrole ▸ hreports⟩
      · refine hkept (handle_grows hl₀ hl hr (fun msg he => absurd ⟨msg, he⟩ hmessage) ?_).matched
        exact fun _ _ => moment_id_ne hp k
    · -- it has just been elected
      have hn : ∀ l₀, ((start config saved).moment inputs k).node.role ≠ .leader l₀ :=
        fun l₀ hl₀ => hlead ⟨l₀, hl₀⟩
      obtain ⟨event, rfl⟩ := handle_elects hn hl
      left
      rw [RaftNode.stepEvent_elects hn hl]
      exact Leader.new_matchOf hr'

/-- At each term, no success answer of `p` to an append request reports less than an answer of
`p` before it. -/
def AnswersInOrder (p : NodeId) (inputs : List Input) : Prop :=
  ∀ (j k : ℕ) (msg msg' : Message) (resp : AppendResponse) (i : ℕ), j < k →
    inputs[j]? = some (.event (.message msg)) → inputs[k]? = some (.event (.message msg')) →
    msg.term = msg'.term → msg.reports p = some i →
    msg'.sender = p → msg'.payload = .appendResponse resp → resp.success = true →
    i ≤ resp.lastLogIndex

/-- What the transport would have to do: deliver the answers of a peer in order. -/
theorem matchOf_le_of_inOrder (hp : p ≠ config.id) (h : AnswersInOrder p inputs) {input : Input}
    (hinput : inputs[k]? = some input)
    (hl : ((start config saved).moment inputs k).node.role = .leader l)
    (hafter : ((start config saved).moment inputs k).leaderAfter input = some l') :
    l.matchOf p ≤ l'.matchOf p := by
  refine matchOf_le_of_reports hp (fun k msg l i hinput hl hi => ?_) hinput hl hafter
  have hk := (List.getElem?_eq_some_iff.mp hinput).1
  rcases matchOf_reported hp hk.le hl with hzero | ⟨j, hjk, earlier, hj, hterm, hreports⟩
  · omega
  · obtain ⟨resp, hpayload, hcond, rfl⟩ := appendedBy_eq_some.mp hi
    exact h j k earlier msg resp _ hjk hj hinput (hterm.trans hcond.1.symm) hreports hcond.2.1
      hpayload hcond.2.2.2

end Runs

/-- While a node leads, `match_index` of a peer never falls exactly when every success answer
of the peer reports at least what the leader has for it already. -/
theorem match_index_monotone_iff (config : Config) (saved : Persistent) (inputs : List Input)
    (p : NodeId) (hp : p ≠ config.id) :
    (∀ (k : ℕ) (input : Input) (l l' : Leader), inputs[k]? = some input →
      ((start config saved).moment inputs k).node.role = .leader l →
      ((start config saved).moment inputs k).leaderAfter input = some l' →
      l.matchOf p ≤ l'.matchOf p) ↔
    ∀ (k : ℕ) (msg : Message) (l : Leader) (i : ℕ), inputs[k]? = some (.event (.message msg)) →
      ((start config saved).moment inputs k).node.role = .leader l →
      appendedBy ((start config saved).moment inputs k).node.core p msg = some i →
      l.matchOf p ≤ i := by
  constructor
  · intro hall k msg l i hinput hl happended
    have hafter : ((start config saved).moment inputs k).leaderAfter (.event (.message msg)) =
        some (l.handleMessage ((start config saved).moment inputs k).node.core msg).role := by
      simp only [leaderAfter, hl]
      rfl
    have hle := hall k _ l _ hinput hl hafter
    rw [handleMessage_appended (reported_moment hp k) l happended] at hle
    exact hle
  · intro hreports k input l l' hinput hl hafter
    exact matchOf_le_of_reports hp hreports hinput hl hafter

/-- The progress of a peer that a leading node has. -/
def progressOf (s : Solo) (p : NodeId) : Option ℕ :=
  match s.node.role with
  | .leader l => some (l.matchOf p)
  | _ => none

/-- The messages with which a node answers, one after the other. -/
def answersOf (n : RaftNode) : List Message → List Message
  | [] => []
  | msg :: msgs => (n.step msg).2.messages ++ answersOf (n.step msg).1 msgs

/-- Nothing saved, three voters. -/
def unsaved : Persistent :=
  { term := 0, votedFor := none, log := Log.empty, bootstrapConfig := .ofVoters [0, 1, 2] }

/-- Node 0 is told to campaign, is elected and takes two proposals. -/
def electedAndProposed : List Input :=
  [.event (.message { sender := 1, receiver := 0, term := 0, payload := .timeoutNow }),
    .event (.message
      { sender := 2, receiver := 0, term := 1, payload := .voteResponse { granted := true } }),
    .propose ⟨[1]⟩, .propose ⟨[2]⟩]

/-- The two append requests that the proposals send to node 1. -/
def proposalRequests : List Message :=
  ([2, 3].flatMap (fun k => (electedAndProposed[k]?.map
    (fun input => (((start (Config.new 0) unsaved).moment electedAndProposed k).handle
      input).2.messages)).getD [])).filter (fun m => decide (m.receiver = 1))

/-- What node 1 answers to them. -/
def proposalAnswers : List Message :=
  answersOf (RaftNode.new (Config.new 1) [0, 1, 2]) proposalRequests

/-- Some of the answers, delivered to node 0 after the proposals. -/
def withAnswers (order : List ℕ) : List Input :=
  electedAndProposed ++
    order.filterMap (fun k => proposalAnswers[k]?.map (fun m => .event (.message m)))

/-- The answers of a peer to two pipelined requests, delivered in the other order: the older
one takes `match_index` back from 2 to 1. -/
theorem reordered_answers_lower_match_index :
    proposalAnswers.map Message.payload =
      [.appendResponse { success := true, lastLogIndex := 1 },
        .appendResponse { success := true, lastLogIndex := 2 }] ∧
    ((start (Config.new 0) unsaved).run (withAnswers [1])).progressOf 1 = some 2 ∧
    ((start (Config.new 0) unsaved).run (withAnswers [1, 0])).progressOf 1 = some 1 := by
  refine ⟨?_, ?_, ?_⟩
  all_goals decide +kernel

theorem progressOf_leader (hl : s.node.role = .leader l) :
    s.progressOf p = some (l.matchOf p) := by
  simp only [progressOf, hl]

/-- The first answer alone. -/
theorem match_index_monotone_firstAnswer :
    ∃ l l', ((start (Config.new 0) unsaved).moment (withAnswers [0]) 4).node.role = .leader l ∧
      ((start (Config.new 0) unsaved).moment (withAnswers [0]) 5).node.role = .leader l' ∧
      l.matchOf 1 ≤ l'.matchOf 1 := by
  have hbefore : ((start (Config.new 0) unsaved).moment (withAnswers [0]) 4).progressOf 1 =
      some 0 := by decide +kernel
  have hafter : ((start (Config.new 0) unsaved).moment (withAnswers [0]) 5).progressOf 1 =
      some 1 := by decide +kernel
  have hleads (s : Solo) (i : ℕ) (h : s.progressOf 1 = some i) : ∃ l, s.node.role = .leader l := by
    cases hr : s.node.role with
    | leader l => exact ⟨l, rfl⟩
    | follower f | preCandidate c | candidate c => simp [progressOf, hr] at h
  obtain ⟨l, hl⟩ := hleads _ _ hbefore
  obtain ⟨l', hl'⟩ := hleads _ _ hafter
  have hinput : ∃ input, (withAnswers [0])[4]? = some input :=
    Option.isSome_iff_exists.mp (by decide +kernel)
  obtain ⟨input, hinput⟩ := hinput
  refine ⟨l, l', hl, hl', ?_⟩
  rw [(start (Config.new 0) unsaved).moment_succ _ hinput] at hl'
  refine (match_index_monotone_iff (Config.new 0) unsaved (withAnswers [0]) 1 (by decide)).mpr ?_
    4 input l l' hinput hl (leaderAfter_eq hl hl')
  intro k msg l i hmsg hl hi
  have hshort : k < 5 := by
    by_contra hge
    have hnone : (withAnswers [0])[k]? = none :=
      List.getElem?_eq_none (le_trans (by decide +kernel) (not_lt.mp hge))
    rw [hnone] at hmsg
    cases hmsg
  have hprogress := progressOf_leader (p := 1) hl
  -- until the answer arrives the leader has nothing for node 1
  have hnothing : ∀ j < 5,
      ((start (Config.new 0) unsaved).moment (withAnswers [0]) j).progressOf 1 = some 0 ∨
      ((start (Config.new 0) unsaved).moment (withAnswers [0]) j).progressOf 1 = none := by
    decide +kernel
  rcases hnothing k hshort with h0 | h0
  · rw [h0] at hprogress
    rw [← Option.some.inj hprogress]
    exact Nat.zero_le i
  · rw [h0] at hprogress
    cases hprogress

end Solo
end BasisDB.Raft
