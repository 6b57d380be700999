import BasisDB.RaftRefineCommit

/-! Where a node of fixed membership sends to: its peers and the sender of the message it
handles, and never a snapshot. -/
namespace BasisDB.Raft

theorem Log.slice_subset (log : Log) (start stop : ℕ) : log.slice start stop ⊆ log.entries := by
  unfold slice
  dsimp only
  split_ifs
  · exact List.nil_subset _
  · cases log.toVecIndex (max start (log.snapshotIndex + 1)) with
    | none => exact List.nil_subset _
    | some s =>
      dsimp only
      split_ifs
      · exact List.nil_subset _
      · exact fun e he => List.take_subset _ _ (List.drop_subset _ _ he)

/-- What a message may carry: entries only in an append request, then at most one more than `k`,
and commands only. -/
def Payload.Batch (k : ℕ) : Payload → Prop
  | .appendRequest req => req.entries.length ≤ k + 1 ∧ ∀ e ∈ req.entries, e.payload.asConfig = none
  | _ => True

/-- Every message goes to a node of `A` with a batch of the configured size, and no snapshot is
asked for. -/
structure Effects.Reaches (A : NodeId → Prop) (config : Config) (eff : Effects) : Prop where
  receivers : ∀ m ∈ eff.messages, A m.receiver
  batches : ∀ m ∈ eff.messages, m.payload.Batch config.maxEntriesPerMsg
  snapshots : eff.sendSnapshots = []

namespace Effects.Reaches
variable {A : NodeId → Prop} {config : Config} {eff eff' : Effects}

theorem none : Effects.none.Reaches A config :=
  ⟨fun _ hm => absurd hm List.not_mem_nil, fun _ hm => absurd hm List.not_mem_nil, rfl⟩

theorem withPersist (h : eff.Reaches A config) : eff.withPersist.Reaches A config :=
  ⟨h.receivers, h.batches, h.snapshots⟩

theorem merge (h : eff.Reaches A config) (h' : eff'.Reaches A config) :
    (eff.merge eff').Reaches A config := by
  refine ⟨?_, ?_, ?_⟩
  · exact List.forall_mem_append.mpr ⟨h.receivers, h'.receivers⟩
  · exact List.forall_mem_append.mpr ⟨h.batches, h'.batches⟩
  · show eff.sendSnapshots ++ eff'.sendSnapshots = []
    rw [h.snapshots, h'.snapshots]
    rfl

theorem withMessages (h : eff.Reaches A config) {msgs : List Message}
    (hm : ∀ m ∈ msgs, A m.receiver)
    (hbatch : ∀ m ∈ msgs, m.payload.Batch config.maxEntriesPerMsg) :
    (eff.withMessages msgs).Reaches A config :=
  ⟨List.forall_mem_append.mpr ⟨h.receivers, hm⟩, List.forall_mem_append.mpr ⟨h.batches, hbatch⟩,
    h.snapshots⟩

theorem withMessage (h : eff.Reaches A config) {msg : Message} (hm : A msg.receiver)
    (hbatch : msg.payload.Batch config.maxEntriesPerMsg) : (eff.withMessage msg).Reaches A config :=
  h.withMessages (fun _ hmem => List.mem_singleton.mp hmem ▸ hm)
    (fun _ hmem => List.mem_singleton.mp hmem ▸ hbatch)

end Effects.Reaches

/-- A node with this configuration that has appended and compacted nothing that would change its
membership. -/
structure Core.Steady (boot : Configuration) (config : Config) (core : Core) : Prop where
  config_eq : core.config = config
  boot_eq : core.persistent.bootstrapConfig = boot
  snapshotIndex : core.log.snapshotIndex = 0
  snapshotConfig : core.log.snapshotConfig = none
  commands : ∀ e ∈ core.log.entries, e.payload.asConfig = none
  indexed : ∀ e ∈ core.log.entries, 0 < e.index

variable {A : NodeId → Prop} {boot : Configuration} {config : Config} {core : Core}

namespace Core.Steady

theorem of_log (h : core.Steady boot config) {core' : Core} (hconfig : core'.config = core.config)
    (hboot : core'.persistent.bootstrapConfig = core.persistent.bootstrapConfig)
    (hlog : core'.log = core.log) : core'.Steady boot config := by
  obtain ⟨h1, h2, h3, h4, h5, h6⟩ := h
  rw [← hlog] at h3 h4 h5 h6
  exact ⟨hconfig.trans h1, hboot.trans h2, h3, h4, h5, h6⟩

theorem id_eq (h : core.Steady boot config) : core.id = config.id := congrArg Config.id h.config_eq

theorem effectiveConfig (h : core.Steady boot config) : core.effectiveConfig = boot := by
  have hnone : core.log.configAt core.log.lastIndex = none := by
    unfold Log.configAt
    dsimp only
    split_ifs
    · exact h.snapshotConfig
    · have hfind (stop : ℕ) : (core.log.entries.take stop).reverse.findSome?
          (fun e => e.payload.asConfig) = none := by
        rw [List.findSome?_eq_none_iff]
        intro e he
        exact h.commands e (List.mem_of_mem_take (List.mem_reverse.mp he))
      rw [hfind]
      exact h.snapshotConfig
  show (core.log.configAt core.log.lastIndex).getD core.persistent.bootstrapConfig = boot
  rw [hnone]
  exact h.boot_eq

theorem maybeUpdateTerm (h : core.Steady boot config) (term : ℕ) :
    (core.maybeUpdateTerm term).1.Steady boot config := by
  unfold Core.maybeUpdateTerm
  split_ifs
  · exact h.of_log rfl rfl rfl
  · exact h

theorem appendOwn (h : core.Steady boot config) (cmd : Command) :
    (Leader.appendOwn core (.command cmd)).Steady boot config := by
  refine ⟨h.config_eq, h.boot_eq, h.snapshotIndex, h.snapshotConfig,
    List.forall_mem_append.mpr ⟨h.commands, fun e he => ?_⟩,
    List.forall_mem_append.mpr ⟨h.indexed, fun e he => ?_⟩⟩
  · rw [List.mem_singleton.mp he]
    rfl
  · rw [List.mem_singleton.mp he]
    exact Nat.succ_pos _

theorem mem_replicationPeers (h : core.Steady boot config) {p : NodeId}
    (hp : p ∈ core.effectiveConfig.replicationPeers core.id) :
    p ∈ boot.allNodes ∧ p ≠ config.id := by
  rw [h.effectiveConfig, h.id_eq, Configuration.replicationPeers, List.mem_filter] at hp
  exact ⟨hp.1, by simpa using hp.2⟩

theorem mem_voterPeers (h : core.Steady boot config) {p : NodeId}
    (hp : p ∈ core.effectiveConfig.voterPeers core.id) : p ∈ boot.allNodes ∧ p ≠ config.id := by
  rw [h.effectiveConfig, h.id_eq, Configuration.voterPeers, List.mem_filter] at hp
  exact ⟨List.mem_append_left _ hp.1, by simpa using hp.2⟩

/-- The batch of `send_append_to`: both ends of the slice are included. -/
theorem slice_batch (h : core.Steady boot config) (start stop : ℕ)
    (hstop : stop ≤ start + config.maxEntriesPerMsg) :
    (core.log.slice start stop).length ≤ config.maxEntriesPerMsg + 1 ∧
      ∀ e ∈ core.log.slice start stop, e.payload.asConfig = none := by
  refine ⟨?_, fun e he => h.commands e (core.log.slice_subset start stop he)⟩
  unfold Log.slice
  dsimp only
  split_ifs with hempty
  · exact Nat.zero_le _
  · have hlast : 0 < core.log.lastIndex := by
      rw [Log.lastIndex, List.getLast?_eq_getLast_of_ne_nil (fun h => hempty (Or.inr h))]
      exact h.indexed _ (List.getLast_mem _)
    simp only [Log.toVecIndex, h.snapshotIndex]
    rw [if_neg (by omega), if_neg (by omega)]
    dsimp only
    split_ifs
    · exact Nat.zero_le _
    · rw [List.length_drop]
      have htake : (core.log.entries.take (min stop core.log.lastIndex - 0 - 1 + 1)).length ≤
          min stop core.log.lastIndex - 0 - 1 + 1 := List.length_take_le _ _
      omega

end Core.Steady

/-- No peer is waited for before the first entry, and no read is pending. -/
structure Leader.Primed (l : Leader) : Prop where
  next : ∀ p i, l.nextIndex.get p = some i → 0 < i
  reads : l.pendingReadIndex = none

/-- What a role's step hands to the node: messages for `A`, and a core that may campaign. -/
structure Stepped.Addressed {ρ : Type} (A : NodeId → Prop) (boot : Configuration) (config : Config)
    (s : Stepped ρ) : Prop where
  effects : s.result.effects.Reaches A config
  core : s.result.transition = .stay ∨ s.core.Steady boot config

theorem Stepped.Addressed.stay {ρ : Type} {role : ρ} {eff : Effects} (h : eff.Reaches A config) :
    (⟨role, core, StepResult.stay eff⟩ : Stepped ρ).Addressed A boot config := ⟨h, Or.inl rfl⟩

theorem Stepped.Addressed.none {ρ : Type} {role : ρ} :
    (⟨role, core, StepResult.none⟩ : Stepped ρ).Addressed A boot config := .stay .none

theorem Core.denyReply_reaches {msg : Message} (h : A msg.sender) :
    (core.denyReply msg).Reaches A config := by
  unfold denyReply
  split
  · exact Effects.Reaches.none.withMessage h trivial
  · exact Effects.Reaches.none.withMessage h trivial
  · exact .none

theorem Core.staleReply_reaches {msg : Message} (h : A msg.sender) :
    (core.staleReply msg).Reaches A config := by
  unfold staleReply
  split
  · exact Effects.Reaches.none.withMessage h trivial
  · exact Effects.Reaches.none.withMessage h trivial
  · exact .none

namespace Follower
variable (f : Follower)

theorem handleCurrent_addressed (hs : core.Steady boot config) {msg : Message} (h : A msg.sender) :
    (f.handleCurrent core msg).Addressed A boot config := by
  have hreply {eff : Effects} (heff : eff.Reaches A config) (core : Core)
      (payload : Payload) (hpayload : payload.Batch config.maxEntriesPerMsg) :
      (eff.withMessage (core.message msg.sender payload)).Reaches A config :=
    heff.withMessage h hpayload
  unfold handleCurrent
  split
  · unfold handleVoteRequest
    dsimp only
    split_ifs
    · exact .stay (hreply (Effects.Reaches.none.withPersist) _ _ trivial)
    · exact .stay (hreply .none _ _ trivial)
  · unfold handleAppendRequest
    dsimp only
    split_ifs
    · exact .stay (hreply .none _ _ trivial)
    · exact .stay (hreply (Effects.Reaches.none.withPersist) _ _ trivial)
    · exact .stay (hreply .none _ _ trivial)
    · exact .stay (hreply (Effects.Reaches.none.withPersist) _ _ trivial)
    · exact .stay (hreply .none _ _ trivial)
  · exact .stay (hreply .none _ _ trivial)
  · unfold handleInstallSnapshot
    dsimp only
    split_ifs
    · exact .stay (hreply .none _ _ trivial)
    · exact .stay (hreply .none _ _ trivial)
    · exact .stay (hreply (Effects.Reaches.none.withPersist) _ _ trivial)
  · exact ⟨.none, Or.inr hs⟩
  · exact .none

theorem observeTerm_steady (hs : core.Steady boot config) (msg : Message) :
    (f.observeTerm core msg).2.Steady boot config := by
  have hreset : (f.resetDeadline (core.maybeUpdateTerm msg.term).1).2.Steady boot config :=
    (hs.maybeUpdateTerm msg.term).of_log rfl rfl rfl
  unfold observeTerm
  dsimp only
  split_ifs <;> exact hreset

theorem step_addressed (hs : core.Steady boot config) (event : Event)
    (h : ∀ msg, event = .message msg → A msg.sender) :
    (f.step core event).Addressed A boot config := by
  cases event with
  | tick =>
    simp only [step, handleTick]
    refine ⟨?_, Or.inr (hs.of_log rfl rfl rfl)⟩
    split_ifs <;> exact .none
  | diskWriteComplete index => exact .none
  | message msg =>
    have hsender := h msg rfl
    unfold step handleMessage
    dsimp only
    split
    · exact .stay (Core.denyReply_reaches hsender)
    · split
      · exact .stay (Effects.Reaches.none.withMessage hsender trivial)
      · split_ifs with hnewer holder
        · have hcurrent := handleCurrent_addressed (f.observeTerm core msg).1
            (f.observeTerm_steady hs msg) hsender
          exact ⟨hcurrent.effects.withPersist, hcurrent.core⟩
        · refine .stay ?_
          unfold rejectStale
          split
          · exact Effects.Reaches.none.withMessage hsender trivial
          · exact Core.staleReply_reaches hsender
        · exact handleCurrent_addressed f hs hsender

end Follower

namespace PreCandidate

theorem new_addressed (hs : core.Steady boot config)
    (hA : ∀ p ∈ boot.allNodes, p ≠ config.id → A p) :
    (new core).2.2.Reaches A config ∧ (new core).2.1.Steady boot config := by
  have hs' : core.randomElectionTimeout.1.Steady boot config := hs.of_log rfl rfl rfl
  unfold new
  dsimp only
  split_ifs
  · exact ⟨.none, hs'⟩
  · refine ⟨Effects.Reaches.none.withMessages ?_ ?_, hs'⟩
    · intro m hm
      obtain ⟨p, hp, rfl⟩ := List.mem_map.mp hm
      exact hA p (hs'.mem_voterPeers hp).1 (hs'.mem_voterPeers hp).2
    · intro m hm
      obtain ⟨p, -, rfl⟩ := List.mem_map.mp hm
      exact trivial

theorem step_addressed (p : PreCandidate) (hs : core.Steady boot config) (event : Event)
    (h : ∀ msg, event = .message msg → A msg.sender) :
    (p.step core event).Addressed A boot config := by
  cases event with
  | tick =>
    simp only [step, handleTick]
    split_ifs
    · exact .none
    · exact ⟨.none, Or.inr (hs.of_log rfl rfl rfl)⟩
    · exact .none
  | diskWriteComplete index => exact .none
  | message msg =>
    have hsender := h msg rfl
    unfold step handleMessage
    dsimp only
    split
    · exact .stay (Core.denyReply_reaches hsender)
    split
    · exact ⟨Effects.Reaches.none.withPersist, Or.inr (hs.maybeUpdateTerm _)⟩
    · split
      · unfold handlePrevoteResponse
        dsimp only
        split_ifs
        · exact ⟨Effects.Reaches.none.withPersist, Or.inr (hs.maybeUpdateTerm _)⟩
        · exact .none
        · exact ⟨.none, Or.inr hs⟩
        · exact .none
      · exact ⟨.none, Or.inr hs⟩
      · exact .stay (Effects.Reaches.none.withMessage hsender trivial)
      · exact .stay (Effects.Reaches.none.withMessage hsender trivial)
      · exact ⟨.none, Or.inr hs⟩
      · exact .none

end PreCandidate

namespace Candidate

theorem new_addressed (hs : core.Steady boot config)
    (hA : ∀ p ∈ boot.allNodes, p ≠ config.id → A p) :
    (new core).2.2.Reaches A config ∧ (new core).2.1.Steady boot config := by
  have hs' : core.startElection.randomElectionTimeout.1.Steady boot config := hs.of_log rfl rfl rfl
  unfold new
  dsimp only
  split_ifs
  · exact ⟨Effects.Reaches.none.withPersist, hs'⟩
  · refine ⟨Effects.Reaches.none.withPersist.withMessages ?_ ?_, hs'⟩
    · intro m hm
      obtain ⟨p, hp, rfl⟩ := List.mem_map.mp hm
      exact hA p (hs'.mem_voterPeers hp).1 (hs'.mem_voterPeers hp).2
    · intro m hm
      obtain ⟨p, -, rfl⟩ := List.mem_map.mp hm
      exact trivial

theorem step_addressed (c : Candidate) (hs : core.Steady boot config) (event : Event)
    (h : ∀ msg, event = .message msg → A msg.sender) :
    (c.step core event).Addressed A boot config := by
  cases event with
  | tick =>
    simp only [step, handleTick]
    split_ifs
    · exact .none
    · exact ⟨.none, Or.inr (hs.of_log rfl rfl rfl)⟩
    · exact .none
  | diskWriteComplete index => exact .none
  | message msg =>
    have hsender := h msg rfl
    unfold step handleMessage
    dsimp only
    split
    · exact .stay (Core.denyReply_reaches hsender)
    split
    · exact .stay (Effects.Reaches.none.withMessage hsender trivial)
    · split
      · exact ⟨Effects.Reaches.none.withPersist, Or.inr (hs.maybeUpdateTerm _)⟩
      split
      · exact .stay (Core.staleReply_reaches hsender)
      · split
        · unfold handleVoteResponse
          dsimp only
          split_ifs
          · exact .none
          · exact ⟨.none, Or.inr hs⟩
          · exact .none
        · exact ⟨.none, Or.inr hs⟩
        · exact .stay (Effects.Reaches.none.withMessage hsender trivial)
        · exact ⟨.none, Or.inr hs⟩
        · exact .none

end Candidate

namespace Leader
variable {l : Leader}

theorem Primed.insert (h : l.Primed) (p : NodeId) {i : ℕ} (hi : 0 < i) :
    Leader.Primed { l with nextIndex := l.nextIndex.insert p i } := by
  refine ⟨fun q j hj => ?_, h.reads⟩
  rw [OrdMap.get_insert] at hj
  split_ifs at hj
  · obtain rfl := Option.some.inj hj
    exact hi
  · exact h.next q j hj

/-- Only the progress table and the pending read matter. -/
theorem Primed.of_next (h : l.Primed) {l' : Leader} (hnext : l'.nextIndex = l.nextIndex)
    (hreads : l'.pendingReadIndex = l.pendingReadIndex) : l'.Primed :=
  ⟨by rw [hnext]; exact h.next, hreads.trans h.reads⟩

theorem sendAppendTo_addressed (h : l.Primed) (hs : core.Steady boot config) {p : NodeId}
    (hp : A p) : (l.sendAppendTo core p).2.Reaches A config ∧ (l.sendAppendTo core p).1.Primed := by
  have hnext : 0 < (l.nextIndex.get p).getD 1 := by
    cases hget : l.nextIndex.get p with
    | none => exact Nat.one_pos
    | some i => exact h.next p i hget
  have hsnap := hs.snapshotIndex
  unfold sendAppendTo
  dsimp only
  rw [if_neg (by omega)]
  refine ⟨Effects.Reaches.none.withMessage hp (hs.slice_batch _ _ ?_), ?_⟩
  · rw [hs.config_eq]
    exact min_le_left _ _
  dsimp only
  split_ifs with hsent
  · exact h.insert p (by omega)
  · exact h

theorem foldl_sendAppends_addressed (hs : core.Steady boot config) (peers : List NodeId)
    (hpeers : ∀ p ∈ peers, A p) {acc : Leader × Effects} (hprimed : acc.1.Primed)
    (heff : acc.2.Reaches A config) :
    (peers.foldl (sendAppends core) acc).2.Reaches A config ∧
      (peers.foldl (sendAppends core) acc).1.Primed := by
  induction peers generalizing acc with
  | nil => exact ⟨heff, hprimed⟩
  | cons p peers ih =>
    have hsend := sendAppendTo_addressed hprimed hs (hpeers p List.mem_cons_self)
    exact ih (fun q hq => hpeers q (List.mem_cons_of_mem p hq)) hsend.2 (heff.merge hsend.1)

theorem broadcastAppend_addressed (h : l.Primed) (hs : core.Steady boot config)
    (hA : ∀ p ∈ boot.allNodes, p ≠ config.id → A p) :
    (l.broadcastAppend core).2.Reaches A config ∧ (l.broadcastAppend core).1.Primed := by
  apply foldl_sendAppends_addressed hs _ _ h .none
  intro p hp
  exact hA p (hs.mem_replicationPeers hp).1 (hs.mem_replicationPeers hp).2

theorem new_addressed (hs : core.Steady boot config)
    (hA : ∀ p ∈ boot.allNodes, p ≠ config.id → A p) :
    (Leader.new core).2.Reaches A config ∧ (Leader.new core).1.Primed := by
  unfold Leader.new
  apply broadcastAppend_addressed _ hs hA
  refine ⟨?_, rfl⟩
  have hfold (nodes : List NodeId) (m : OrdMap NodeId ℕ)
      (hm : ∀ p i, m.get p = some i → 0 < i) (p : NodeId) (i : ℕ)
      (hi : (nodes.foldl (fun m id => m.insert id (core.log.lastIndex + 1)) m).get p = some i) :
      0 < i := by
    induction nodes generalizing m with
    | nil => exact hm p i hi
    | cons q nodes ih =>
      refine ih _ (fun p j hj => ?_) hi
      rw [OrdMap.get_insert] at hj
      split_ifs at hj
      · obtain rfl := Option.some.inj hj
        exact Nat.succ_pos _
      · exact hm p j hj
  exact hfold _ OrdMap.empty (fun p i hi => by simp at hi)

theorem processConfigs_done (l : Leader) (hs : core.Steady boot config) (idxs : List ℕ) :
    l.processConfigs core idxs = .done := by
  induction idxs with
  | nil => rfl
  | cons idx rest ih =>
    have hnone : (core.log.get idx).bind (fun e => e.payload.asConfig) = none := by
      cases hget : core.log.get idx with
      | none => rfl
      | some e =>
        have hmem : e ∈ core.log.entries := by
          unfold Log.get at hget
          split_ifs at hget
          obtain ⟨i, -, hi⟩ := Option.bind_eq_some_iff.mp hget
          exact List.mem_of_getElem? hi
        exact hs.commands e hmem
    simp only [processConfigs, hnone]
    exact ih

theorem advanceCommitIndex_steady (l : Leader) (hs : core.Steady boot config) :
    (l.advanceCommitIndex core).Steady boot config := by
  unfold advanceCommitIndex
  dsimp only
  split
  · exact hs.of_log rfl rfl rfl
  · exact hs

/-- Without configurations in the log, `maybe_commit` is one advance of the commit index. -/
theorem maybeCommit_steady (l : Leader) (hs : core.Steady boot config) :
    l.maybeCommit core = (l, l.advanceCommitIndex core, Effects.none, false) := by
  unfold maybeCommit
  simp only [maybeCommitLoop, processCommittedConfigs,
    processConfigs_done l (l.advanceCommitIndex_steady hs)]
  split_ifs <;> rfl

theorem commitStep_addressed (h : l.Primed) (hs : core.Steady boot config) :
    (l.commitStep core).Addressed A boot config ∧ (l.commitStep core).role.Primed := by
  simp only [commitStep, maybeCommit_steady l hs]
  exact ⟨.none, h⟩

theorem handleAppendResponse_addressed (h : l.Primed) (hs : core.Steady boot config)
    {sender : NodeId} (hsender : A sender) (resp : AppendResponse) :
    (l.handleAppendResponse core sender resp).Addressed A boot config ∧
      (l.handleAppendResponse core sender resp).role.Primed := by
  unfold handleAppendResponse
  dsimp only
  split_ifs with hmember hsuccess hpipe hpipe
  · exact ⟨.none, h⟩
  · exact commitStep_addressed (h.of_next rfl rfl) hs
  · exact commitStep_addressed ((h.of_next rfl rfl : Primed
      { l with matchIndex := l.matchIndex.insert sender resp.lastLogIndex }).insert sender
        (Nat.succ_pos _)) hs
  · have hsend := sendAppendTo_addressed (h.insert sender
      (show 0 < max (max (resp.lastLogIndex + 1) 1) (l.matchOf sender + 1) by omega)) hs hsender
    exact ⟨.stay hsend.1, hsend.2⟩
  · have hsend := sendAppendTo_addressed (h.insert sender (show 0 < max (resp.lastLogIndex + 1) 1
      by omega)) hs hsender
    exact ⟨.stay hsend.1, hsend.2⟩

theorem handleMessage_addressed (h : l.Primed) (hs : core.Steady boot config) {msg : Message}
    (hsender : A msg.sender) :
    (l.handleMessage core msg).Addressed A boot config ∧
      (l.handleMessage core msg).role.Primed := by
  unfold handleMessage
  split
  · exact ⟨.stay (Effects.Reaches.none.withMessage hsender trivial), h⟩
  · split
    · exact ⟨⟨Effects.Reaches.none.withPersist, Or.inr (hs.maybeUpdateTerm _)⟩, h⟩
    split
    · exact ⟨.stay (Core.staleReply_reaches hsender), h⟩
    · split
      · exact handleAppendResponse_addressed h hs hsender _
      · unfold handleInstallSnapshotResponse
        split_ifs
        · exact ⟨.none, h⟩
        · exact ⟨.none, h⟩
        · exact commitStep_addressed ((h.insert _ (Nat.succ_pos _)).of_next rfl rfl) hs
      · refine ⟨.none, ?_⟩
        simp only [handleReadIndexResponse, h.reads]
        exact h
      · exact ⟨.stay (Effects.Reaches.none.withMessage hsender trivial), h⟩
      · exact ⟨.none, h⟩

theorem step_addressed (h : l.Primed) (hs : core.Steady boot config)
    (hA : ∀ p ∈ boot.allNodes, p ≠ config.id → A p) (event : Event)
    (hsender : ∀ msg, event = .message msg → A msg.sender) :
    (l.step core event).Addressed A boot config ∧ (l.step core event).role.Primed := by
  cases event with
  | tick =>
    simp only [step, handleTick]
    split_ifs
    · have hs' : Core.Steady boot config { core with ticks := core.ticks + 1 } :=
        hs.of_log rfl rfl rfl
      have h' : Leader.Primed { l with
          heartbeatDeadline := core.ticks + 1 + core.config.heartbeatInterval } :=
        h.of_next rfl rfl
      have hbroadcast := broadcastAppend_addressed (A := A) h' hs' hA
      refine ⟨.stay ?_, hbroadcast.2⟩
      rw [hbroadcast.2.reads]
      exact hbroadcast.1
    · exact ⟨.none, h⟩
  | diskWriteComplete index =>
    simp only [step, handleDiskWriteComplete]
    split_ifs
    · exact commitStep_addressed (h.of_next rfl rfl) hs
    · exact ⟨.none, h⟩
  | message msg => exact handleMessage_addressed h hs (hsender msg rfl)

theorem propose_addressed (h : l.Primed) (hs : core.Steady boot config)
    (hA : ∀ p ∈ boot.allNodes, p ≠ config.id → A p) (cmd : Command) :
    (l.propose core cmd).2.2.2.1.Reaches A config ∧ (l.propose core cmd).2.1.Primed := by
  have hs' := hs.appendOwn cmd
  have hprimed : (l.recordOwn (appendOwn core (.command cmd)) (core.log.lastIndex + 1)).Primed := by
    unfold recordOwn
    split_ifs
    · exact h
    · exact h.of_next rfl rfl
  simp only [propose, commitAndReplicate, maybeCommit_steady _ hs']
  generalize l.recordOwn (appendOwn core (.command cmd)) (core.log.lastIndex + 1) = l' at *
  have hbroadcast := broadcastAppend_addressed (A := A) hprimed
    (l'.advanceCommitIndex_steady hs') hA
  exact ⟨hbroadcast.1.withPersist.merge .none, hbroadcast.2⟩

end Leader

namespace RaftNode

/-- A leading node whose progress table and reads are in order. -/
def Primed (n : RaftNode) : Prop := ∀ l, n.role = .leader l → l.Primed

theorem Primed.of_not_leader {n : RaftNode} (h : n.isLeader = false) : n.Primed := by
  intro l hl
  rw [isLeader, hl] at h
  cases h

variable (hA : ∀ p ∈ boot.allNodes, p ≠ config.id → A p)
include hA

theorem becomeLeader_addressed (hs : core.Steady boot config) :
    (becomeLeader core).2.Reaches A config ∧ (becomeLeader core).1.Primed := by
  have hnew := Leader.new_addressed hs hA
  refine ⟨hnew.1, fun l hl => ?_⟩
  obtain rfl := RoleState.leader.inj hl
  exact hnew.2

theorem becomeCandidate_addressed (hs : core.Steady boot config) :
    (becomeCandidate core).2.Reaches A config ∧ (becomeCandidate core).1.Primed := by
  have hnew := Candidate.new_addressed hs hA
  unfold becomeCandidate
  dsimp only
  split_ifs
  · have hleader := becomeLeader_addressed hA hnew.2
    exact ⟨hnew.1.merge hleader.1, hleader.2⟩
  · exact ⟨hnew.1, .of_not_leader rfl⟩

theorem becomePreCandidate_addressed (hs : core.Steady boot config) :
    (becomePreCandidate core).2.Reaches A config ∧ (becomePreCandidate core).1.Primed := by
  have hnew := PreCandidate.new_addressed hs hA
  unfold becomePreCandidate
  dsimp only
  split_ifs
  · have hcandidate := becomeCandidate_addressed hA hnew.2
    exact ⟨hnew.1.merge hcandidate.1, hcandidate.2⟩
  · exact ⟨hnew.1, .of_not_leader rfl⟩

theorem applyTransition_addressed (n : RaftNode) (hprimed : n.Primed) (t : Transition)
    (hs : t = .stay ∨ n.core.Steady boot config) :
    (n.applyTransition t).2.Reaches A config ∧ (n.applyTransition t).1.Primed := by
  rcases hs with rfl | hs
  · exact ⟨.none, hprimed⟩
  · cases t with
    | stay => exact ⟨.none, hprimed⟩
    | toFollower leader => exact ⟨.none, .of_not_leader rfl⟩
    | toFollowerAfterContact leader => exact ⟨.none, .of_not_leader rfl⟩
    | toPreCandidate => exact becomePreCandidate_addressed hA hs
    | toCandidate => exact becomeCandidate_addressed hA hs
    | toLeader => exact becomeLeader_addressed hA hs

theorem settle_addressed {ρ : Type} {s : Stepped ρ} (h : s.Addressed A boot config)
    (role : RoleState) (hprimed : (⟨s.core, role⟩ : RaftNode).Primed) :
    (settle ⟨s.core, role⟩ s.result).2.Reaches A config ∧
      (settle ⟨s.core, role⟩ s.result).1.Primed := by
  have htransition := applyTransition_addressed hA ⟨s.core, role⟩ hprimed s.result.transition h.core
  unfold settle
  split
  · exact ⟨h.effects, hprimed⟩
  · exact ⟨h.effects.merge htransition.1, htransition.2⟩

/-- A node of fixed membership that is told something by a node of `A` only sends to `A`, which
holds its peers, and asks for no snapshot. -/
theorem stepEvent_addressed {n : RaftNode} (hprimed : n.Primed) (hs : n.core.Steady boot config)
    (event : Event) (hsender : ∀ msg, event = .message msg → A msg.sender) :
    (n.stepEvent event).2.Reaches A config ∧ (n.stepEvent event).1.Primed := by
  unfold stepEvent
  cases hrole : n.role with
  | follower f =>
    exact settle_addressed hA (f.step_addressed hs event hsender) _ (.of_not_leader rfl)
  | preCandidate p =>
    exact settle_addressed hA (p.step_addressed hs event hsender) _ (.of_not_leader rfl)
  | candidate c =>
    exact settle_addressed hA (c.step_addressed hs event hsender) _ (.of_not_leader rfl)
  | leader l =>
    have hstep := Leader.step_addressed (hprimed l hrole) hs hA event hsender
    refine settle_addressed hA hstep.1 _ (fun l' hl' => ?_)
    obtain rfl := RoleState.leader.inj hl'
    exact hstep.2

theorem propose_addressed {n n' : RaftNode} (hprimed : n.Primed) (hs : n.core.Steady boot config)
    {cmd : Command} {index : ℕ} {eff : Effects} (h : n.propose cmd = .ok (index, eff, n')) :
    eff.Reaches A config ∧ n'.Primed := by
  unfold propose at h
  cases hrole : n.role with
  | follower f | preCandidate p | candidate c =>
    rw [hrole] at h
    cases h
  | leader l =>
    rw [hrole] at h
    dsimp only at h
    split_ifs at h
    cases h
    have hpropose := Leader.propose_addressed (hprimed l hrole) hs hA cmd
    refine ⟨hpropose.1, ?_⟩
    unfold afterProposal
    split_ifs
    · exact .of_not_leader rfl
    · intro l' hl'
      obtain rfl := RoleState.leader.inj hl'
      exact hpropose.2

end RaftNode
end BasisDB.Raft
