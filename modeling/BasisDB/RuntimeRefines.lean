import BasisDB.RaftEvolvesNode
import BasisDB.RaftFixedRuns
import BasisDB.RuntimeAcks
import BasisDB.Simulations

/-! A cluster of runtimes is a cluster of nodes: what a runtime does in one task is one step of
its node, followed by an advance to the last command that it applied. A task whose record never
reached the disk leaves no trace but the failed runtime. -/
namespace BasisDB.Runtime
open BasisDB.Raft BasisDB.Kv

/-- The record is not found when the store is opened again. -/
def Write.lost : Write → Bool
  | .failedLost _ => true
  | _ => false

/-- The error that a save with this outcome returns. -/
def Write.error : Write → Option RuntimeError
  | .synced => none
  | .failedWritten text => some (.store text)
  | .failedLost text => some (.store text)

/-- What a task that ran the node's step `next` leaves of the node, the store and the network. -/
structure Outcome.Of (r : RaftRuntime) (task : Task) (next : RaftNode × Effects) (out : Outcome) :
    Prop where
  config : out.runtime.config = r.config
  node : out.runtime.node = next.1.advance out.runtime.node.core.lastApplied
  store : out.runtime.store =
    if next.2.persist = true ∧ task.write.lost = false then next.1.persistent else r.store
  messages : out.messages ⊆ next.2.messages
  lost : next.2.persist = true → task.write.lost = true →
    out.runtime.failed = true ∧ out.messages = [] ∧ out.completions = [] ∧
      out.runtime.node = next.1

namespace RaftRuntime
variable {r r' : RaftRuntime} {task : Task} {next : RaftNode × Effects} {out : Outcome}

/-- The runtime's node may be trusted: no write was lost since it was opened. -/
def Settled (r : RaftRuntime) : Prop := r.failed = false ∨ r.node.persistent = r.store

instance (r : RaftRuntime) : Decidable r.Settled := inferInstanceAs (Decidable (_ ∨ _))

/-- The task does not run on top of a lost write. -/
def Admits (r : RaftRuntime) (task : Task) : Prop := r.ensureHealthy task = true → r.Settled

instance (r : RaftRuntime) (task : Task) : Decidable (r.Admits task) :=
  inferInstanceAs (Decidable (_ → _))

/-- The task runs, and what its step has to save is in the store afterwards. -/
def lands (r : RaftRuntime) (task : Task) (next : RaftNode × Effects) : Bool :=
  r.ensureHealthy task &&
    !(next.2.persist && task.write.lost && decide (next.1.persistent ≠ r.store))

theorem not_lands (hhealthy : r.ensureHealthy task = true) (h : r.lands task next = false) :
    next.2.persist = true ∧ task.write.lost = true ∧ next.1.persistent ≠ r.store := by
  simp only [lands, hhealthy, Bool.true_and, Bool.not_eq_false', Bool.and_eq_true,
    decide_eq_true_eq] at h
  exact ⟨h.1.1, h.1.2, h.2⟩

theorem applyCommitted_keeps (codec : Codec) (turns : ℕ) (r : RaftRuntime) :
    (applyCommitted codec turns r).1.config = r.config ∧
    (applyCommitted codec turns r).1.store = r.store ∧
    (applyCommitted codec turns r).1.failed = r.failed ∧
    (applyCommitted codec turns r).1.node =
      r.node.advance (applyCommitted codec turns r).1.node.core.lastApplied := by
  induction turns generalizing r with
  | zero => exact ⟨rfl, rfl, rfl, rfl⟩
  | succ turns ih =>
    unfold applyCommitted
    cases r.node.committed with
    | nil => exact ⟨rfl, rfl, rfl, rfl⟩
    | cons entry rest =>
      have hstep : (r.applyEntry codec entry).1.config = r.config ∧
          (r.applyEntry codec entry).1.store = r.store ∧
          (r.applyEntry codec entry).1.failed = r.failed ∧
          (r.applyEntry codec entry).1.node = r.node.advance entry.index := by
        obtain ⟨state, result, heq⟩ := applyEntry_eq codec r entry
        rw [heq, completeWaiter]
        dsimp only
        cases r.waiters.get entry.index <;> exact ⟨rfl, rfl, rfl, rfl⟩
      obtain ⟨hconfig, hstore, hfailed, hnode⟩ := ih (r.applyEntry codec entry).1
      refine ⟨hconfig.trans hstep.1, hstore.trans hstep.2.1, hfailed.trans hstep.2.2.1, ?_⟩
      rw [hstep.2.2.2] at hnode
      exact hnode

/-- The first part of a step: it decides about the store, and nothing after it touches the store. -/
theorem saveIf_eq (r : RaftRuntime) (persist : Bool) (write : Write) :
    (if persist then r.save write else (r, none)) =
      ({ r with
          store := if persist = true ∧ write.lost = false then r.node.persistent else r.store },
        if persist then write.error else none) := by
  cases persist with
  | false => rfl
  | true => cases write <;> rfl

/-- Save, send and apply: what becomes of the node, the store and the messages. -/
theorem handleEffects_keeps (codec : Codec) (r : RaftRuntime) (effects : Effects) (task : Task) :
    (r.handleEffects codec effects task).runtime.config = r.config ∧
    (r.handleEffects codec effects task).runtime.node =
      r.node.advance (r.handleEffects codec effects task).runtime.node.core.lastApplied ∧
    (r.handleEffects codec effects task).runtime.store =
      (if effects.persist = true ∧ task.write.lost = false then r.node.persistent else r.store) ∧
    (r.handleEffects codec effects task).messages ⊆ effects.messages ∧
    (effects.persist = true → task.write.lost = true →
      (r.handleEffects codec effects task).error.isSome = true ∧
      (r.handleEffects codec effects task).messages = [] ∧
      (r.handleEffects codec effects task).completions = [] ∧
      (r.handleEffects codec effects task).runtime.node = r.node) := by
  have hlost (hp : effects.persist = true) (hl : task.write.lost = true) :
      (if effects.persist then task.write.error else none).isSome = true := by
    cases hwrite : task.write with
    | synced | failedWritten => simp [hwrite, Write.lost] at hl
    | failedLost text => simp [hp, Write.error]
  unfold handleEffects
  rw [saveIf_eq]
  generalize (if effects.persist = true ∧ task.write.lost = false then r.node.persistent
    else r.store) = store
  generalize (if effects.persist then task.write.error else none) = error at hlost
  cases error with
  | some error => exact ⟨rfl, rfl, rfl, List.nil_subset _, fun _ _ => ⟨rfl, rfl, rfl, rfl⟩⟩
  | none =>
    have hwritten (hp : effects.persist = true) (hl : task.write.lost = true) : False :=
      Bool.noConfusion (hlost hp hl)
    dsimp only
    split_ifs
    · exact ⟨rfl, rfl, rfl, List.nil_subset _, fun hp hl => (hwritten hp hl).elim⟩
    · have hsub := sendMessages_subset { r with store := store } effects.messages
      generalize sendMessages { r with store := store } effects.messages = sending at hsub
      obtain ⟨sent, sendError⟩ := sending
      cases sendError with
      | some error => exact ⟨rfl, rfl, rfl, hsub, fun hp hl => (hwritten hp hl).elim⟩
      | none =>
        obtain ⟨hconfig, hkept, -, hnode⟩ := applyCommitted_keeps codec
          (task.dropped.getD (turns { r with store := store })) { r with store := store }
        exact ⟨hconfig, hnode, hkept, hsub, fun hp hl => (hwritten hp hl).elim⟩

theorem removePending_keeps (r : RaftRuntime) (index id : ℕ) :
    ∃ waiters, r.removePending index id = { r with waiters := waiters } := by
  unfold removePending
  split_ifs
  · exact ⟨_, rfl⟩
  · exact ⟨_, rfl⟩

theorem drive_of (codec : Codec) (h : r.ensureHealthy task = true) (next : RaftNode × Effects) :
    (r.drive codec task next).Of r task next := by
  obtain ⟨hconfig, hnode, hstore, hmessages, hlost⟩ :=
    handleEffects_keeps codec { r with node := next.1 } next.2 task
  rw [drive, if_pos h, fail]
  generalize handleEffects codec { r with node := next.1 } next.2 task = out at *
  split_ifs with herror
  · exact ⟨hconfig, hnode, hstore, hmessages, fun hp hl => ⟨rfl, (hlost hp hl).2⟩⟩
  · exact ⟨hconfig, hnode, hstore, hmessages, fun hp hl => absurd (hlost hp hl).1 herror⟩

theorem drive_refused (codec : Codec) (h : r.ensureHealthy task = false)
    (next : RaftNode × Effects) :
    r.drive codec task next = { runtime := r, error := some .failed } := by
  rw [drive, h]
  rfl

theorem awaitProposal_of (codec : Codec) (r : RaftRuntime) (id : ℕ) (bytes : List UInt8)
    (sender : ℕ) (task : Task) (index : ℕ) (effects : Effects) (node : RaftNode) :
    (r.awaitProposal codec id bytes sender task (index, effects, node)).1.Of r task
      (node, effects) := by
  obtain ⟨hconfig, hnode, hstore, hmessages, hlost⟩ := handleEffects_keeps codec
    { r with node := node, waiters := r.waiters.insert index ⟨id, bytes, sender⟩ } effects task
  unfold awaitProposal
  dsimp only
  generalize handleEffects codec
    { r with node := node, waiters := r.waiters.insert index ⟨id, bytes, sender⟩ } effects task =
    out at *
  obtain ⟨waiters, hremove⟩ := removePending_keeps out.runtime index id
  rw [hremove]
  cases herror : out.error with
  | some error =>
    rw [herror] at hlost
    exact ⟨hconfig, hnode, hstore, hmessages, fun hp hl => ⟨by simp [fail], (hlost hp hl).2⟩⟩
  | none =>
    have hwritten (hp : effects.persist = true) (hl : task.write.lost = true) : False := by
      have := (hlost hp hl).1
      rw [herror] at this
      exact Bool.noConfusion this
    dsimp only
    split_ifs
    · exact ⟨hconfig, hnode, hstore, hmessages, fun hp hl => (hwritten hp hl).elim⟩
    · exact ⟨hconfig, hnode, hstore, hmessages, fun hp hl => (hwritten hp hl).elim⟩

theorem awaitProposal_appended (codec : Codec) (r : RaftRuntime) (id : ℕ) (bytes : List UInt8)
    (sender : ℕ) (task : Task) (accepted : ℕ × Effects × RaftNode) :
    (r.awaitProposal codec id bytes sender task accepted).1.appended =
      some ⟨r.config.nodeId, accepted.1, r.node.term, bytes⟩ := by
  unfold awaitProposal
  dsimp only
  generalize handleEffects codec _ accepted.2.1 task = out
  cases out.error with
  | some error =>
    dsimp only [fail]
    split_ifs <;> rfl
  | none =>
    dsimp only
    split_ifs <;> rfl

/-- A call of `propose` is refused and changes at most the id of the next one, or its command
is appended. -/
theorem propose_cases (codec : Codec) (r : RaftRuntime) (command : KvCommand) (sender : ℕ)
    (task : Task) :
    (∃ id, (r.propose codec command sender task).1 =
        { runtime := { r with nextProposalId := id } }) ∨
    (r.ensureHealthy task = true ∧ ∃ id bytes index effects node,
      codec.encode command = some bytes ∧
      r.node.propose ⟨bytes⟩ = .ok (index, effects, node) ∧
      (r.propose codec command sender task).1 =
        ({ r with nextProposalId := id }.awaitProposal codec r.nextProposalId bytes sender task
          (index, effects, node)).1) := by
  unfold propose
  split_ifs with hhealthy
  · cases checkedSucc r.nextProposalId with
    | none => exact Or.inl ⟨r.nextProposalId, rfl⟩
    | some id =>
      cases hbytes : codec.encode command with
      | none => exact Or.inl ⟨id, rfl⟩
      | some bytes =>
        dsimp only
        cases haccepted : r.node.propose ⟨bytes⟩ with
        | error error => exact Or.inl ⟨id, rfl⟩
        | ok accepted =>
          exact Or.inr ⟨hhealthy, id, bytes, accepted.1, accepted.2.1, accepted.2.2, rfl, haccepted,
            rfl⟩
  · exact Or.inl ⟨r.nextProposalId, rfl⟩

end RaftRuntime

/-- A record that is lost leaves a failed runtime, whose node is out of step with its store. -/
theorem Outcome.Of.of_not_lands {r : RaftRuntime} {task : Task} {next : RaftNode × Effects}
    {out : Outcome} (hout : out.Of r task next) (hhealthy : r.ensureHealthy task = true)
    (h : r.lands task next = false) : ¬out.runtime.Settled ∧ out.runtime.store = r.store ∧
      out.messages = [] ∧ out.completions = [] ∧ out.runtime.node = next.1 := by
  obtain ⟨hp, hl, hne⟩ := RaftRuntime.not_lands hhealthy h
  obtain ⟨hfailed, hmessages, hcompletions, hnode⟩ := hout.lost hp hl
  have hstore : out.runtime.store = r.store := by
    rw [hout.store, hl]
    exact if_neg (fun hc => Bool.noConfusion hc.2)
  refine ⟨?_, hstore, hmessages, hcompletions, hnode⟩
  rintro (hset | hset)
  · rw [hfailed] at hset
    cases hset
  · rw [hnode, hstore] at hset
    exact hne hset

/-- The node and the disk of a cluster that a runtime stands for. -/
structure RaftRuntime.Mirrors (r : RaftRuntime) (other : RaftNode) (saved : Persistent) : Prop where
  node : r.Settled → other = r.node
  disk : saved = r.store
  config : other.core.config = r.config.consensus

namespace RuntimeCluster
variable {s : RuntimeCluster} {c : Cluster} {codec : Codec}

/-- The runtimes stand for the nodes, their stores for the disks; what was sent is in the net. -/
structure Refines (s : RuntimeCluster) (c : Cluster) : Prop where
  mirrors : ∀ n, (s.runtimes n).Mirrors (c.nodes n) (c.disk n)
  net : s.net ⊆ c.net

/-- A task is one action of its node, and an advance to the last applied command. -/
def lowerTask (n : NodeId) (r : RaftRuntime) (task : Task) (next : RaftNode × Effects)
    (out : Outcome) (a : Action) : List Action :=
  if r.lands task next then [a, .advance n out.runtime.node.core.lastApplied] else []

/-- The actions of the cluster of nodes that an action of the runtimes stands for. -/
def lower (codec : Codec) (s : RuntimeCluster) (c : Cluster) : RuntimeAction → List Action
  | .tick n task =>
    let r := s.runtimes n
    lowerTask n r task r.node.tick (r.tickOnce codec task) (.tick n)
  | .deliver k task =>
    match s.net[k]? with
    | none => []
    | some message =>
      let r := s.runtimes message.receiver
      match r.validateMessage message with
      | .error _ => []
      | .ok () => lowerTask message.receiver r task (r.node.step message)
          (r.step codec message task) (.deliver (c.net.idxOf message))
  | .propose n command task =>
    let r := s.runtimes n
    let out := (r.propose codec command s.calls.length task).1
    match out.appended with
    | none => []
    | some call =>
      match r.node.propose ⟨call.command⟩ with
      | .error _ => []
      | .ok (_, effects, node) => lowerTask n r task (node, effects) out (.propose n ⟨call.command⟩)
  | .cleanup _ _ _ => []
  | .restart n => [.restart n]

/-- The action does not run a task on top of a lost write. -/
def Orderly (s : RuntimeCluster) : RuntimeAction → Prop
  | .tick n task => (s.runtimes n).Admits task
  | .deliver k task => ∀ message ∈ s.net[k]?, (s.runtimes message.receiver).Admits task
  | .propose n _ task => (s.runtimes n).Admits task
  | .cleanup _ _ _ => True
  | .restart _ => True

instance (s : RuntimeCluster) : DecidablePred s.Orderly := by
  intro a
  cases a <;> unfold Orderly <;> infer_instance

/-- One runtime and one node change, and they still mirror each other. -/
theorem Refines.update (h : s.Refines c) (n : NodeId) (r : RaftRuntime) (node : RaftNode)
    (disk : Persistent) (hr : r.Mirrors node disk) {s' : RuntimeCluster} {c' : Cluster}
    (hruntimes : s'.runtimes = Function.update s.runtimes n r)
    (hnodes : c'.nodes = Function.update c.nodes n node)
    (hdisk : c'.disk = Function.update c.disk n disk) (hnet : s'.net ⊆ c'.net) :
    s'.Refines c' := by
  refine ⟨fun m => ?_, hnet⟩
  rw [hruntimes, hnodes, hdisk]
  rcases eq_or_ne m n with rfl | hm
  · simp only [Function.update_self]
    exact hr
  · simp only [Function.update_of_ne hm]
    exact h.mirrors m

/-- A task of a runtime on the one side, its actions on the other. -/
theorem Refines.task (h : s.Refines c) {n : NodeId} {task : Task} {next : RaftNode × Effects}
    {out : Outcome} {a : Action} (hhealthy : (s.runtimes n).ensureHealthy task = true)
    (hsettled : (s.runtimes n).Settled) (hout : out.Of (s.runtimes n) task next)
    (hconfig : next.1.core.config = (s.runtimes n).node.core.config)
    (ha : c.step a = c.handleEffects n next) :
    (s.record n out).Refines
      ((lowerTask n (s.runtimes n) task next out a).foldl Cluster.step c) := by
  have hm := h.mirrors n
  have hnode : c.nodes n = (s.runtimes n).node := hm.node hsettled
  have hkept : next.1.core.config = out.runtime.config.consensus := by
    rw [hconfig, hout.config, ← hnode, hm.config]
  unfold lowerTask
  split_ifs with hlands
  · -- the record is on the disk, or there was nothing new in it
    have hstore : out.runtime.store =
        if next.2.persist then next.1.persistent else c.disk n := by
      rw [hout.store, hm.disk]
      simp only [RaftRuntime.lands, hhealthy, Bool.true_and, Bool.not_eq_true',
        Bool.and_eq_false_imp, Bool.and_eq_true, decide_eq_false_iff_not, not_not] at hlands
      cases hp : next.2.persist with
      | false => rfl
      | true =>
        cases hl : task.write.lost with
        | false => rfl
        | true => exact (hlands ⟨hp, hl⟩).symm
    have hdisk : (if next.2.persist then Function.update c.disk n next.1.persistent else c.disk) =
        Function.update c.disk n out.runtime.store := by
      rw [hstore]
      cases next.2.persist with
      | true => rfl
      | false => exact (Function.update_eq_self n c.disk).symm
    show (s.record n out).Refines ((c.step a).step (.advance n _))
    rw [ha]
    refine h.update n out.runtime out.runtime.node out.runtime.store
      ⟨fun _ => rfl, rfl, by rw [hout.node]; exact hkept⟩ rfl ?_ hdisk ?_
    · simp only [Cluster.step, Cluster.setNode, Cluster.handleEffects, Function.update_self,
        Function.update_idem]
      rw [← hout.node]
    · exact List.append_subset.mpr ⟨List.subset_append_of_subset_left _ h.net,
        List.subset_append_of_subset_right _ hout.messages⟩
  · obtain ⟨hunsettled, hstore, hnone, -⟩ :=
      hout.of_not_lands hhealthy (Bool.eq_false_iff.mpr hlands)
    refine h.update n out.runtime (c.nodes n) (c.disk n)
      ⟨fun hset => absurd hset hunsettled, by rw [hstore, hm.disk], by rw [hm.config, hout.config]⟩
      rfl (Function.update_eq_self n c.nodes).symm (Function.update_eq_self n c.disk).symm ?_
    show s.net ++ out.messages ⊆ c.net
    rw [hnone, List.append_nil]
    exact h.net

theorem lowerTask_node {n : NodeId} {r : RaftRuntime} {task : Task} {next : RaftNode × Effects}
    {out : Outcome} {a : Action} (hlands : r.lands task next = true) (hout : out.Of r task next)
    (ha : c.step a = c.handleEffects n next) :
    ((lowerTask n r task next out a).foldl Cluster.step c).nodes n = out.runtime.node := by
  rw [lowerTask, if_pos hlands]
  show ((c.step a).step (.advance n _)).nodes n = _
  rw [ha]
  simp only [Cluster.step, Cluster.setNode, Cluster.handleEffects, Function.update_self]
  exact hout.node.symm

theorem lowerTask_node_ne {m n : NodeId} {r : RaftRuntime} {task : Task}
    {next : RaftNode × Effects} {out : Outcome} {a : Action}
    (ha : c.step a = c.handleEffects m next) (hn : n ≠ m) :
    ((lowerTask m r task next out a).foldl Cluster.step c).nodes n = c.nodes n := by
  unfold lowerTask
  split_ifs
  · show ((c.step a).step (.advance m _)).nodes n = _
    rw [ha]
    simp only [Cluster.step, Cluster.setNode, Cluster.handleEffects, Function.update_of_ne hn]
  · rfl

/-- A call that changes nothing of the node, the store and the network. -/
theorem Refines.idle (h : s.Refines c) {n : NodeId} {out : Outcome}
    (hsettled : out.runtime.Settled ↔ (s.runtimes n).Settled)
    (hnode : out.runtime.node = (s.runtimes n).node)
    (hstore : out.runtime.store = (s.runtimes n).store)
    (hconfig : out.runtime.config = (s.runtimes n).config) (hmessages : out.messages = []) :
    (s.record n out).Refines c := by
  have hm := h.mirrors n
  refine h.update n out.runtime (c.nodes n) (c.disk n) ⟨?_, ?_, ?_⟩ rfl
    (Function.update_eq_self n c.nodes).symm (Function.update_eq_self n c.disk).symm ?_
  · rw [hsettled, hnode]
    exact hm.node
  · rw [hstore, hm.disk]
  · rw [hconfig, hm.config]
  · show s.net ++ out.messages ⊆ c.net
    rw [hmessages, List.append_nil]
    exact h.net

/-- A node keeps the configuration it was built with. -/
theorem stepEvent_config (node : RaftNode) (event : Event) :
    (node.stepEvent event).1.core.config = node.core.config := by
  have hevolves : Evolves False False node.core (node.stepEvent event).1.core
      (node.stepEvent event).2 :=
    RaftNode.stepEvent_evolves node event (fun _ _ _ _ => ⟨fun h => h.elim, fun h => h.elim⟩)
  exact hevolves.config

/-- The event that an action brings to a node: a tick, or a message that was sent to it. -/
def Brings (s : RuntimeCluster) (a : RuntimeAction) (n : NodeId) (task : Task)
    (event : Event) : Prop :=
  a = .tick n task ∧ event = .tick ∨ ∃ k message, a = .deliver k task ∧
    s.net[k]? = some message ∧ event = .message message ∧ message.receiver = n ∧
    (s.runtimes n).validateMessage message = .ok ()

/-- Only messages that a runtime takes are brought to its node. -/
theorem Brings.valid {a : RuntimeAction} {n : NodeId} {task : Task} {event : Event}
    (h : s.Brings a n task event) : event = .tick ∨ ∃ message ∈ s.net, event = .message message ∧
      message.receiver = n ∧ (s.runtimes n).validateMessage message = .ok () := by
  refine h.imp And.right ?_
  rintro ⟨k, message, -, hk, hrest⟩
  exact ⟨message, List.mem_of_getElem? hk, hrest⟩

/-- What an action can do to the runtimes, and the actions of the nodes that it stands for. Nothing
is assumed of the runtimes: that the node which acts is settled, and that the nodes do the same, is
said for orderly actions and for runtimes that mirror the nodes. -/
inductive RuntimeStep (codec : Codec) (s : RuntimeCluster) :
    RuntimeAction → RuntimeCluster → (Cluster → List Action) → Prop
  | nothing {a : RuntimeAction} : RuntimeStep codec s a s (fun _ => [])
  | refused {a : RuntimeAction} (n : NodeId) (id : ℕ) (error : Option RuntimeError) :
      RuntimeStep codec s a
        (s.record n { runtime := { s.runtimes n with nextProposalId := id }, error := error })
        (fun _ => [])
  | event {a : RuntimeAction} (n : NodeId) (task : Task) (event : Event) (act : Cluster → Action)
      (hhealthy : (s.runtimes n).ensureHealthy task = true)
      (hsettled : s.Orderly a → (s.runtimes n).Settled) (hevent : s.Brings a n task event)
      (hact : ∀ c, act c ≠ .restart n)
      (hstep : ∀ c, s.Refines c → (s.runtimes n).Settled →
        c.step (act c) = c.handleEffects n ((s.runtimes n).node.stepEvent event)) :
      RuntimeStep codec s a
        (s.record n ((s.runtimes n).drive codec task ((s.runtimes n).node.stepEvent event)))
        (fun c => lowerTask n (s.runtimes n) task ((s.runtimes n).node.stepEvent event)
          ((s.runtimes n).drive codec task ((s.runtimes n).node.stepEvent event)) (act c))
  | proposal (n : NodeId) (command : KvCommand) (task : Task) (id : ℕ) (bytes : List UInt8)
      (index : ℕ) (effects : Effects) (node : RaftNode)
      (hhealthy : (s.runtimes n).ensureHealthy task = true)
      (hsettled : s.Orderly (.propose n command task) → (s.runtimes n).Settled)
      (hencode : codec.encode command = some bytes)
      (haccepted : (s.runtimes n).node.propose ⟨bytes⟩ = .ok (index, effects, node))
      (hstep : ∀ c, s.Refines c → (s.runtimes n).Settled →
        c.step (.propose n ⟨bytes⟩) = c.handleEffects n (node, effects)) :
      RuntimeStep codec s (.propose n command task)
        (s.record n ({ s.runtimes n with nextProposalId := id }.awaitProposal codec
          (s.runtimes n).nextProposalId bytes s.calls.length task (index, effects, node)).1)
        (fun _ => lowerTask n (s.runtimes n) task (node, effects)
          ({ s.runtimes n with nextProposalId := id }.awaitProposal codec
            (s.runtimes n).nextProposalId bytes s.calls.length task (index, effects, node)).1
          (.propose n ⟨bytes⟩))
  | cleanup {a : RuntimeAction} (n : NodeId) (waiters : OrdMap ℕ PendingProposal)
      (hsub : ∀ i pending, waiters.get i = some pending →
        (s.runtimes n).waiters.get i = some pending) :
      RuntimeStep codec s a (s.setRuntime n { s.runtimes n with waiters := waiters })
        (fun _ => [])
  | restart (n : NodeId) :
      RuntimeStep codec s (.restart n)
        (s.setRuntime n (RaftRuntime.start (s.runtimes n).config (s.runtimes n).store))
        (fun _ => [.restart n])

/-- An event that the health check decides about. -/
theorem RuntimeStep.ofDrive {a : RuntimeAction} (n : NodeId) (task : Task) (event : Event)
    (act : Cluster → Action) (hadmits : s.Orderly a → (s.runtimes n).Admits task)
    (hevent : s.Brings a n task event) (hact : ∀ c, act c ≠ .restart n)
    (hstep : ∀ c, s.Refines c → c.nodes n = (s.runtimes n).node →
      c.step (act c) = c.handleEffects n ((s.runtimes n).node.stepEvent event)) :
    RuntimeStep codec s a
      (s.record n ((s.runtimes n).drive codec task ((s.runtimes n).node.stepEvent event)))
      (fun c => lowerTask n (s.runtimes n) task ((s.runtimes n).node.stepEvent event)
        ((s.runtimes n).drive codec task ((s.runtimes n).node.stepEvent event)) (act c)) := by
  cases hhealthy : (s.runtimes n).ensureHealthy task with
  | true =>
    exact .event n task event act hhealthy (fun ha => hadmits ha hhealthy) hevent hact
      (fun c h hsettled => hstep c h ((h.mirrors n).node hsettled))
  | false =>
    simp only [lowerTask, RaftRuntime.lands, RaftRuntime.drive_refused codec hhealthy, hhealthy]
    exact .refused n (s.runtimes n).nextProposalId (some .failed)

theorem step_cases (codec : Codec) (s : RuntimeCluster) (a : RuntimeAction) :
    RuntimeStep codec s a (s.step codec a) (fun c => lower codec s c a) := by
  cases a with
  | tick n task =>
    refine RuntimeStep.ofDrive n task .tick (fun _ => .tick n) id (Or.inl ⟨rfl, rfl⟩) (by simp) ?_
    intro c _ hnode
    rw [Cluster.step, hnode]
    rfl
  | deliver k task =>
    simp only [step, lower]
    cases hk : s.net[k]? with
    | none => exact .nothing
    | some message =>
      dsimp only [receiveRaft]
      cases hvalid : (s.runtimes message.receiver).validateMessage message with
      | error e => exact .nothing
      | ok _ =>
        refine RuntimeStep.ofDrive message.receiver task (.message message)
          (fun c => .deliver (c.net.idxOf message)) (fun ha => ha message hk)
          (Or.inr ⟨k, message, rfl, hk, rfl, rfl, hvalid⟩) (by simp) ?_
        intro c h hnode
        have hidx : c.net[c.net.idxOf message]? = some message :=
          List.getElem?_idxOf (h.net (List.mem_of_getElem? hk))
        simp only [Cluster.step, hidx, Cluster.deliverMessage, hnode]
        rfl
  | propose n command task =>
    simp only [step, lower]
    rcases (s.runtimes n).propose_cases codec command s.calls.length task with
      ⟨id, hout⟩ | ⟨hhealthy, id, bytes, index, effects, node, hencode, haccepted, hout⟩
    · rw [hout]
      exact .refused n id none
    · rw [hout]
      simp only [RaftRuntime.awaitProposal_appended, haccepted]
      refine .proposal n command task id bytes index effects node hhealthy (fun ha => ha hhealthy)
        hencode haccepted ?_
      intro c h hsettled
      simp only [Cluster.step, (h.mirrors n).node hsettled, haccepted, Cluster.handleCall]
  | cleanup n index id =>
    obtain ⟨waiters, hremove⟩ := RaftRuntime.removePending_keeps (s.runtimes n) index id
    have hnarrow := (RaftRuntime.narrows_removePending (s.runtimes n) index id).waiters
    simp only [step, lower]
    rw [hremove] at hnarrow ⊢
    exact .cleanup n waiters hnarrow
  | restart n => exact .restart n

theorem awaiting_of (codec : Codec) (s : RuntimeCluster) (n : NodeId) (task : Task) (id : ℕ)
    (bytes : List UInt8) (index : ℕ) (effects : Effects) (node : RaftNode) :
    ({ s.runtimes n with nextProposalId := id }.awaitProposal codec (s.runtimes n).nextProposalId
      bytes s.calls.length task (index, effects, node)).1.Of (s.runtimes n) task
      (node, effects) := by
  have hof := RaftRuntime.awaitProposal_of codec { s.runtimes n with nextProposalId := id }
    (s.runtimes n).nextProposalId bytes s.calls.length task index effects node
  exact ⟨hof.config, hof.node, hof.store, hof.messages, hof.lost⟩

section Steps
variable {a : RuntimeAction} {s' : RuntimeCluster} {low : Cluster → List Action}

/-- No action changes the configuration of a runtime. -/
theorem RuntimeStep.config (h : RuntimeStep codec s a s' low) (n : NodeId) :
    (s'.runtimes n).config = (s.runtimes n).config := by
  have hupdate {m : NodeId} {r : RaftRuntime} (hr : r.config = (s.runtimes m).config) :
      (Function.update s.runtimes m r n).config = (s.runtimes n).config := by
    rcases eq_or_ne n m with rfl | hn
    · rw [Function.update_self, hr]
    · rw [Function.update_of_ne hn]
  cases h with
  | nothing => rfl
  | refused m id error => exact hupdate rfl
  | event m task event act hhealthy hsettled hevent hact hstep =>
    exact hupdate (RaftRuntime.drive_of codec hhealthy _).config
  | proposal m command task id bytes index effects node hhealthy hsettled hencode haccepted hstep =>
    exact hupdate (awaiting_of codec s m task id bytes index effects node).config
  | cleanup m waiters hsub => exact hupdate rfl
  | restart m => exact hupdate rfl

/-- Calls are only ever added. -/
theorem RuntimeStep.calls (h : RuntimeStep codec s a s' low) : s.calls <+: s'.calls := by
  cases h with
  | nothing | cleanup | restart => exact List.prefix_rfl
  | refused | event | proposal => exact List.prefix_append _ _

/-- Messages are only ever added. -/
theorem RuntimeStep.net (h : RuntimeStep codec s a s' low) : s.net ⊆ s'.net := by
  cases h with
  | nothing | cleanup | restart => exact List.Subset.refl _
  | refused | event | proposal => exact List.subset_append_left _ _

theorem RuntimeStep.refines (hcases : RuntimeStep codec s a s' low) (h : s.Refines c)
    (ha : s.Orderly a) : s'.Refines ((low c).foldl Cluster.step c) := by
  cases hcases with
  | nothing => exact h
  | refused n id error => exact h.idle Iff.rfl rfl rfl rfl rfl
  | event n task event act hhealthy hsettled hevent hact hstep =>
    exact h.task hhealthy (hsettled ha) (RaftRuntime.drive_of codec hhealthy _)
      (stepEvent_config _ _) (hstep c h (hsettled ha))
  | proposal n command task id bytes index effects node hhealthy hsettled hencode haccepted hstep =>
    have hevolves : Evolves False False _ _ effects := RaftNode.propose_evolves haccepted
    exact h.task hhealthy (hsettled ha) (awaiting_of codec s n task id bytes index effects node)
      hevolves.config (hstep c h (hsettled ha))
  | cleanup n waiters hsub =>
    have hm := h.mirrors n
    exact h.update n { s.runtimes n with waiters := waiters } (c.nodes n) (c.disk n)
      ⟨hm.node, hm.disk, hm.config⟩ rfl (Function.update_eq_self n c.nodes).symm
      (Function.update_eq_self n c.disk).symm h.net
  | restart n =>
    have hm := h.mirrors n
    refine h.update n (RaftRuntime.start (s.runtimes n).config (s.runtimes n).store)
      (RaftNode.restore (c.nodes n).core.config (c.disk n)) (c.disk n)
      ⟨?_, hm.disk, hm.config⟩ rfl rfl (Function.update_eq_self n c.disk).symm h.net
    intro _
    rw [hm.config, hm.disk]
    rfl

end Steps

/-- The runtimes after the first `k` actions of a run. -/
def moment (codec : Codec) (s : RuntimeCluster) (acts : List RuntimeAction) (k : ℕ) :
    RuntimeCluster := s.run codec (acts.take k)

/-- No task of the run runs on top of a lost write. -/
def OrderlyRun (codec : Codec) (s : RuntimeCluster) (acts : List RuntimeAction) : Prop :=
  ∀ k < acts.length, ∀ a ∈ acts[k]?, (s.moment codec acts k).Orderly a

instance (codec : Codec) (s : RuntimeCluster) (acts : List RuntimeAction) :
    Decidable (s.OrderlyRun codec acts) :=
  inferInstanceAs (Decidable (∀ k < acts.length, ∀ a ∈ acts[k]?, _))

/-- The cluster of nodes that runtimes with these configurations start as. -/
def start (configs : NodeId → NodeConfig) (peers : OrdSet NodeId) : Cluster :=
  Cluster.init (fun n => (configs n).consensus) peers.toList

/-- The actions of the nodes in a run of the runtimes. -/
def lowered (codec : Codec) (configs : NodeId → NodeConfig) (peers : OrdSet NodeId)
    (acts : List RuntimeAction) : List Action :=
  Simulations.lowered (step codec) Cluster.step (lower codec) (init configs) (start configs peers)
    acts

variable {configs : NodeId → NodeConfig} {peers : OrdSet NodeId} {acts : List RuntimeAction}

theorem init_refines (hpeers : ∀ n, (configs n).peers = peers) :
    (init configs).Refines (start configs peers) := by
  refine ⟨fun n => ?_, List.nil_subset _⟩
  obtain rfl := hpeers n
  exact ⟨fun _ => rfl, rfl, rfl⟩

theorem OrderlyRun.at (h : (init configs).OrderlyRun codec acts) {k : ℕ} {a : RuntimeAction}
    (ha : acts[k]? = some a) : ((init configs).moment codec acts k).Orderly a :=
  h k (List.getElem?_eq_some_iff.mp ha).1 a ha

theorem OrderlyRun.take (h : (init configs).OrderlyRun codec acts) (j : ℕ) :
    (init configs).OrderlyRun codec (acts.take j) := by
  intro k hk a ha
  rw [List.length_take] at hk
  rw [List.getElem?_take_of_lt (by omega)] at ha
  rw [moment, List.take_take, min_eq_left (by omega)]
  exact h.at ha

/-- Every run of the runtimes is a run of the nodes. -/
theorem run_refines (hpeers : ∀ n, (configs n).peers = peers)
    (horderly : (init configs).OrderlyRun codec acts) :
    ((init configs).run codec acts).Refines
      ((start configs peers).run (lowered codec configs peers acts)) :=
  Simulations.related_run (fun s _ a h ha => (step_cases codec s a).refines h ha)
    (init_refines hpeers)
    (fun _ _ ha => horderly.at ha)

theorem lower_fixed (s : RuntimeCluster) (c : Cluster) (a : RuntimeAction) :
    FixedMembership (lower codec s c a) := by
  have htask (n : NodeId) (r : RaftRuntime) (task : Task) (next : RaftNode × Effects)
      (out : Outcome) {a : Action} (ha : a.reconfigures = false) :
      FixedMembership (lowerTask n r task next out a) := by
    intro b hb
    unfold lowerTask at hb
    split_ifs at hb
    · rcases List.mem_pair.mp hb with rfl | rfl
      · exact ha
      · rfl
    · cases hb
  have hnone : FixedMembership [] := fun b hb => absurd hb List.not_mem_nil
  cases a with
  | tick n task => exact htask _ _ _ _ _ rfl
  | deliver k task =>
    simp only [lower]
    cases s.net[k]? with
    | none => exact hnone
    | some message =>
      dsimp only
      cases (s.runtimes message.receiver).validateMessage message with
      | error e => exact hnone
      | ok _ => exact htask _ _ _ _ _ rfl
  | propose n command task =>
    simp only [lower]
    cases ((s.runtimes n).propose codec command s.calls.length task).1.appended with
    | none => exact hnone
    | some call =>
      dsimp only
      cases (s.runtimes n).node.propose ⟨call.command⟩ with
      | error e => exact hnone
      | ok accepted => exact htask _ _ _ _ _ rfl
  | cleanup n index id => exact hnone
  | restart n => exact fun b hb => List.mem_singleton.mp hb ▸ rfl

theorem lowered_fixed : FixedMembership (lowered codec configs peers acts) := by
  intro b hb
  obtain ⟨i, hi⟩ := List.mem_iff_getElem?.mp hb
  obtain ⟨k, a, j, -, -, hj⟩ := Simulations.lowered_getElem? hi
  exact lower_fixed _ _ a b (List.mem_of_getElem? hj)

/-- How many actions of the nodes the first `k` actions of the runtimes stand for. -/
def loweredLength (codec : Codec) (configs : NodeId → NodeConfig) (peers : OrdSet NodeId)
    (acts : List RuntimeAction) (k : ℕ) : ℕ := (lowered codec configs peers (acts.take k)).length

theorem lowered_isPrefix {acts : List RuntimeAction} (k : ℕ) :
    lowered codec configs peers (acts.take k) <+: lowered codec configs peers acts :=
  Simulations.lowered_take_isPrefix k

theorem loweredLength_mono : Monotone (loweredLength codec configs peers acts) := by
  intro j k hjk
  have hpre : lowered codec configs peers ((acts.take k).take j) <+: _ := lowered_isPrefix j
  rw [List.take_take, min_eq_left hjk] at hpre
  exact hpre.length_le

theorem lowered_take (k : ℕ) :
    (lowered codec configs peers acts).take (loweredLength codec configs peers acts k) =
      lowered codec configs peers (acts.take k) :=
  (List.prefix_iff_eq_take.mp (lowered_isPrefix k)).symm

/-- The nodes at the moment that the runtimes' moment `k` stands for. -/
def lowMoment (codec : Codec) (configs : NodeId → NodeConfig) (peers : OrdSet NodeId)
    (acts : List RuntimeAction) (k : ℕ) : Cluster :=
  (start configs peers).moment (lowered codec configs peers acts)
    (loweredLength codec configs peers acts k)

theorem lowMoment_eq (k : ℕ) : lowMoment codec configs peers acts k =
    (start configs peers).run (lowered codec configs peers (acts.take k)) := by
  rw [lowMoment, Cluster.moment, lowered_take]

/-- Every moment of the runtimes is a moment of the nodes. -/
theorem moment_refines (hpeers : ∀ n, (configs n).peers = peers)
    (horderly : (init configs).OrderlyRun codec acts) (k : ℕ) :
    ((init configs).moment codec acts k).Refines (lowMoment codec configs peers acts k) := by
  rw [lowMoment_eq]
  exact run_refines hpeers (horderly.take k)

/-- Every run of runtimes that share a peer list, over any network, with failing disks and
restarts, is a run of Raft nodes of fixed membership, moment after moment: at each one every
settled runtime holds the node's state, every store what the node has on disk, and what was sent
is in flight. -/
theorem runtimes_run_as_nodes (codec : Codec) (configs : NodeId → NodeConfig)
    (peers : OrdSet NodeId) (acts : List RuntimeAction) (hpeers : ∀ n, (configs n).peers = peers)
    (horderly : (init configs).OrderlyRun codec acts) :
    ∃ nodeActs, FixedMembership nodeActs ∧ ∃ low : ℕ → ℕ, Monotone low ∧ ∀ k,
      (∀ n, ((((init configs).moment codec acts k).runtimes n).Settled →
          (((start configs peers).moment nodeActs (low k)).nodes n) =
            (((init configs).moment codec acts k).runtimes n).node) ∧
        ((start configs peers).moment nodeActs (low k)).disk n =
          (((init configs).moment codec acts k).runtimes n).store) ∧
      ((init configs).moment codec acts k).net ⊆
        ((start configs peers).moment nodeActs (low k)).net := by
  refine ⟨lowered codec configs peers acts, lowered_fixed, loweredLength codec configs peers acts,
    loweredLength_mono, fun k => ?_⟩
  have href := moment_refines hpeers horderly k
  exact ⟨fun n => ⟨(href.mirrors n).node, (href.mirrors n).disk⟩, href.net⟩

/-- Two nodes with short timeouts. -/
def quickNodes (n : NodeId) : NodeConfig := ⟨n, OrdSet.ofList [0, 1], Cluster.quickConfig n⟩

/-- The first node is elected, a client registers there, and both nodes commit and apply it. -/
def quickPair : List RuntimeAction :=
  [.tick 0 {}] ++ deliveries [0, 1] ++ [.propose 0 .registerSession {}] ++ deliveries [3, 4] ++
    [.tick 0 {}] ++ deliveries [5]

/-- As `quickPair`, but the write of the registration is lost, and the node is opened again. -/
def lostPair : List RuntimeAction :=
  [.tick 0 {}] ++ deliveries [0, 1] ++
    [.propose 0 .registerSession { write := .failedLost "disk full" }, .restart 0, .tick 0 {}]

theorem runtimes_run_as_nodes_lostPair :
    ∃ nodeActs, FixedMembership nodeActs ∧ ∃ i,
      ((start quickNodes (OrdSet.ofList [0, 1])).moment nodeActs i).nodes 0 =
        (((init quickNodes).moment unitCodec lostPair 6).runtimes 0).node := by
  obtain ⟨nodeActs, hfixed, low, -, hmoments⟩ := runtimes_run_as_nodes unitCodec quickNodes
    (OrdSet.ofList [0, 1]) lostPair (fun _ => rfl) (by decide +kernel)
  exact ⟨nodeActs, hfixed, low 6, ((hmoments 6).1 0).1 (by decide +kernel)⟩

/-- No two settled runtimes ever lead one term, at whatever moments. -/
theorem one_leading_runtime_per_term (codec : Codec) (configs : NodeId → NodeConfig)
    (peers : OrdSet NodeId) (acts : List RuntimeAction) (hpeers : ∀ n, (configs n).peers = peers)
    (horderly : (init configs).OrderlyRun codec acts) (j k : ℕ) (n p : NodeId)
    (hn : (((init configs).moment codec acts j).runtimes n).Settled)
    (hp : (((init configs).moment codec acts k).runtimes p).Settled)
    (hleads : (((init configs).moment codec acts j).runtimes n).node.isLeader = true)
    (hleads' : (((init configs).moment codec acts k).runtimes p).node.isLeader = true)
    (hterm : (((init configs).moment codec acts j).runtimes n).node.term =
      (((init configs).moment codec acts k).runtimes p).node.term) : n = p := by
  have hnode := ((moment_refines hpeers horderly j).mirrors n).node hn
  have hnode' := ((moment_refines hpeers horderly k).mirrors p).node hp
  rw [← hnode] at hleads hterm
  rw [← hnode'] at hleads' hterm
  -- an earlier and a later moment of one run of the nodes
  have hordered {i i' : ℕ} (hi : i ≤ i') {a b : NodeId}
      (ha : (((start configs peers).moment (lowered codec configs peers acts) i).nodes a).isLeader =
        true)
      (hb : (((start configs peers).moment (lowered codec configs peers acts) i').nodes b).isLeader =
        true)
      (hab : (((start configs peers).moment (lowered codec configs peers acts) i).nodes a).term =
        (((start configs peers).moment (lowered codec configs peers acts) i').nodes b).term) :
      a = b := by
    obtain ⟨h, h', hle, hs, hs'⟩ := Cluster.fixed_moments (fun n => (configs n).consensus)
      peers.toList lowered_fixed hi
    have hleader := hle.leader _ _ (Cluster.leader_of_isLeader hs ha)
    have hleader' := Cluster.leader_of_isLeader hs' hb
    unfold start at hab
    rw [hab] at hleader
    exact Option.some.inj (hleader.symm.trans hleader')
  rcases le_total (loweredLength codec configs peers acts j)
    (loweredLength codec configs peers acts k) with hjk | hkj
  · exact hordered hjk hleads hleads' hterm
  · exact (hordered hkj hleads' hleads hterm.symm).symm

theorem one_leading_runtime_per_term_quickPair :
    (((init quickNodes).moment unitCodec quickPair 3).runtimes 0).node.isLeader = true ∧
      (((init quickNodes).moment unitCodec quickPair 8).runtimes 0).node.isLeader = true ∧
      (0 : NodeId) = 0 :=
  ⟨by decide +kernel, by decide +kernel,
    one_leading_runtime_per_term unitCodec quickNodes (OrdSet.ofList [0, 1]) quickPair
      (fun _ => rfl) (by decide +kernel) 3 8 0 0 (by decide +kernel) (by decide +kernel)
      (by decide +kernel) (by decide +kernel) (by decide +kernel)⟩

end RuntimeCluster
end BasisDB.Runtime
