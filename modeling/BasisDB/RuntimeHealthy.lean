import BasisDB.RaftAddressed
import BasisDB.RuntimeTruthful

/-! A runtime fails only by its own disk: its node never asks for a snapshot transfer, and never
sends to anyone but its peers. -/
namespace BasisDB.Runtime
open BasisDB.Raft BasisDB.Kv

def Write.fails : Write → Bool
  | .synced => false
  | _ => true

namespace RaftRuntime
variable {r : RaftRuntime} {task : Task} {eff : Effects} {config : Config}

/-- A node that the runtime has a connection to. -/
def Knows (r : RaftRuntime) (p : NodeId) : Prop := p ∈ r.config.peers ∧ p ≠ r.config.nodeId

theorem knows_sender {message : Message} (h : r.validateMessage message = .ok ()) :
    r.Knows message.sender := by
  unfold validateMessage at h
  split_ifs at h with hreceiver hself hpeer
  exact ⟨(OrdSet.contains_iff _ _).mp hpeer, hself⟩

theorem sendMessages_known {messages : List Message} (h : ∀ m ∈ messages, r.Knows m.receiver) :
    r.sendMessages messages = (messages, none) := by
  induction messages with
  | nil => rfl
  | cons message messages ih =>
    obtain ⟨hpeer, hself⟩ := h message List.mem_cons_self
    rw [sendMessages, if_pos ⟨(OrdSet.contains_iff _ _).mpr hpeer, hself⟩,
      ih (fun m hm => h m (List.mem_cons_of_mem _ hm))]

/-- With a working disk, effects for known nodes raise no error. -/
theorem handleEffects_healthy (codec : Codec) (heff : eff.Reaches r.Knows config)
    (hsync : task.write.fails = false) :
    (r.handleEffects codec eff task).error = none ∧
      (r.handleEffects codec eff task).runtime.failed = r.failed := by
  have hwrite : task.write = .synced := by
    cases hw : task.write with
    | synced => rfl
    | failedWritten text | failedLost text =>
      rw [hw] at hsync
      cases hsync
  obtain ⟨store, hsave⟩ : ∃ store, (if eff.persist then r.save task.write else (r, none)) =
      ({ r with store := store }, none) := by
    rw [hwrite]
    cases eff.persist with
    | true => exact ⟨_, rfl⟩
    | false => exact ⟨r.store, rfl⟩
  have hsent : ({ r with store := store } : RaftRuntime).sendMessages eff.messages =
      (eff.messages, none) := sendMessages_known heff.receivers
  unfold handleEffects
  rw [hsave]
  dsimp only
  rw [if_neg (not_not.mpr heff.snapshots), hsent]
  exact ⟨rfl, (applyCommitted_keeps codec _ _).2.2.1⟩

theorem drive_healthy (codec : Codec) {next : RaftNode × Effects}
    (heff : next.2.Reaches r.Knows config) (hsync : task.write.fails = false) :
    (r.drive codec task next).runtime.failed = r.failed := by
  unfold drive
  split_ifs
  · obtain ⟨hnone, hfailed⟩ := handleEffects_healthy (r := { r with node := next.1 }) codec
      ⟨heff.receivers, heff.batches, heff.snapshots⟩ hsync
    rw [fail, hnone]
    exact hfailed
  · rfl

theorem awaitProposal_healthy (codec : Codec) (id : ℕ) (bytes : List UInt8) (sender index : ℕ)
    (node : RaftNode) (heff : eff.Reaches r.Knows config) (hsync : task.write.fails = false) :
    (r.awaitProposal codec id bytes sender task (index, eff, node)).1.runtime.failed =
      r.failed := by
  obtain ⟨hnone, hfailed⟩ := handleEffects_healthy
    (r := { r with node := node, waiters := r.waiters.insert index ⟨id, bytes, sender⟩ }) codec
    ⟨heff.receivers, heff.batches, heff.snapshots⟩ hsync
  unfold awaitProposal
  dsimp only
  generalize handleEffects codec
    { r with node := node, waiters := r.waiters.insert index ⟨id, bytes, sender⟩ } eff task = out
    at *
  rw [hnone]
  dsimp only
  split_ifs
  · obtain ⟨waiters, hremove⟩ := removePending_keeps out.runtime index id
    rw [hremove]
    exact hfailed
  · exact hfailed

end RaftRuntime

namespace RuntimeCluster
variable {codec : Codec} {configs : NodeId → NodeConfig} {peers : OrdSet NodeId}
  {acts : List RuntimeAction} {s : RuntimeCluster} {k : ℕ} {a : RuntimeAction} {n : NodeId}

/-- The action runs a task of node `n` whose write fails. -/
def WriteFails (s : RuntimeCluster) (n : NodeId) : RuntimeAction → Prop
  | .tick m task => m = n ∧ task.write.fails = true
  | .deliver k task => ∃ message ∈ s.net[k]?, message.receiver = n ∧ task.write.fails = true
  | .propose m _ task => m = n ∧ task.write.fails = true
  | .cleanup _ _ _ => False
  | .restart _ => False

/-- What is known of the node of a settled runtime. -/
structure Prepared (s : RuntimeCluster) (peers : OrdSet NodeId) (n : NodeId) : Prop where
  peers_eq : (s.runtimes n).config.peers = peers
  id_eq : (s.runtimes n).config.nodeId = n
  consensus_id : (s.runtimes n).config.consensus.id = n
  steady : (s.runtimes n).Settled →
    (s.runtimes n).node.core.Steady (Configuration.ofVoters peers.toList)
      (s.runtimes n).config.consensus
  primed : (s.runtimes n).Settled → (s.runtimes n).node.Primed

theorem Prepared.knows (h : s.Prepared peers n) {p : NodeId}
    (hp : p ∈ (Configuration.ofVoters peers.toList).allNodes)
    (hne : p ≠ (s.runtimes n).config.consensus.id) :
    (s.runtimes n).Knows p := by
  rw [RaftRuntime.Knows, h.peers_eq, h.id_eq]
  refine ⟨?_, h.consensus_id ▸ hne⟩
  simpa [Configuration.ofVoters, Configuration.allNodes, Configuration.voters,
    Configuration.learners, ← OrdSet.mem_def] using hp

theorem Prepared.stepEvent (h : s.Prepared peers n) (hsettled : (s.runtimes n).Settled)
    {task : Task} {event : Event} (hevent : s.Brings a n task event) :
    ((s.runtimes n).node.stepEvent event).2.Reaches (s.runtimes n).Knows
      (s.runtimes n).config.consensus ∧
      ((s.runtimes n).node.stepEvent event).1.Primed := by
  refine RaftNode.stepEvent_addressed (fun p hp hne => h.knows hp hne) (h.primed hsettled)
    (h.steady hsettled) event (fun message hmessage => ?_)
  rcases hevent.valid with rfl | ⟨message', -, rfl, -, hvalid⟩
  · cases hmessage
  · cases hmessage
    exact RaftRuntime.knows_sender hvalid

theorem Prepared.propose (h : s.Prepared peers n) (hsettled : (s.runtimes n).Settled)
    {bytes : List UInt8} {index : ℕ} {eff : Effects} {node : RaftNode}
    (haccepted : (s.runtimes n).node.propose ⟨bytes⟩ = .ok (index, eff, node)) :
    eff.Reaches (s.runtimes n).Knows (s.runtimes n).config.consensus ∧ node.Primed :=
  RaftNode.propose_addressed (fun _ hp hne => h.knows hp hne) (h.primed hsettled)
    (h.steady hsettled) haccepted

theorem primed_advance {node : RaftNode} (h : node.Primed) (i : ℕ) : (node.advance i).Primed := h

/-- One action leaves the nodes of settled runtimes primed. -/
theorem RuntimeStep.primed {s' : RuntimeCluster} {low : Cluster → List Action}
    (h : RuntimeStep codec s a s' low) (ha : s.Orderly a) (hprep : ∀ n, s.Prepared peers n)
    (hsettled : (s'.runtimes n).Settled) : (s'.runtimes n).node.Primed := by
  -- the runtime that acted is looked at, the others are as they were
  have hupdate {m : NodeId} {r : RaftRuntime} (hr : r.Settled → r.node.Primed)
      (hset : (Function.update s.runtimes m r n).Settled) :
      (Function.update s.runtimes m r n).node.Primed := by
    rcases eq_or_ne n m with rfl | hn
    · rw [Function.update_self] at hset ⊢
      exact hr hset
    · rw [Function.update_of_ne hn] at hset ⊢
      exact (hprep n).primed hset
  cases h with
  | nothing => exact (hprep n).primed hsettled
  | refused m id error => exact hupdate (fun hset => (hprep m).primed hset) hsettled
  | event m task event act hhealthy hset hevent hact hstep =>
    refine hupdate (fun _ => ?_) hsettled
    rw [(RaftRuntime.drive_of codec hhealthy _).node]
    exact primed_advance ((hprep m).stepEvent (hset ha) hevent).2 _
  | proposal m command task id bytes index effects node hhealthy hset hencode haccepted hstep =>
    refine hupdate (fun _ => ?_) hsettled
    rw [(awaiting_of codec s m task id bytes index effects node).node]
    exact primed_advance ((hprep m).propose (hset ha) haccepted).2 _
  | cleanup m waiters hsub => exact hupdate (fun hset => (hprep m).primed hset) hsettled
  | restart m => exact hupdate (fun _ => .of_not_leader rfl) hsettled

/-- In a run of fixed membership every node's log holds commands only. -/
theorem steady_moment (hpeers : ∀ n, (configs n).peers = peers)
    (horderly : (init configs).OrderlyRun codec acts) (k : ℕ) (n : NodeId)
    (hsettled : (((init configs).moment codec acts k).runtimes n).Settled) :
    (((init configs).moment codec acts k).runtimes n).node.core.Steady
      (Configuration.ofVoters peers.toList)
      (((init configs).moment codec acts k).runtimes n).config.consensus := by
  have hfixed : FixedMembership (lowered codec configs peers (acts.take k)) := lowered_fixed
  obtain ⟨hsound, h, -, hs, hc⟩ := Cluster.fixed_run
    (Cluster.init_sound (fun n => (configs n).consensus) peers.toList)
    (Cluster.init_sim _ peers.toList) (Cluster.start_commands _) hfixed
  have hmirrors := (moment_refines hpeers horderly k).mirrors n
  have hnode := hmirrors.node hsettled
  have hconfig := hmirrors.config
  rw [lowMoment_eq, start] at hnode hconfig
  rw [← hnode]
  have hformed := hsound.formed.views n
  refine ⟨hconfig, hformed.boot_eq, hformed.plain.snapshotIndex, hformed.plain.snapshotConfig,
    ?_, ?_⟩
  · intro e he
    have hlog : h.log n = _ := (hs.nodes n).log
    exact hc.log hs.inv n e (hlog ▸ he)
  · intro e he
    obtain ⟨i, hi⟩ := List.mem_iff_getElem?.mp he
    rw [hformed.plain.numbered.index_of_getElem? hi]
    omega

/-- At every moment of a run, every settled runtime's node is prepared. -/
theorem prepared_moment (hpeers : ∀ n, (configs n).peers = peers)
    (horderly : (init configs).OrderlyRun codec acts) (k : ℕ) :
    ∀ n, ((init configs).moment codec acts k).Prepared peers n := by
  -- all but the progress table is known of each moment by itself
  have hprep (k : ℕ) (hprimed : ∀ n, (((init configs).moment codec acts k).runtimes n).Settled →
      (((init configs).moment codec acts k).runtimes n).node.Primed) (n : NodeId) :
      ((init configs).moment codec acts k).Prepared peers n := by
    have hconfig := moment_config codec configs acts k n
    refine ⟨?_, ?_, ?_, steady_moment hpeers horderly k n, hprimed n⟩
    · rw [hconfig]
      exact hpeers n
    · rw [hconfig]
      rfl
    · rw [hconfig]
      rfl
  induction k with
  | zero => exact hprep 0 (fun _ _ => .of_not_leader rfl)
  | succ k ih =>
    cases ha : acts[k]? with
    | none =>
      rw [moment_beyond _ ha]
      exact ih
    | some a =>
      exact hprep (k + 1) (fun n hset => (moment_step ha).primed (horderly.at ha) ih hset)

theorem Brings.writeFails {task : Task} {event : Event} (h : s.Brings a n task event)
    (hwrite : task.write.fails = true) : s.WriteFails n a := by
  rcases h with ⟨rfl, -⟩ | ⟨k, message, rfl, hk, -, hreceiver, -⟩
  · exact ⟨rfl, hwrite⟩
  · exact ⟨message, hk, hreceiver, hwrite⟩

/-- A task of a prepared runtime fails only if its write does. -/
theorem RuntimeStep.failed {s' : RuntimeCluster} {low : Cluster → List Action}
    (h : RuntimeStep codec s a s' low) (ha : s.Orderly a) (hprep : ∀ n, s.Prepared peers n)
    (hfailed : (s'.runtimes n).failed = true) :
    (s.runtimes n).failed = true ∨ s.WriteFails n a := by
  -- the runtime of the node that acts, or another one
  have hupdate {m : NodeId} {r : RaftRuntime}
      (hf : (Function.update s.runtimes m r n).failed = true)
      (hr : r.failed = true → (s.runtimes m).failed = true ∨ s.WriteFails m a) :
      (s.runtimes n).failed = true ∨ s.WriteFails n a := by
    rcases eq_or_ne n m with rfl | hn
    · rw [Function.update_self] at hf
      exact hr hf
    · rw [Function.update_of_ne hn] at hf
      exact Or.inl hf
  cases h with
  | nothing => exact Or.inl hfailed
  | refused m id error => exact hupdate hfailed Or.inl
  | event m task event act hhealthy hset hevent hact hstep =>
    refine hupdate hfailed (fun hf => ?_)
    cases hsync : task.write.fails with
    | true => exact Or.inr (hevent.writeFails hsync)
    | false =>
      rw [RaftRuntime.drive_healthy codec ((hprep m).stepEvent (hset ha) hevent).1 hsync] at hf
      exact Or.inl hf
  | proposal m command task id bytes index effects node hhealthy hset hencode haccepted hstep =>
    refine hupdate hfailed (fun hf => ?_)
    cases hsync : task.write.fails with
    | true => exact Or.inr ⟨rfl, hsync⟩
    | false =>
      have heff := ((hprep m).propose (hset ha) haccepted).1
      rw [RaftRuntime.awaitProposal_healthy (r := { s.runtimes m with nextProposalId := id }) codec
        _ bytes _ index node ⟨heff.receivers, heff.batches, heff.snapshots⟩ hsync] at hf
      exact Or.inl hf
  | cleanup m waiters hsub => exact hupdate hfailed Or.inl
  | restart m => exact hupdate hfailed (fun hf => nomatch hf)

/-- The effects that an action makes a node ask for: those of a tick, of a message that its runtime
takes, or of a proposal that it accepts. -/
inductive Asks (codec : Codec) (s : RuntimeCluster) : RuntimeAction → NodeId → Effects → Prop
  | event {a : RuntimeAction} (n : NodeId) (task : Task) (event : Event)
      (hhealthy : (s.runtimes n).ensureHealthy task = true) (hevent : s.Brings a n task event) :
      Asks codec s a n ((s.runtimes n).node.stepEvent event).2
  | proposal (n : NodeId) (command : KvCommand) (task : Task) (bytes : List UInt8) (index : ℕ)
      (effects : Effects) (node : RaftNode) (hhealthy : (s.runtimes n).ensureHealthy task = true)
      (hencode : codec.encode command = some bytes)
      (haccepted : (s.runtimes n).node.propose ⟨bytes⟩ = .ok (index, effects, node)) :
      Asks codec s (.propose n command task) n effects

/-- What a prepared node asks for is within the reach of its runtime. -/
theorem Asks.reaches {eff : Effects} (h : s.Asks codec a n eff) (ha : s.Orderly a)
    (hprep : s.Prepared peers n) :
    eff.Reaches (s.runtimes n).Knows (s.runtimes n).config.consensus := by
  cases h with
  | event n task event hhealthy hevent =>
    have hsettled : (s.runtimes n).Settled := by
      rcases hevent with ⟨rfl, -⟩ | ⟨k, message, rfl, hk, -, rfl, -⟩
      · exact ha hhealthy
      · exact ha message hk hhealthy
    exact (hprep.stepEvent hsettled hevent).1
  | proposal n command task bytes index effects node hhealthy hencode haccepted =>
    exact (hprep.propose (ha hhealthy) haccepted).1

end RuntimeCluster
end BasisDB.Runtime
