import BasisDB.RaftStoreCrash
import BasisDB.RuntimeTruthful

/-! The stores of the runtimes byte by byte. The states that a runtime puts on disk follow one
another as the delta records of the store need it, so that whatever its disk does, a node is always
started again, with the state that it had saved or with the one it was about to save. -/
namespace BasisDB

open Raft ReplicatedLog Storage

/-- Logs that agree with one set of leaders' logs match. -/
theorem Raft.Log.Plain.matching {log log' : Log} {boot : Configuration} {lead : ℕ → List Entry}
    (h : log.Plain) (h' : log'.Plain) (hlog : Coherent (scheme boot) lead log.entries)
    (hlog' : Coherent (scheme boot) lead log'.entries) : log.Matching log' := by
  intro i e e' he he' hterm j hj
  cases i with
  | zero =>
    rw [Nat.le_zero.mp hj]
    simp [Log.get]
  | succ i =>
    rw [h.get_succ] at he
    rw [h'.get_succ] at he'
    obtain ⟨hP, hlen⟩ := prefix_of_getElem? he
    obtain ⟨hP', hlen'⟩ := prefix_of_getElem? he'
    have heq := hlog.matching hlog' hP hP' (hlen.trans hlen'.symm) hterm
    refine h.get_eq_of_prefix h' hP (heq ▸ hP') ?_
    rw [List.length_append, hlen, List.length_singleton]
    exact hj

/-- Without a snapshot there is no snapshot metadata. -/
theorem Storage.withSnapshotOf_plain {state initial : Persistent} (h : state.log.Plain)
    (hinitial : initial.log.Plain) : withSnapshotOf state initial = state := by
  unfold withSnapshotOf
  rw [hinitial.snapshotTerm, hinitial.snapshotConfig, ← h.snapshotTerm, ← h.snapshotConfig]

/-- What a node of fixed membership has on disk at one moment is followed by what it has there at
a later one. -/
theorem Raft.Cluster.disk_follows (configs : NodeId → Config) (voters : List NodeId)
    {acts : List Action} (hfix : FixedMembership acts) {j k : ℕ} (hjk : j ≤ k) (n : NodeId)
    {initial : Persistent} (hinitial : initial.log.Plain) :
    RaftStore.Follows initial (((Cluster.init configs voters).moment acts j).disk n)
      (((Cluster.init configs voters).moment acts k).disk n) := by
  obtain ⟨h, h', hle, hs, hs'⟩ := Cluster.fixed_moments configs voters hfix hjk
  have hsound (i : ℕ) : ((Cluster.init configs voters).moment acts i).Sound configs
      (Configuration.ofVoters voters) :=
    (Cluster.fixed_run (Cluster.init_sound configs voters) (Cluster.init_sim configs voters)
      (Cluster.start_commands _) (Cluster.FixedMembership.moment hfix i)).1
  have hplain (i : ℕ) :
      (((Cluster.init configs voters).moment acts i).nodes n).persistent.log.Plain :=
    ((hsound i).formed.views n).plain
  have hlog := (hs.nodes n).log ▸ hs.inv.coherent n
  have hlog' := (hs'.nodes n).log ▸ hs'.inv.coherent n
  have hterm : h.term n ≤ h'.term n := hle.term n
  rw [(hs.nodes n).term, (hs'.nodes n).term] at hterm
  rw [(hsound j).disk n, (hsound k).disk n]
  refine ⟨⟨⟨(hplain j).contiguous, (hplain k).contiguous⟩,
    ⟨(hplain j).snapshotIndex, (hplain k).snapshotIndex⟩, hterm, ?_⟩,
    withSnapshotOf_plain (hplain j) hinitial, withSnapshotOf_plain (hplain k) hinitial⟩
  -- both logs agree with the leaders' logs of the later moment
  exact (hplain j).matching (hplain k) (hlog.mono hle.leaderLog) hlog'

namespace Runtime.RuntimeCluster
variable {codec : Codec} {configs : NodeId → NodeConfig} {peers : OrdSet NodeId}
  {acts : List RuntimeAction}

/-- The state that the store of a node starts with. -/
def initialState (configs : NodeId → NodeConfig) (n : NodeId) : Persistent :=
  (RaftRuntime.openNew (configs n)).store

theorem store_follows (hpeers : ∀ n, (configs n).peers = peers)
    (horderly : (init configs).OrderlyRun codec acts) {j k : ℕ} (hjk : j ≤ k) (n : NodeId) :
    RaftStore.Follows (initialState configs n)
      (((init configs).moment codec acts j).runtimes n).store
      (((init configs).moment codec acts k).runtimes n).store := by
  have hdisk (i : ℕ) := ((moment_refines hpeers horderly i).mirrors n).disk
  rw [← hdisk j, ← hdisk k]
  exact Cluster.disk_follows _ _ lowered_fixed (loweredLength_mono hjk) n Log.Plain.empty

open RaftStore StoreMachine

/-- In some run of the runtimes the node has `current` on disk, and had `durable` there before. -/
def Saves (codec : Codec) (configs : NodeId → NodeConfig) (n : NodeId)
    (durable current : Persistent) : Prop :=
  ∃ acts j k, (init configs).OrderlyRun codec acts ∧ j ≤ k ∧
    (((init configs).moment codec acts j).runtimes n).store = durable ∧
    (((init configs).moment codec acts k).runtimes n).store = current

/-- The disk of a node, whatever it does, is one cell: every start opens the store, a save that
answers that it succeeded has replaced the state, one that answers an error has not, and the next
start finds the state before it or the one that was to be saved. -/
theorem node_store_is_one_cell (crc32 : List UInt8 → UInt32) (json : DeltaJson)
    (hjson : json.RoundTrips) (codec : Codec) (configs : NodeId → NodeConfig)
    (peers : OrdSet NodeId) (hpeers : ∀ n, (configs n).peers = peers) (n : NodeId)
    (events : List StoreEvent)
    (hsaves : ∀ i disk current machine, events[i]? = some (.save disk current) →
      StoreMachine.run crc32 json (initialState configs n) (events.take i) = .ok machine →
      machine.failed = none → Saves codec configs n machine.store.durable current) :
    ∃ moment : ℕ → StoreMachine, moment 0 = StoreMachine.start (initialState configs n) ∧
      (∀ k ≤ events.length, StoreMachine.run crc32 json (initialState configs n)
        (events.take k) = .ok (moment k)) ∧
      ∀ k event, events[k]? = some event →
        Cell.Step (moment k).cell event ((moment k).answer crc32 json event)
          (moment (k + 1)).cell := by
  apply run_is_cell hjson
  intro i event machine hevent hrun
  cases event with
  | restart left => trivial
  | save disk current =>
    intro hrunning
    obtain ⟨acts, j, k, horderly, hjk, hdurable, rfl⟩ :=
      hsaves i disk current machine hevent hrun hrunning
    rw [← hdurable]
    exact store_follows hpeers horderly hjk n

/-- An encoding of the one record that a run writes. -/
def recordJson (delta : PersistentDelta) : DeltaJson where
  toVec written := if written = delta then some [1] else none
  fromSlice encoded := if encoded = [1] then some delta else none

theorem recordJson_roundTrips (delta : PersistentDelta) : (recordJson delta).RoundTrips := by
  intro written encoded h
  unfold recordJson at h ⊢
  dsimp only at h ⊢
  split_ifs at h with hdelta
  rw [if_pos (Option.some.inj h).symm, hdelta]

/-- What the first node has on disk when it starts its election. -/
def electing : Persistent := (((init quickNodes).moment unitCodec quickPair 1).runtimes 0).store

/-- The write of the vote breaks off, the node is started again, and votes once more. -/
def tornVote : List StoreEvent :=
  [.save { writeFails := some 5 } electing, .restart (some 3), .save {} electing, .restart none]

def voteJson : DeltaJson := recordJson (deltaOf (initialState quickNodes 0) electing)

/-- The life of the first node's store in these events. -/
def voteStore (k : ℕ) : Except StoreError StoreMachine :=
  StoreMachine.run crc32Ieee voteJson (initialState quickNodes 0) (tornVote.take k)

theorem voteStore_torn :
    (voteStore 2).map StoreMachine.cell = .ok ⟨initialState quickNodes 0, none⟩ := by
  decide +kernel

theorem voteStore_answer :
    (voteStore 2).map (fun machine => machine.answer crc32Ieee voteJson (.save {} electing)) =
      .ok (some (.ok ())) := by
  decide +kernel

/-- The torn vote is not what the second life starts with, and the vote that it saves then replaces
the state as a whole. -/
theorem node_store_is_one_cell_tornVote :
    ∃ moment : ℕ → StoreMachine, voteStore 4 = .ok (moment 4) ∧
      (moment 2).cell = ⟨initialState quickNodes 0, none⟩ ∧
      Cell.Step (moment 2).cell (.save {} electing) (some (.ok ())) (moment 3).cell := by
  have helects : Saves unitCodec quickNodes 0 (initialState quickNodes 0) electing :=
    ⟨quickPair, 0, 1, by decide +kernel, Nat.zero_le 1, rfl, rfl⟩
  obtain ⟨moment, -, hruns, hsteps⟩ := node_store_is_one_cell crc32Ieee voteJson
    (recordJson_roundTrips _) unitCodec quickNodes (OrdSet.ofList [0, 1]) (fun _ => rfl) 0 tornVote
    (by
      intro i disk current machine hevent hrun _
      rcases i with _ | _ | _ | _ | i
      · obtain ⟨-, rfl⟩ := StoreEvent.save.inj (Option.some.inj hevent)
        obtain rfl := Except.ok.inj hrun
        exact helects
      · cases hevent
      · obtain ⟨-, rfl⟩ := StoreEvent.save.inj (Option.some.inj hevent)
        have htorn := voteStore_torn
        rw [voteStore, hrun] at htorn
        have hstate : machine.store.durable = initialState quickNodes 0 :=
          congrArg Cell.durable (Except.ok.inj htorn)
        rw [hstate]
        exact helects
      · cases hevent
      · cases hevent)
  have hrun2 : voteStore 2 = .ok (moment 2) := hruns 2 (by decide)
  have htorn := voteStore_torn
  have hanswer := voteStore_answer
  rw [hrun2] at htorn hanswer
  refine ⟨moment, hruns 4 le_rfl, Except.ok.inj htorn, ?_⟩
  have hstep := hsteps 2 (.save {} electing) rfl
  have hsaved : (moment 2).answer crc32Ieee voteJson (.save {} electing) = some (.ok ()) :=
    Except.ok.inj hanswer
  rwa [hsaved] at hstep

end Runtime.RuntimeCluster
end BasisDB
