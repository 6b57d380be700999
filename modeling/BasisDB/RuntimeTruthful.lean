import BasisDB.RuntimeRefines
import BasisDB.RaftRuns

/-! Runs of the runtimes whose acknowledgements are truthful: their nodes then run truthfully,
and everything that is known about such runs of nodes holds of the runtimes. -/
namespace BasisDB.Runtime.RuntimeCluster
open BasisDB.Raft BasisDB.Kv

/-- At some moment up to `k`, `sender` led `term` and had the last entry of `log`. -/
def HeldBySender (codec : Codec) (s : RuntimeCluster) (acts : List RuntimeAction) (k : ℕ)
    (sender : NodeId) (term : ℕ) (log : Log) : Prop :=
  ∃ j ∈ List.range (k + 1), ((s.moment codec acts j).runtimes sender).Settled ∧
    ((s.moment codec acts j).runtimes sender).node.isLeader = true ∧
    ((s.moment codec acts j).runtimes sender).node.term = term ∧
    ((s.moment codec acts j).runtimes sender).node.log.termAt log.lastIndex = log.lastTerm

/-- The message is an append request that a follower with some log accepts, and that finds all
its entries there. -/
def findsAll (node : RaftNode) (msg : Message) : Bool :=
  match node.role, msg.payload with
  | .follower _, .appendRequest req =>
    decide (node.term ≤ msg.term) && Follower.accepts node.log req &&
      req.entries.all (fun e => node.log.termAt e.index = e.term) &&
      decide (node.log.lastIndex ≠ 0)
  | _, _ => false

/-- Where an append request finds all its entries, the sender had the follower's last entry. -/
def TruthfulDelivery (codec : Codec) (s : RuntimeCluster) (acts : List RuntimeAction) (k : ℕ)
    (msg : Message) : Prop :=
  let node := ((s.moment codec acts k).runtimes msg.receiver).node
  findsAll node msg = true → s.HeldBySender codec acts k msg.sender msg.term node.log

def TruthfulAt (codec : Codec) (s : RuntimeCluster) (acts : List RuntimeAction) (k : ℕ) : Prop :=
  match acts[k]? with
  | some (.deliver i _) =>
    ∀ msg ∈ (s.moment codec acts k).net[i]?, s.TruthfulDelivery codec acts k msg
  | _ => True

/-- No action of the run is an untruthful delivery. -/
def Truthful (codec : Codec) (s : RuntimeCluster) (acts : List RuntimeAction) : Prop :=
  ∀ k < acts.length, s.TruthfulAt codec acts k

instance (codec : Codec) (s : RuntimeCluster) (acts : List RuntimeAction) (k : ℕ)
    (sender : NodeId) (term : ℕ) (log : Log) :
    Decidable (s.HeldBySender codec acts k sender term log) :=
  inferInstanceAs (Decidable (∃ j ∈ List.range (k + 1), _))

instance (codec : Codec) (s : RuntimeCluster) (acts : List RuntimeAction) (k : ℕ)
    (msg : Message) : Decidable (s.TruthfulDelivery codec acts k msg) :=
  inferInstanceAs (Decidable (_ → _))

instance (codec : Codec) (s : RuntimeCluster) (acts : List RuntimeAction) (k : ℕ) :
    Decidable (s.TruthfulAt codec acts k) := by
  unfold TruthfulAt
  split <;> infer_instance

instance (codec : Codec) (s : RuntimeCluster) (acts : List RuntimeAction) :
    Decidable (s.Truthful codec acts) :=
  inferInstanceAs (Decidable (∀ k < acts.length, _))

variable {codec : Codec} {configs : NodeId → NodeConfig} {peers : OrdSet NodeId}
  {acts : List RuntimeAction} {s : RuntimeCluster} {c : Cluster} {k : ℕ} {a : RuntimeAction}

theorem moment_succ (s : RuntimeCluster) (ha : acts[k]? = some a) :
    s.moment codec acts (k + 1) = (s.moment codec acts k).step codec a := by
  rw [moment, List.take_add_one, ha, Option.toList_some, run, List.foldl_append]
  rfl

theorem moment_beyond (s : RuntimeCluster) (h : acts[k]? = none) :
    s.moment codec acts (k + 1) = s.moment codec acts k := by
  rw [moment, List.take_add_one, h, Option.toList_none, List.append_nil]
  rfl

theorem lowered_succ (ha : acts[k]? = some a) :
    lowered codec configs peers (acts.take (k + 1)) =
      lowered codec configs peers (acts.take k) ++
        lower codec ((init configs).moment codec acts k) (lowMoment codec configs peers acts k)
          a := by
  rw [List.take_add_one, ha, Option.toList_some, lowered, Simulations.lowered_append,
    lowMoment_eq]
  simp only [Simulations.lowered, List.append_nil]
  rfl

/-- The actions that stand for action `k` are found in the run of the nodes from there on. -/
theorem lowered_at (ha : acts[k]? = some a) {j : ℕ} {b : Action}
    (hb : (lower codec ((init configs).moment codec acts k)
      (lowMoment codec configs peers acts k) a)[j]? = some b) :
    (lowered codec configs peers acts)[loweredLength codec configs peers acts k + j]? = some b := by
  obtain ⟨rest, hrest⟩ : lowered codec configs peers (acts.take (k + 1)) <+: _ :=
    lowered_isPrefix (k + 1)
  rw [lowered_succ ha, List.append_assoc] at hrest
  have hj : j < (lower codec ((init configs).moment codec acts k)
      (lowMoment codec configs peers acts k) a).length := (List.getElem?_eq_some_iff.mp hb).1
  rw [← hrest, loweredLength, List.getElem?_append_right (Nat.le_add_right _ _),
    Nat.add_sub_cancel_left, List.getElem?_append_left hj]
  exact hb

/-- A delivery among the nodes' actions is a delivery to a runtime that takes it. -/
theorem lower_deliver {j i : ℕ} (h : (lower codec s c a)[j]? = some (.deliver i)) :
    j = 0 ∧ ∃ k task message, a = .deliver k task ∧ s.net[k]? = some message ∧
      i = c.net.idxOf message ∧ (s.runtimes message.receiver).ensureHealthy task = true := by
  have htask {n : NodeId} {r : RaftRuntime} {task : Task} {next : RaftNode × Effects}
      {out : Outcome} {b : Action} {j : ℕ}
      (h : (lowerTask n r task next out b)[j]? = some (.deliver i)) :
      j = 0 ∧ b = .deliver i ∧ r.ensureHealthy task = true := by
    unfold lowerTask at h
    split_ifs at h with hlands
    · rw [RaftRuntime.lands, Bool.and_eq_true] at hlands
      rcases j with _ | _ | j
      · exact ⟨rfl, Option.some.inj h, hlands.1⟩
      · cases h
      · cases h
    · cases h
  cases a with
  | tick n task => cases (htask h).2.1
  | deliver k task =>
    simp only [lower] at h
    cases hk : s.net[k]? with
    | none =>
      rw [hk] at h
      cases h
    | some message =>
      simp only [hk] at h
      cases hv : (s.runtimes message.receiver).validateMessage message with
      | error e =>
        rw [hv] at h
        cases h
      | ok _ =>
        rw [hv] at h
        obtain ⟨hj, hb, hhealthy⟩ := htask h
        exact ⟨hj, k, task, message, rfl, hk, (Action.deliver.inj hb).symm, hhealthy⟩
  | propose n command task =>
    simp only [lower] at h
    cases hcall : ((s.runtimes n).propose codec command s.calls.length task).1.appended with
    | none =>
      rw [hcall] at h
      cases h
    | some call =>
      simp only [hcall] at h
      cases hp : (s.runtimes n).node.propose ⟨call.command⟩ with
      | error e =>
        rw [hp] at h
        cases h
      | ok accepted =>
        rw [hp] at h
        cases (htask h).2.1
  | cleanup n index id => cases h
  | restart n =>
    rcases j with _ | j
    · cases h
    · cases h

theorem moment_step (ha : acts[k]? = some a) :
    RuntimeStep codec ((init configs).moment codec acts k) a
      ((init configs).moment codec acts (k + 1))
      (fun c => lower codec ((init configs).moment codec acts k) c a) := by
  rw [moment_succ _ ha]
  exact step_cases codec _ a

/-- A runtime keeps the configuration that it was opened with. -/
theorem moment_config (codec : Codec) (configs : NodeId → NodeConfig) (acts : List RuntimeAction)
    (k : ℕ) (n : NodeId) : (((init configs).moment codec acts k).runtimes n).config =
      ((init configs).runtimes n).config := by
  induction k with
  | zero => rfl
  | succ k ih =>
    cases ha : acts[k]? with
    | none =>
      rw [moment_beyond _ ha]
      exact ih
    | some a => exact ((moment_step ha).config n).trans ih

/-- Where the runtimes' run is truthful, the nodes' run is. -/
theorem lowered_truthful (hpeers : ∀ n, (configs n).peers = peers)
    (horderly : (init configs).OrderlyRun codec acts)
    (htrue : (init configs).Truthful codec acts) :
    (start configs peers).Truthful (lowered codec configs peers acts) := by
  intro i hi
  unfold Cluster.TruthfulAt
  split
  · rename_i idx hidx
    obtain ⟨k, a, j, ha, hij, hj⟩ := Simulations.lowered_getElem? hidx
    have hlow : (Simulations.lowered (step codec) Cluster.step (lower codec) (init configs)
        (start configs peers) (acts.take k)).foldl Cluster.step (start configs peers) =
        lowMoment codec configs peers acts k := (lowMoment_eq k).symm
    rw [hlow] at hj
    obtain ⟨rfl, i', task, message, rfl, hnet, rfl, hhealthy⟩ := lower_deliver hj
    have hi' : i = loweredLength codec configs peers acts k := hij
    subst hi'
    intro msg hmsg
    have href := moment_refines hpeers horderly k
    -- the nodes deliver the message that the runtimes deliver
    have hmem : message ∈ (lowMoment codec configs peers acts k).net :=
      href.net (List.mem_of_getElem? hnet)
    have hsame : msg = message :=
      Option.some.inj (hmsg.symm.trans (List.getElem?_idxOf hmem))
    subst hsame
    have hsettled := horderly.at ha msg hnet hhealthy
    have hnode := (href.mirrors msg.receiver).node hsettled
    rw [lowMoment] at hnode
    have htold := htrue k (List.getElem?_eq_some_iff.mp ha).1
    simp only [TruthfulAt, ha] at htold
    have hdelivery := htold msg hnet
    simp only [Cluster.TruthfulDelivery]
    rw [hnode]
    split
    · rename_i f req hrole hpay
      intro hterm hacc hall hne
      have hfinds : findsAll (((init configs).moment codec acts k).runtimes msg.receiver).node
          msg = true := by
        simp only [findsAll, hrole, hpay, Bool.and_eq_true, decide_eq_true_eq, List.all_eq_true]
        exact ⟨⟨⟨hterm, hacc⟩, hall⟩, hne⟩
      obtain ⟨m, hm, hset, hlead, hmterm, hlast⟩ := hdelivery hfinds
      have hmk : m ≤ k := Nat.lt_succ_iff.mp (List.mem_range.mp hm)
      have hsender := ((moment_refines hpeers horderly m).mirrors msg.sender).node hset
      rw [lowMoment] at hsender
      refine ⟨loweredLength codec configs peers acts m, ?_, ?_⟩
      · exact List.mem_range.mpr (Nat.lt_succ_of_le (loweredLength_mono hmk))
      · rw [hsender]
        exact ⟨hlead, hmterm, hlast⟩
    · trivial
  · trivial

/-- The nodes of a truthful run of the runtimes respect the rules of a fixed membership. -/
theorem lowered_respects (hpeers : ∀ n, (configs n).peers = peers)
    (horderly : (init configs).OrderlyRun codec acts)
    (htrue : (init configs).Truthful codec acts) :
    Cluster.Respects .singleServer False (start configs peers)
      (lowered codec configs peers acts) :=
  Cluster.fixed_respects _ _ lowered_fixed (lowered_truthful hpeers horderly htrue)

end BasisDB.Runtime.RuntimeCluster
