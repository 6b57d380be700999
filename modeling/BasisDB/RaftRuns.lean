import BasisDB.RaftFixedRuns
import BasisDB.RaftReads

/-! Runs whose acknowledgements are truthful. A follower that accepts an append
request answers with the last index of its log, also when the request brings
nothing new; the answer is right only if the sender had that last entry. -/
namespace BasisDB.Raft
open ReplicatedLog

namespace Cluster

/-- At some moment up to `k`, `sender` led `term` and had the last entry of `log`. -/
def HeldBySender (s : Cluster) (acts : List Action) (k : ℕ) (sender : NodeId) (term : ℕ)
    (log : Log) : Prop :=
  ∃ j ∈ List.range (k + 1), ((s.moment acts j).nodes sender).isLeader = true ∧
    ((s.moment acts j).nodes sender).term = term ∧
    ((s.moment acts j).nodes sender).log.termAt log.lastIndex = log.lastTerm

/-- If the message is an append request that a follower accepts and that finds all
its entries, the sender had the follower's last entry. -/
def TruthfulDelivery (s : Cluster) (acts : List Action) (k : ℕ) (msg : Message) : Prop :=
  let node := (s.moment acts k).nodes msg.receiver
  match node.role, msg.payload with
  | .follower _, .appendRequest req =>
    node.term ≤ msg.term → Follower.accepts node.log req = true →
      (∀ e ∈ req.entries, node.log.termAt e.index = e.term) → node.log.lastIndex ≠ 0 →
      s.HeldBySender acts k msg.sender msg.term node.log
  | _, _ => True

/-- The action after moment `k` is no untruthful delivery. -/
def TruthfulAt (s : Cluster) (acts : List Action) (k : ℕ) : Prop :=
  match acts[k]? with
  | some (.deliver i) => ∀ msg ∈ (s.moment acts k).net[i]?, s.TruthfulDelivery acts k msg
  | _ => True

/-- No action of the run is an untruthful delivery. -/
def Truthful (s : Cluster) (acts : List Action) : Prop := ∀ k < acts.length, s.TruthfulAt acts k

instance (s : Cluster) (acts : List Action) (k : ℕ) (sender : NodeId) (term : ℕ) (log : Log) :
    Decidable (s.HeldBySender acts k sender term log) :=
  inferInstanceAs (Decidable (∃ j ∈ List.range (k + 1), _))

instance (s : Cluster) (acts : List Action) (k : ℕ) (msg : Message) :
    Decidable (s.TruthfulDelivery acts k msg) := by
  unfold TruthfulDelivery
  dsimp only
  split <;> infer_instance

instance (s : Cluster) (acts : List Action) (k : ℕ) : Decidable (s.TruthfulAt acts k) := by
  unfold TruthfulAt
  split <;> infer_instance

instance (s : Cluster) (acts : List Action) : Decidable (s.Truthful acts) :=
  inferInstanceAs (Decidable (∀ k < acts.length, _))

/-- What the actions of a run respect: truthful acknowledgements, and the rules for
configuration changes when there are any. -/
structure Respects (mode : MembershipMode) (reconfig : Prop) (s : Cluster) (acts : List Action) :
    Prop where
  truthful : s.Truthful acts
  crossable : ∀ k a n, acts[k]? = some a → (s.moment acts k).committer a = some n →
    ((s.moment acts k).nodes n).isLeader = true →
    Leader.Crossable ⟨mode, reconfig, True, fun _ _ => True, fun _ => True⟩
      ((s.moment acts k).nodes n).log ((s.moment acts k).nodes n).commitIndex
  changes : ∀ k n change, acts[k]? = some (.proposeConfigChange n change) →
    ((s.moment acts k).nodes n).isLeader = true →
      reconfig ∧ (s.nodes n).core.config.membershipMode = mode ∧
        (Leader.currentTermCommitIndex ((s.moment acts k).nodes n).core).isSome = true

/-- The rules of a run at a moment whose history is `h`. -/
def guardsAt (mode : MembershipMode) (reconfig : Prop) (h : History NodeId Entry) : Guards where
  mode := mode
  reconfig := reconfig
  strict := True
  absorb m log := ∀ req, m.payload = .appendRequest req →
    (∀ e ∈ req.entries, log.termAt e.index = e.term) → log.entries <+: h.leaderLog m.term

variable {configs : NodeId → Config} {boot : Configuration} {mode : MembershipMode}
  {reconfig : Prop} {h h' : History NodeId Entry} {s s' : Cluster} {n p : NodeId}

/-- A leader's log is the one its term has in the history. -/
theorem leaderLog_eq (hs : Sim boot s.world h) (hn : (s.nodes n).isLeader = true) :
    h.leaderLog (s.nodes n).term = (s.nodes n).log.entries :=
  (hs.inv.leader_log _ _ (leader_of_isLeader hs hn) (hs.nodes n).term).symm.trans (hs.nodes n).log

theorem coherent_log (hs : Sim boot s.world h) (n : NodeId) :
    Coherent (scheme boot) h.leaderLog (s.nodes n).log.entries :=
  (hs.nodes n).log ▸ hs.inv.coherent n

/-- A log whose last entry was in the log of a term's leader is a prefix of it. -/
theorem prefix_of_held (hk : Kept boot mode reconfig s.world h) (hk' : Kept boot mode reconfig s'.world h')
    (hle : History.Le h h') (hn : (s.nodes n).isLeader = true)
    (hlast : (s.nodes n).log.termAt (s'.nodes p).log.lastIndex = (s'.nodes p).log.lastTerm)
    (hne : (s'.nodes p).log.lastIndex ≠ 0) :
    (s'.nodes p).log.entries <+: h'.leaderLog (s.nodes n).term := by
  have hplain : (s.nodes n).log.Plain := (hk.formed.views n).plain
  have hplain' : (s'.nodes p).log.Plain := (hk'.formed.views p).plain
  rw [hplain'.lastIndex] at hlast hne
  rcases List.eq_nil_or_concat' (s'.nodes p).log.entries with hnil | ⟨P, x, hP⟩
  · simp [hnil] at hne
  · have hx : (s'.nodes p).log.lastTerm = x.term := by
      rw [hplain'.lastTerm boot, hP]
      exact lastTerm_concat P x
    have hpos := hplain'.numbered.pos x (by simp [hP])
    obtain ⟨Q, e, hQ, hQlen, he⟩ := hplain.entry_of_termAt (by rw [hlast, hx]; exact hpos.ne')
    have hlen : P.length = Q.length := by
      rw [hP, List.length_append, List.length_singleton] at hQlen
      omega
    have hlead := leaderLog_eq hk.sim hn
    have hpre : Q ++ [e] <+: h'.leaderLog (s.nodes n).term :=
      hQ.trans (hlead ▸ hle.leaderLog _)
    have hterm : (scheme boot).term x = (scheme boot).term e := hx.symm.trans (hlast.symm.trans he.symm)
    have heq := (coherent_log hk'.sim p).matching (hk'.sim.inv.leader_coherent _)
      (hP ▸ List.prefix_rfl) hpre hlen hterm
    rw [hP, heq]
    exact hpre

theorem init_kept (configs : NodeId → Config) (voters : List NodeId) (mode : MembershipMode)
    (reconfig : Prop) : Kept (Configuration.ofVoters voters) mode reconfig (init configs voters).world
      (History.start : History NodeId Entry) where
  formed := (init_sound configs voters).formed
  sim := init_sim configs voters
  acked :=
    { nodes := fun _ => NodeAck.of_not_leader (Secured.zero _ _ _) (fun _ => RoleView.noConfusion)
      net := fun _ hm => absurd hm List.not_mem_nil }
  chained := History.Chained.start _

theorem moment_succ (s : Cluster) (acts : List Action) {k : ℕ} {a : Action}
    (ha : acts[k]? = some a) : s.moment acts (k + 1) = (s.moment acts k).step a := by
  rw [moment, List.take_add_one, ha, Option.toList_some, run_append]
  rfl

theorem moment_beyond (s : Cluster) (acts : List Action) {k : ℕ} (hk : acts[k]? = none) :
    s.moment acts (k + 1) = s.moment acts k := by
  rw [moment, List.take_add_one, hk, Option.toList_none, List.append_nil]
  rfl

/-- Histories of all moments up to `k`, each extending those before it. -/
structure Tracked (configs : NodeId → Config) (boot : Configuration) (mode : MembershipMode)
    (reconfig : Prop) (s : Cluster) (acts : List Action) (k : ℕ) (hs : ℕ → History NodeId Entry) : Prop where
  sound : ∀ j ≤ k, (s.moment acts j).Sound configs boot
  kept : ∀ j ≤ k, Kept boot mode reconfig (s.moment acts j).world (hs j)
  reads : ∀ j ≤ k, Reads (s.moment acts j).world (hs j)
  le : ∀ i j, i ≤ j → j ≤ k → History.Le (hs i) (hs j)

variable {acts : List Action} {k : ℕ} {hs : ℕ → History NodeId Entry}

theorem Tracked.absorb (ht : Tracked configs boot mode reconfig s acts k hs) (htrue : s.Truthful acts)
    {i : ℕ} (ha : acts[k]? = some (.deliver i)) {msg : Message}
    (hmsg : (s.moment acts k).net[i]? = some msg) :
    (s.moment acts k).PermitsDelivery (guardsAt mode reconfig (hs k)) msg := by
  intro f req hrole hpay hterm hacc req' hpay' hall
  rw [hpay] at hpay'
  cases hpay'
  have hdel := htrue k (List.getElem?_eq_some_iff.mp ha).1
  simp only [TruthfulAt, ha] at hdel
  have hheld := hdel msg hmsg
  simp only [TruthfulDelivery, hrole, hpay] at hheld
  have hplain : ((s.moment acts k).nodes msg.receiver).log.Plain :=
    ((ht.kept k le_rfl).formed.views msg.receiver).plain
  by_cases hne : ((s.moment acts k).nodes msg.receiver).log.lastIndex = 0
  · rw [hplain.lastIndex, List.length_eq_zero_iff] at hne
    rw [hne]
    exact List.nil_prefix
  · obtain ⟨j, hj, hlead, hjt, hlast⟩ := hheld hterm hacc hall hne
    have hjk : j ≤ k := Nat.lt_succ_iff.mp (List.mem_range.mp hj)
    rw [← hjt]
    exact prefix_of_held (ht.kept j hjk) (ht.kept k le_rfl) (ht.le j k hjk le_rfl) hlead hlast hne

theorem Tracked.permits (ht : Tracked configs boot mode reconfig s acts k hs)
    (hr : Respects mode reconfig s acts) {a : Action} (ha : acts[k]? = some a) :
    (s.moment acts k).Permits (guardsAt mode reconfig (hs k)) a := by
  refine ⟨fun n hn => hr.crossable k a n ha hn, ?_⟩
  cases a with
  | deliver i => exact fun msg hmsg => ht.absorb hr.truthful ha hmsg
  | proposeConfigChange n change =>
    intro hl
    obtain ⟨hg, hmode, hown⟩ := hr.changes k n change ha hl
    -- nodes keep the settings they were built with
    have hsame := ((ht.sound k le_rfl).config n).trans ((ht.sound 0 (Nat.zero_le k)).config n).symm
    exact ⟨hg, fun _ => ⟨by rw [hsame]; exact hmode, hown⟩⟩
  | _ => trivial

/-- The next moment has a history too. -/
theorem Tracked.next (ht : Tracked configs boot mode reconfig s acts k hs)
    (hr : Respects mode reconfig s acts) :
    (s.moment acts (k + 1)).Sound configs boot ∧ ∃ h', History.Le (hs k) h' ∧
      Kept boot mode reconfig (s.moment acts (k + 1)).world h' ∧
      Reads (s.moment acts (k + 1)).world h' := by
  cases ha : acts[k]? with
  | none =>
    rw [moment_beyond s acts ha]
    exact ⟨ht.sound k le_rfl, hs k, History.Le.refl _, ht.kept k le_rfl, ht.reads k le_rfl⟩
  | some a =>
    rw [moment_succ s acts ha]
    obtain ⟨hsteps, hsound⟩ := step_refines (ht.sound k le_rfl) (ht.permits hr ha)
    refine ⟨hsound, ?_⟩
    exact Kept.steps_reads (g := guardsAt mode reconfig (hs k)) (ht.kept k le_rfl) trivial
      (fun m log req hg hp hall => hg req hp hall) (ht.reads k le_rfl) hsteps

theorem Tracked.extend (ht : Tracked configs boot mode reconfig s acts k hs)
    (hsound : (s.moment acts (k + 1)).Sound configs boot) (hle : History.Le (hs k) h')
    (hk' : Kept boot mode reconfig (s.moment acts (k + 1)).world h')
    (hr' : Reads (s.moment acts (k + 1)).world h') :
    Tracked configs boot mode reconfig s acts (k + 1) (Function.update hs (k + 1) h') where
  sound := by
    intro j hj
    rcases Nat.le_succ_iff.mp hj with hj | rfl
    · exact ht.sound j hj
    · exact hsound
  kept := by
    intro j hj
    rcases Nat.le_succ_iff.mp hj with hj | rfl
    · rw [Function.update_of_ne (by omega)]
      exact ht.kept j hj
    · rw [Function.update_self]
      exact hk'
  reads := by
    intro j hj
    rcases Nat.le_succ_iff.mp hj with hj | rfl
    · rw [Function.update_of_ne (by omega)]
      exact ht.reads j hj
    · rw [Function.update_self]
      exact hr'
  le := by
    intro i j hij hj
    rcases Nat.le_succ_iff.mp hj with hj | rfl
    · rw [Function.update_of_ne (by omega), Function.update_of_ne (by omega)]
      exact ht.le i j hij hj
    · rw [Function.update_self]
      rcases Nat.le_succ_iff.mp hij with hi | rfl
      · rw [Function.update_of_ne (by omega)]
        exact (ht.le i k hi le_rfl).trans hle
      · rw [Function.update_self]
        exact History.Le.refl _

/-- Every moment of a run that respects the rules has a history. -/
theorem tracked_run (configs : NodeId → Config) (voters : List NodeId)
    (hr : Respects mode reconfig (init configs voters) acts) (k : ℕ) :
    ∃ hs, Tracked configs (Configuration.ofVoters voters) mode reconfig (init configs voters) acts k hs := by
  induction k with
  | zero =>
    refine ⟨fun _ => History.start, ?_, ?_, ?_, fun _ _ _ _ => History.Le.refl _⟩
    · intro j hj
      obtain rfl : j = 0 := by omega
      exact init_sound configs voters
    · intro j hj
      obtain rfl : j = 0 := by omega
      exact init_kept configs voters mode reconfig
    · intro j hj
      obtain rfl : j = 0 := by omega
      exact ⟨fun _ => NodeRead.of_not_leader (fun _ => RoleView.noConfusion),
        fun _ hm => absurd hm List.not_mem_nil⟩
  | succ k ih =>
    obtain ⟨hs, ht⟩ := ih
    obtain ⟨hsound, h', hle, hk', hr'⟩ := ht.next hr
    exact ⟨_, ht.extend hsound hle hk' hr'⟩

/-- What every protocol step preserves, later moments have when an earlier one has it. -/
theorem run_invariant (configs : NodeId → Config) (voters : List NodeId)
    (hr : Respects mode reconfig (init configs voters) acts) {P : World → Prop}
    (hP : ∀ g w w', World.Step g w w' → P w → P w') {j k : ℕ} (hjk : j ≤ k)
    (hj : P ((init configs voters).moment acts j).world) :
    P ((init configs voters).moment acts k).world := by
  induction k, hjk using Nat.le_induction with
  | base => exact hj
  | succ k _ ih =>
    cases ha : acts[k]? with
    | none =>
      rw [moment_beyond _ acts ha]
      exact ih
    | some a =>
      rw [moment_succ _ acts ha]
      obtain ⟨hs, ht⟩ := tracked_run configs voters hr k
      have hsteps := (step_refines (ht.sound k le_rfl) (ht.permits hr ha)).1
      generalize (((init configs voters).moment acts k).step a).world = w' at hsteps ⊢
      induction hsteps with
      | refl => exact ih
      | tail _ hlast ih' => exact hP _ _ _ hlast ih'

/-- A truthful run with fixed membership respects the rules: it has no configuration
entries at all. -/
theorem fixed_respects (configs : NodeId → Config) (voters : List NodeId)
    (hfix : FixedMembership acts) (htrue : (init configs voters).Truthful acts) :
    Respects .singleServer False (init configs voters) acts where
  truthful := htrue
  crossable := by
    intro k a n ha hn
    obtain ⟨-, h, -, hs, hc⟩ := fixed_run (init_sound configs voters) (init_sim configs voters)
      (start_commands _) (FixedMembership.moment hfix k)
    exact (fixed_permits hs hc (hfix a (List.mem_of_getElem? ha))).1 n hn
  changes := by
    intro k n change ha
    exact absurd (hfix _ (List.mem_of_getElem? ha)) Bool.noConfusion

end Cluster
end BasisDB.Raft
