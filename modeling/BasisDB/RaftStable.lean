import BasisDB.RaftSafety
import BasisDB.RaftEvolvesNode
import BasisDB.RaftRepairRounds

/-! Committed entries are stable: no step of a truthful run takes a committed entry away from
the node that has committed it, and without a restart its commit index only goes up. -/
namespace BasisDB.Raft
open ReplicatedLog

variable {boot : Configuration} {mode : MembershipMode} {reconfig : Prop} {g : Guards}
  {h : History NodeId Entry} {w w' : World} {n : NodeId}

/-- What a protocol step leaves of a node whose first `c` entries are secured. -/
structure Keeping (c : ℕ) (v v' : View) : Prop where
  term : v.term ≤ v'.term
  length : c ≤ v'.log.entries.length
  take : v'.log.entries.take c = v.log.entries.take c

theorem Keeping.trans {c : ℕ} {v v' v'' : View} (h : Keeping c v v') (h' : Keeping c v' v'') :
    Keeping c v v'' :=
  ⟨h.term.trans h'.term, h'.length, h'.take.trans h.take⟩

/-- One small step: only an append request could cut the log, and its leader has what is
secured. -/
theorem Kept.micro_keeps (hk : Kept boot mode reconfig w h) {c : ℕ} {v : View} {net : Set Message}
    (hm : Micro g n (w.views n) w.net v net)
    (hsec : Secured h (w.views n).term (w.views n).log.entries c) : Keeping c (w.views n) v := by
  have happend (e : Entry) :
      Keeping c (w.views n) ((w.views n).setLog ((w.views n).log.append e)) := by
    refine ⟨le_rfl, ?_, List.take_append_of_le_length hsec.1⟩
    exact hsec.1.trans (List.prefix_append _ _).length_le
  cases hm with
  | observe t ht => exact ⟨ht.le, hsec.1, rfl⟩
  | campaign => exact ⟨Nat.le_succ _, hsec.1, rfl⟩
  | absorb m req hm hp ht hr hacc hg log hlog i hi =>
    have hmsg := hk.sim.net m hm
    simp only [MsgOk, hp] at hmsg
    have hlead : h.leader (w.views n).term ≠ none := by
      rw [← ht, hmsg.1]
      simp
    have hcase : ∃ k, log.entries = (w.views n).log.entries ∨
        (log.entries = (h.leaderLog (w.views n).term).take k ∧
          ¬(h.leaderLog (w.views n).term).take k <+: (w.views n).log.entries) := by
      rw [hlog, ← ht]
      rcases hk.sim.absorbed hk.formed hm hp hacc with ⟨heq, -⟩ | ⟨k, heq, -, hnot⟩
      · exact ⟨0, Or.inl (by rw [heq])⟩
      · exact ⟨k, Or.inr ⟨heq, hnot⟩⟩
    obtain ⟨k, hcase⟩ := hcase
    obtain ⟨hle, htake⟩ := hsec.absorbed_keeps hk.sim.inv hk.complete hlead hcase
    exact ⟨le_rfl, hle, htake⟩
  | appendCommand l cmd => exact happend _
  | appendConfig l c' => exact happend _
  | _ => exact ⟨le_rfl, hsec.1, rfl⟩

theorem Kept.step_keeps (hk : Kept boot mode reconfig w h) {c : ℕ} (hstep : World.Step g w w')
    (hsec : Secured h (w.views n).term (w.views n).log.entries c) :
    Keeping c (w.views n) (w'.views n) := by
  obtain ⟨hm⟩ := hstep
  rename_i p v net
  by_cases hp : n = p
  · subst hp
    rw [World.set_views_self]
    exact hk.micro_keeps hm hsec
  · rw [World.set_views_ne _ _ _ hp]
    exact ⟨le_rfl, hsec.1, rfl⟩

theorem Secured.keeping {c : ℕ} {v v' : View} (hsec : Secured h v.term v.log.entries c)
    (hk : Keeping c v v') : Secured h v'.term v'.log.entries c :=
  hsec.of_take hk.term hk.length hk.take

/-- Any number of protocol steps. -/
theorem Kept.steps_keep (hk : Kept boot g.mode g.reconfig w h) (hs : g.strict) (hf : Faithful g h)
    {c : ℕ} (hsteps : Relation.ReflTransGen (World.Step g) w w')
    (hsec : Secured h (w.views n).term (w.views n).log.entries c) :
    Keeping c (w.views n) (w'.views n) := by
  have hall : ∃ h', History.Le h h' ∧ Kept boot g.mode g.reconfig w' h' ∧
      Keeping c (w.views n) (w'.views n) := by
    induction hsteps with
    | refl => exact ⟨h, History.Le.refl h, hk, le_rfl, hsec.1, rfl⟩
    | tail _ hlast ih =>
      obtain ⟨h₁, hle, hk₁, hkeep⟩ := ih
      obtain ⟨h₂, hle', hk₂⟩ := hk₁.step hs (hf.mono hle) hlast
      have hsec₁ := (hsec.mono hk.sim.inv hle).keeping hkeep
      exact ⟨h₂, hle.trans hle', hk₂, hkeep.trans (hk₁.step_keeps hlast hsec₁)⟩
  obtain ⟨-, -, -, hkeep⟩ := hall
  exact hkeep

namespace Cluster
variable {configs : NodeId → Config} {s : Cluster} {acts : List Action} {k : ℕ}
  {hs : ℕ → History NodeId Entry}

/-- One action of a run that respects the rules. -/
theorem Tracked.step_keeps (ht : Tracked configs boot mode reconfig s acts k hs)
    (hr : Respects mode reconfig s acts) {c : ℕ}
    (hsec : Secured (hs k) (((s.moment acts k).nodes n).view).term
      ((s.moment acts k).nodes n).view.log.entries c) :
    Keeping c ((s.moment acts k).nodes n).view ((s.moment acts (k + 1)).nodes n).view := by
  cases ha : acts[k]? with
  | none =>
    rw [moment_beyond s acts ha]
    exact ⟨le_rfl, hsec.1, rfl⟩
  | some a =>
    rw [moment_succ s acts ha]
    have hsteps := (step_refines (ht.sound k le_rfl) (ht.permits hr ha)).1
    exact Kept.steps_keep (g := guardsAt mode reconfig (hs k)) (ht.kept k le_rfl) trivial
      (fun m log req hg hp hall => hg req hp hall) hsteps hsec

/-- What a node has committed at one moment it holds at every later one. -/
theorem committed_kept (configs : NodeId → Config) (voters : List NodeId)
    (hr : Respects mode reconfig (init configs voters) acts) (n : NodeId) {j k : ℕ} (hjk : j ≤ k) :
    Keeping (((init configs voters).moment acts j).nodes n).commitIndex
      (((init configs voters).moment acts j).nodes n).view
      (((init configs voters).moment acts k).nodes n).view := by
  induction k, hjk using Nat.le_induction with
  | base =>
    obtain ⟨hs, ht⟩ := tracked_run configs voters hr j
    exact ⟨le_rfl, ((ht.kept j le_rfl).acked.nodes n).secured.1, rfl⟩
  | succ k hjk ih =>
    obtain ⟨hs, ht⟩ := tracked_run configs voters hr k
    have hsec := ((ht.kept j hjk).acked.nodes n).secured.mono (ht.kept j hjk).sim.inv
      (ht.le j k hjk le_rfl)
    exact ih.trans (ht.step_keeps hr (hsec.keeping ih))

end Cluster

/-- A follower's log after an append request it accepts. -/
theorem RaftNode.step_append_log {node : RaftNode} {f : Follower} {msg : Message}
    {req : AppendRequest} (hr : node.role = .follower f) (hp : msg.payload = .appendRequest req)
    (hterm : node.term ≤ msg.term) (hacc : Follower.accepts node.log req = true) :
    (node.step msg).1.log = (Follower.appendEntries node.log req.entries).1 := by
  have hcurrent (f : Follower) (core : Core) (hlog : core.log = node.log) :
      (f.handleCurrent core msg).core.log = (Follower.appendEntries node.log req.entries).1 ∧
      (f.handleCurrent core msg).result.transition = .stay := by
    have hspec := (Follower.handleAppendRequest_spec f core msg.sender req).2.1
    rw [Follower.logAfter, hlog, hacc, if_pos rfl] at hspec
    have hdispatch : f.handleCurrent core msg = f.handleAppendRequest core msg.sender req := by
      unfold Follower.handleCurrent
      rw [hp]
    rw [hdispatch]
    refine ⟨hspec, ?_⟩
    unfold Follower.handleAppendRequest
    dsimp only
    split_ifs <;> rfl
  have hmessage : (f.handleMessage node.core msg).core.log =
      (Follower.appendEntries node.log req.entries).1 ∧
      (f.handleMessage node.core msg).result.transition = .stay := by
    unfold Follower.handleMessage
    rw [hp]
    simp only [Payload.isVoteSolicitation, Bool.false_and, Bool.false_eq_true, if_false]
    by_cases hlt : node.core.term < msg.term
    · rw [if_pos hlt]
      refine hcurrent _ _ ?_
      rw [Core.log, (Follower.observeTerm_core f node.core msg).1, Core.maybeUpdateTerm]
      split_ifs <;> rfl
    · have hge : ¬msg.term < node.core.term := not_lt.mpr hterm
      rw [if_neg hlt, if_neg hge]
      exact hcurrent f node.core rfl
  unfold RaftNode.step RaftNode.stepEvent
  rw [hr]
  simp only [Follower.step, RaftNode.settle, hmessage.2]
  exact hmessage.1

namespace Cluster
variable {s : Cluster}

/-- No action but a restart lowers a commit index that the new log still reaches. -/
theorem step_commit {a : Action} (ha : a ≠ .restart n)
    (hlen : (s.nodes n).commitIndex ≤ ((s.step a).nodes n).log.lastIndex) :
    (s.nodes n).commitIndex ≤ ((s.step a).nodes n).commitIndex := by
  have heffects (p : NodeId) (r : RaftNode × Effects)
      (hr : p = n → Evolves False True (s.nodes n).core r.1.core r.2) :
      (s.nodes n).commitIndex ≤ ((s.handleEffects p r).nodes n).commitIndex := by
    by_cases hp : n = p
    · subst hp
      simp only [handleEffects, Function.update_self]
      exact (hr rfl).commit trivial
    · simp only [handleEffects, Function.update_of_ne hp]
      exact le_rfl
  have hcall {ε α : Type} (p : NodeId) (res : Except ε (α × Effects × RaftNode))
      (hr : ∀ x eff n', p = n → res = .ok (x, eff, n') →
        Evolves False True (s.nodes n).core n'.core eff) :
      (s.nodes n).commitIndex ≤ ((s.handleCall p res).nodes n).commitIndex := by
    cases res with
    | error e => exact le_rfl
    | ok r => exact heffects p (r.2.2, r.2.1) (fun hp => hr r.1 r.2.1 r.2.2 hp rfl)
  have hmessage (msg : Message)
      (hreach : (s.nodes n).commitIndex ≤ ((s.deliverMessage msg).nodes n).log.lastIndex) :
      (s.nodes n).commitIndex ≤ ((s.deliverMessage msg).nodes n).commitIndex := by
    refine heffects msg.receiver _ ?_
    rintro rfl
    refine RaftNode.stepEvent_evolves _ _ ?_
    intro f msg' hrole hevent
    cases hevent
    refine ⟨False.elim, ?_⟩
    intro _ req hp hterm hacc
    have hlog : (Follower.appendEntries (s.nodes msg.receiver).core.log req.entries).1 =
        ((s.nodes msg.receiver).step msg).1.log :=
      (RaftNode.step_append_log hrole hp hterm hacc).symm
    rw [hlog]
    simp only [deliverMessage, handleEffects, Function.update_self] at hreach
    exact hreach
  cases a with
  | tick p =>
    refine heffects p _ ?_
    rintro rfl
    exact RaftNode.stepEvent_evolves _ _ (fun _ _ _ hevent => by cases hevent)
  | deliver i =>
    simp only [step] at hlen ⊢
    cases hi : s.net[i]? with
    | none => exact le_rfl
    | some msg =>
      simp only [hi] at hlen
      exact hmessage msg hlen
  | timeoutNow sender receiver term => exact hmessage _ hlen
  | propose p cmd =>
    refine hcall p _ ?_
    rintro x eff n' rfl h
    exact RaftNode.propose_evolves h
  | proposeConfigChange p change =>
    refine hcall p _ ?_
    rintro x eff n' rfl h
    exact RaftNode.proposeConfigChange_evolves h
  | requestReadIndex p =>
    refine hcall p _ ?_
    rintro x eff n' rfl h
    exact RaftNode.requestReadIndex_evolves h
  | transferLeadership p target =>
    simp only [step]
    cases hres : (s.nodes p).transferLeadership target with
    | error e => exact le_rfl
    | ok eff =>
      refine heffects p _ ?_
      rintro rfl
      exact RaftNode.transferLeadership_evolves hres
  | diskWriteComplete p index =>
    refine heffects p _ ?_
    rintro rfl
    exact RaftNode.stepEvent_evolves _ _ (fun _ _ _ hevent => by cases hevent)
  | advance p appliedTo =>
    by_cases hp : n = p
    · subst hp
      simp only [step, setNode, Function.update_self]
      exact le_rfl
    · simp only [step, setNode, Function.update_of_ne hp]
      exact le_rfl
  | restart p =>
    have hp : n ≠ p := by
      rintro rfl
      exact ha rfl
    simp only [step, setNode, Function.update_of_ne hp]
    exact le_rfl

theorem commit_monotone (configs : NodeId → Config) (voters : List NodeId) {acts : List Action}
    (hr : Respects mode reconfig (init configs voters) acts) (n : NodeId) {j k : ℕ} (hjk : j ≤ k)
    (hstay : ∀ i, j ≤ i → i < k → acts[i]? ≠ some (.restart n)) :
    (((init configs voters).moment acts j).nodes n).commitIndex ≤
      (((init configs voters).moment acts k).nodes n).commitIndex := by
  induction k, hjk using Nat.le_induction with
  | base => exact le_rfl
  | succ k hjk ih =>
    refine (ih (fun i hi hik => hstay i hi (by omega))).trans ?_
    have hkept := committed_kept configs voters hr n (Nat.le_succ k)
    cases ha : acts[k]? with
    | none => rw [moment_beyond _ acts ha]
    | some a =>
      have hne : a ≠ .restart n := by
        rintro rfl
        exact hstay k hjk (Nat.lt_succ_self k) ha
      obtain ⟨hs, ht⟩ := tracked_run configs voters hr (k + 1)
      have hplain : (((init configs voters).moment acts (k + 1)).nodes n).log.Plain :=
        ((ht.kept (k + 1) le_rfl).formed.views n).plain
      have hlen := hkept.length
      rw [moment_succ _ acts ha] at hplain hlen ⊢
      refine step_commit hne ?_
      rw [hplain.lastIndex]
      exact hlen

end Cluster

/-- `proposal_limit_exceeded` with its assertion: `none` is the panic. -/
def Core.checkedProposalLimit (core : Core) (command : Command) : Option Bool :=
  if core.commitIndex ≤ core.log.lastIndex then some (core.proposalLimitExceeded command) else none

namespace Cluster

/-- Committed entries are stable: in a truthful run the commit index stays within the log, and
from one moment to a later one without a restart of the node it does not go down and every
committed entry stays in place. -/
theorem committed_entries_stable (configs : NodeId → Config) (voters : List NodeId)
    (acts : List Action) (hfix : FixedMembership acts)
    (htrue : (init configs voters).Truthful acts) (n : NodeId) (j k : ℕ) (hjk : j ≤ k)
    (hstay : ∀ i, j ≤ i → i < k → acts[i]? ≠ some (.restart n)) :
    (((init configs voters).moment acts j).nodes n).commitIndex ≤
        (((init configs voters).moment acts j).nodes n).log.lastIndex ∧
      (((init configs voters).moment acts j).nodes n).commitIndex ≤
        (((init configs voters).moment acts k).nodes n).commitIndex ∧
      (∀ i, 0 < i → i ≤ (((init configs voters).moment acts j).nodes n).commitIndex →
        ∃ e, (((init configs voters).moment acts j).nodes n).log.get i = some e ∧
          (((init configs voters).moment acts k).nodes n).log.get i = some e) ∧
      ∀ cmd, ((((init configs voters).moment acts j).nodes n).core.checkedProposalLimit cmd).isSome =
        true := by
  have hr := fixed_respects configs voters hfix htrue
  obtain ⟨hs, ht⟩ := tracked_run configs voters hr k
  have hplain (i : ℕ) (hi : i ≤ k) : (((init configs voters).moment acts i).nodes n).log.Plain :=
    ((ht.kept i hi).formed.views n).plain
  have hbound : (((init configs voters).moment acts j).nodes n).commitIndex ≤
      (((init configs voters).moment acts j).nodes n).log.lastIndex := by
    rw [(hplain j hjk).lastIndex]
    exact ((ht.kept j hjk).acked.nodes n).secured.1
  refine ⟨hbound, commit_monotone configs voters hr n hjk hstay, ?_, ?_⟩
  · intro i hi hic
    have htake := (committed_kept configs voters hr n hjk).take
    have hshort := congrArg (List.take i) htake
    rw [List.take_take, List.take_take, min_eq_left hic] at hshort
    rw [(hplain j hjk).lastIndex] at hbound
    exact (hplain j hjk).get_of_take (hplain k le_rfl) hi (hic.trans hbound) hshort.symm
  · intro cmd
    have hassert : (((init configs voters).moment acts j).nodes n).core.commitIndex ≤
        (((init configs voters).moment acts j).nodes n).core.log.lastIndex := hbound
    rw [Core.checkedProposalLimit, if_pos hassert]
    rfl

theorem committed_entries_stable_pairRun :
    1 ≤ (((init quickConfig [0, 1]).moment pairRun 6).nodes 0).commitIndex ∧
      ∃ e, (((init quickConfig [0, 1]).moment pairRun 6).nodes 0).log.get 1 = some e ∧
        (((init quickConfig [0, 1]).moment pairRun 8).nodes 0).log.get 1 = some e :=
  ⟨by decide +kernel, (committed_entries_stable quickConfig [0, 1] pairRun (by decide)
    (by decide +kernel) 0 6 8 (by decide) (by
      intro i hi hi'
      interval_cases i <;> simp [pairRun])).2.2.1 1 Nat.one_pos (by decide +kernel)⟩

/-- Node 0 leads term 1 and appends two commands that reach nobody. Node 1 leads term 2 with
an empty log, takes node 0's answer to its heartbeat for both indices, and commits two commands
of its own, of which node 2 gets the first. Node 2, elected in term 4, then replaces the second. -/
def overwrittenCommit : List Action :=
  [.tick 0, .deliver 0, .deliver 2, .propose 0 ⟨[7]⟩, .propose 0 ⟨[7]⟩, .tick 1, .deliver 10,
    .deliver 11, .deliver 12, .deliver 12, .deliver 14, .propose 1 ⟨[8]⟩, .deliver 16,
    .propose 1 ⟨[9]⟩, .tick 0, .tick 2, .tick 2, .deliver 24, .deliver 24, .deliver 26,
    .propose 2 ⟨[10]⟩, .deliver 30, .deliver 30]

/-- A committed entry is replaced by another one. -/
theorem overwrittenCommit_replaces :
    FixedMembership overwrittenCommit ∧
      2 ≤ (((init quickConfig [0, 1, 2]).moment overwrittenCommit 14).nodes 1).commitIndex ∧
      (((init quickConfig [0, 1, 2]).moment overwrittenCommit 14).nodes 1).log.get 2 =
        some ⟨2, 2, .command ⟨[9]⟩⟩ ∧
      (((init quickConfig [0, 1, 2]).moment overwrittenCommit 23).nodes 1).log.get 2 =
        some ⟨4, 2, .command ⟨[10]⟩⟩ := by
  decide +kernel

end Cluster
end BasisDB.Raft
