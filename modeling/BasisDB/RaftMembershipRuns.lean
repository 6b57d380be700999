import BasisDB.CommandRuns
import BasisDB.RaftQuorum
import BasisDB.RaftLeader

/-! Chains of membership changes: quorums along them meet, and which of them keep
voters and learners apart, so that a broadcast reaches every peer once. -/
namespace BasisDB.Raft

/-- Quorums of a configuration meet those of every change of it that `validate` lets
through, and those of the end of a joint phase; two quorums of one configuration meet. -/
theorem consecutive_quorums_meet :
    (∀ (voters learners : OrdSet NodeId) (mode : MembershipMode) (change : ConfigChange)
      (V W : NodeId → Bool), voters.isEmpty = false →
      change.validate (.simple voters learners) mode = .ok () →
      (Configuration.simple voters learners).hasQuorum V = true →
      (change.apply (.simple voters learners) mode).hasQuorum W = true →
      ∃ id, V id = true ∧ W id = true) ∧
    (∀ (old new learners : OrdSet NodeId) (target : Configuration) (V W : NodeId → Bool),
      old.isEmpty = false → new.isEmpty = false →
      (Configuration.joint old new learners).transitionTarget = some target →
      (Configuration.joint old new learners).hasQuorum V = true → target.hasQuorum W = true →
      ∃ id, V id = true ∧ W id = true) ∧
    ∀ (c : Configuration) (V W : NodeId → Bool), c.hasQuorum V = true → c.hasQuorum W = true →
      ∃ id, V id = true ∧ W id = true := by
  refine ⟨?_, ?_, ?_⟩
  · intro voters learners mode change V W _ hvalid hV hW
    have hlegal : Legal mode (.simple voters learners)
        (change.apply (.simple voters learners) mode) := Or.inl ⟨change, hvalid, rfl⟩
    exact Configuration.legal_meet hlegal V W hV hW
  · intro old new learners target V W _ _ htarget hV hW
    -- the mode plays no part in the end of a joint phase
    have hlegal : Legal .jointConsensus (.joint old new learners) target := Or.inr htarget
    exact Configuration.legal_meet hlegal V W hV hW
  · intro c V W hV hW
    exact c.hasQuorum_self V W hV hW

/-- Learner 3 becomes a voter: a quorum of three voters meets a quorum of four. -/
theorem consecutive_quorums_meet_promotion :
    (ConfigChange.addVoter 3).validate (.simple (OrdSet.ofList [0, 1, 2]) (OrdSet.ofList [3]))
      .singleServer = .ok () ∧
    ∃ id : NodeId, decide (id ≤ 1) = true ∧ decide (1 ≤ id) = true :=
  ⟨by decide, consecutive_quorums_meet.1 (OrdSet.ofList [0, 1, 2]) (OrdSet.ofList [3])
    .singleServer (.addVoter 3) (fun id => decide (id ≤ 1)) (fun id => decide (1 ≤ id))
    (by decide) (by decide) (by decide) (by decide)⟩

/-- One step of a chain of configurations. -/
inductive Reconfiguration where
  | change (change : ConfigChange) (mode : MembershipMode)
  | transition

/-- A change is validated and then applied, a joint configuration gives way to its target;
what is refused leaves the configuration as it is. -/
def reconfigure (c : Configuration) : Reconfiguration → Configuration × Option ConfigChangeError
  | .change change mode =>
    match change.validate c mode with
    | .ok () => (change.apply c mode, none)
    | .error e => (c, some e)
  | .transition => (c.transitionTarget.getD c, none)

namespace Effects

def messagesTo (e : Effects) (peer : NodeId) : List Message :=
  e.messages.filter (fun m => decide (m.receiver = peer))

def snapshotsTo (e : Effects) (peer : NodeId) : List SendSnapshot :=
  e.sendSnapshots.filter (fun s => decide (s.receiver = peer))

@[simp] theorem messagesTo_merge (e e' : Effects) (peer : NodeId) :
    (e.merge e').messagesTo peer = e.messagesTo peer ++ e'.messagesTo peer :=
  List.filter_append ..

@[simp] theorem snapshotsTo_merge (e e' : Effects) (peer : NodeId) :
    (e.merge e').snapshotsTo peer = e.snapshotsTo peer ++ e'.snapshotsTo peer :=
  List.filter_append ..

end Effects

namespace Leader

/-- Exactly one `AppendRequest` is sent to the peer; a peer whose next entry has been
compacted is sent one snapshot instead. -/
def SendsOnce (l : Leader) (core : Core) (eff : Effects) (peer : NodeId) : Prop :=
  if (l.nextIndex.get peer).getD 1 ≤ core.log.snapshotIndex then
    eff.messagesTo peer = [] ∧ (eff.snapshotsTo peer).length = 1
  else
    (∃ req, eff.messagesTo peer = [core.message peer (.appendRequest req)]) ∧
      eff.snapshotsTo peer = []

variable (core : Core) {peer : NodeId}

theorem sendAppendTo_sendsOnce (l : Leader) :
    l.SendsOnce core (l.sendAppendTo core peer).2 peer := by
  unfold SendsOnce sendAppendTo
  by_cases hle : (l.nextIndex.get peer).getD 1 ≤ core.log.snapshotIndex
  · rw [if_pos hle, if_pos hle]
    simp [Effects.messagesTo, Effects.snapshotsTo, Effects.withSendSnapshot, Effects.none]
  · rw [if_neg hle, if_neg hle]
    simp [Effects.messagesTo, Effects.snapshotsTo, Effects.withMessage, Effects.none, Core.message]

theorem sendAppendTo_elsewhere (l : Leader) {receiver : NodeId} (hne : receiver ≠ peer) :
    (l.sendAppendTo core receiver).2.messagesTo peer = [] ∧
      (l.sendAppendTo core receiver).2.snapshotsTo peer = [] ∧
      (l.sendAppendTo core receiver).1.nextIndex.get peer = l.nextIndex.get peer := by
  unfold sendAppendTo
  by_cases hle : (l.nextIndex.get receiver).getD 1 ≤ core.log.snapshotIndex
  · rw [if_pos hle]
    simp [Effects.messagesTo, Effects.snapshotsTo, Effects.withSendSnapshot, Effects.none, hne]
  · rw [if_neg hle]
    refine ⟨?_, ?_, ?_⟩
    · simp [Effects.messagesTo, Effects.withMessage, Effects.none, Core.message, hne]
    · simp [Effects.snapshotsTo, Effects.withMessage, Effects.none]
    · dsimp only
      split_ifs
      · exact OrdMap.get_insert_ne _ _ hne
      · rfl

/-- Sends to other peers leave alone what has been sent to this one. -/
theorem sendAppends_elsewhere (peers : List NodeId) (hpeers : peer ∉ peers)
    (acc : Leader × Effects) :
    (peers.foldl (sendAppends core) acc).2.messagesTo peer = acc.2.messagesTo peer ∧
      (peers.foldl (sendAppends core) acc).2.snapshotsTo peer = acc.2.snapshotsTo peer ∧
      (peers.foldl (sendAppends core) acc).1.nextIndex.get peer = acc.1.nextIndex.get peer := by
  induction peers generalizing acc with
  | nil => exact ⟨rfl, rfl, rfl⟩
  | cons receiver peers ih =>
    obtain ⟨hne, hpeers⟩ := not_or.mp (mt List.mem_cons.mpr hpeers)
    obtain ⟨hm, hs, hn⟩ := sendAppendTo_elsewhere core acc.1 (Ne.symm hne)
    obtain ⟨ihm, ihs, ihn⟩ := ih hpeers (sendAppends core acc receiver)
    refine ⟨?_, ?_, ihn.trans hn⟩
    · rw [List.foldl_cons, ihm, sendAppends, Effects.messagesTo_merge, hm, List.append_nil]
    · rw [List.foldl_cons, ihs, sendAppends, Effects.snapshotsTo_merge, hs, List.append_nil]

theorem broadcastAppend_sendsOnce (l : Leader)
    (hnodup : (core.effectiveConfig.replicationPeers core.id).Nodup)
    (hmem : peer ∈ core.effectiveConfig.replicationPeers core.id) :
    l.SendsOnce core (l.broadcastAppend core).2 peer := by
  obtain ⟨before, after, hsplit⟩ := List.append_of_mem hmem
  rw [hsplit] at hnodup
  have hnotin := (List.nodup_middle.mp hnodup).notMem
  have hbefore : peer ∉ before := fun h => hnotin (List.mem_append_left _ h)
  have hafter : peer ∉ after := fun h => hnotin (List.mem_append_right _ h)
  -- the fold splits at the peer: nothing before, one send, nothing after
  obtain ⟨hm, hs, hn⟩ := sendAppends_elsewhere core before hbefore (l, Effects.none)
  obtain ⟨hm', hs', _⟩ := sendAppends_elsewhere core after hafter
    (sendAppends core (before.foldl (sendAppends core) (l, Effects.none)) peer)
  have hsend : SendsOnce (before.foldl (sendAppends core) (l, Effects.none)).1 core
      ((before.foldl (sendAppends core) (l, Effects.none)).1.sendAppendTo core peer).2 peer :=
    sendAppendTo_sendsOnce core _
  unfold broadcastAppend
  rw [hsplit, List.foldl_append, List.foldl_cons]
  unfold SendsOnce at hsend ⊢
  rw [hn] at hsend
  rw [hm', hs', sendAppends, Effects.messagesTo_merge, Effects.snapshotsTo_merge, hm, hs]
  exact hsend

end Leader

namespace Configuration

/-- The voter set is not empty; of a joint configuration, neither of the two. -/
def hasVoters : Configuration → Bool
  | simple voters _ => !voters.isEmpty
  | joint old new _ => !old.isEmpty && !new.isEmpty

/-- What a configuration in use has to satisfy. -/
structure WellFormed (c : Configuration) : Prop where
  hasVoters : c.hasVoters = true
  disjoint : ∀ id, ¬(c.isVoter id = true ∧ c.isLearner id = true)
  peers : ∀ me id, (c.replicationPeers me).count id =
    if c.isMember id = true ∧ id ≠ me then 1 else 0
  broadcast : ∀ (l : Leader) (core : Core), core.effectiveConfig = c → ∀ peer,
    c.isMember peer = true → peer ≠ core.id → l.SendsOnce core (l.broadcastAppend core).2 peer

theorem mem_voters (c : Configuration) (id : NodeId) : id ∈ c.voters ↔ c.isVoter id = true := by
  cases c with
  | simple voters learners => exact (OrdSet.contains_iff voters id).symm
  | joint old new learners =>
    simp only [voters, isVoter, List.mem_append, List.mem_filter, Bool.or_eq_true,
      OrdSet.contains_iff, Bool.not_eq_true', OrdSet.contains_eq_false, ← OrdSet.mem_def]
    tauto

theorem mem_learners (c : Configuration) (id : NodeId) :
    id ∈ c.learners ↔ c.isLearner id = true := by
  cases c with
  | simple voters learners => exact (OrdSet.contains_iff learners id).symm
  | joint old new learners => exact (OrdSet.contains_iff learners id).symm

theorem nodup_voters (c : Configuration) : c.voters.Nodup := by
  cases c with
  | simple voters learners => exact voters.nodup
  | joint old new learners =>
    apply old.nodup.append (new.nodup.filter _)
    intro id hold hnew
    have hnot := (List.mem_filter.mp hnew).2
    simp only [Bool.not_eq_true', OrdSet.contains_eq_false] at hnot
    exact hnot hold

theorem nodup_learners (c : Configuration) : c.learners.Nodup := by
  cases c with
  | simple voters learners => exact learners.nodup
  | joint old new learners => exact learners.nodup

theorem mem_replicationPeers (c : Configuration) (me id : NodeId) :
    id ∈ c.replicationPeers me ↔ c.isMember id = true ∧ id ≠ me := by
  simp only [replicationPeers, allNodes, isMember, List.mem_filter, List.mem_append, mem_voters,
    mem_learners, Bool.or_eq_true, bne_iff_ne]

/-- Peers are listed once as soon as no voter is a learner. -/
theorem nodup_replicationPeers {c : Configuration}
    (h : ∀ id, ¬(c.isVoter id = true ∧ c.isLearner id = true)) (me : NodeId) :
    (c.replicationPeers me).Nodup := by
  apply List.Nodup.filter
  apply c.nodup_voters.append c.nodup_learners
  intro id hv hl
  exact h id ⟨(c.mem_voters id).mp hv, (c.mem_learners id).mp hl⟩

theorem wellFormed_of_disjoint {c : Configuration} (hv : c.hasVoters = true)
    (h : ∀ id, ¬(c.isVoter id = true ∧ c.isLearner id = true)) : c.WellFormed where
  hasVoters := hv
  disjoint := h
  peers := by
    intro me id
    by_cases hmem : id ∈ c.replicationPeers me
    · rw [List.count_eq_one_of_mem (nodup_replicationPeers h me) hmem,
        if_pos ((c.mem_replicationPeers me id).mp hmem)]
    · rw [List.count_eq_zero_of_not_mem hmem,
        if_neg (fun hm => hmem ((c.mem_replicationPeers me id).mpr hm))]
  broadcast := by
    intro l core hcore peer hpeer hne
    have hmem := (c.mem_replicationPeers core.id peer).mpr ⟨hpeer, hne⟩
    subst hcore
    exact l.broadcastAppend_sendsOnce core (nodup_replicationPeers h core.id) hmem

theorem wellFormed_simple {voters learners : OrdSet NodeId} (hv : voters.isEmpty = false)
    (h : ∀ id ∈ voters, id ∉ learners) : (simple voters learners).WellFormed := by
  apply wellFormed_of_disjoint
  · simp [hasVoters, hv]
  · rintro id ⟨hvoter, hlearner⟩
    exact h id ((OrdSet.contains_iff _ _).mp hvoter) ((OrdSet.contains_iff _ _).mp hlearner)

theorem wellFormed_simple_iff {voters learners : OrdSet NodeId} :
    (simple voters learners).WellFormed ↔
      voters.isEmpty = false ∧ ∀ id ∈ voters, id ∉ learners := by
  constructor
  · intro h
    refine ⟨by simpa [hasVoters] using h.hasVoters, ?_⟩
    intro id hvoter hlearner
    exact h.disjoint id
      ⟨(OrdSet.contains_iff _ _).mpr hvoter, (OrdSet.contains_iff _ _).mpr hlearner⟩
  · intro h
    exact wellFormed_simple h.1 h.2

theorem wellFormed_joint_iff {old new learners : OrdSet NodeId} :
    (joint old new learners).WellFormed ↔ (old.isEmpty = false ∧ new.isEmpty = false) ∧
      ∀ id ∈ learners, id ∉ old ∧ id ∉ new := by
  constructor
  · intro h
    refine ⟨by simpa [hasVoters] using h.hasVoters, ?_⟩
    intro id hlearner
    have hnot := h.disjoint id
    simp only [isVoter, isLearner, Bool.or_eq_true, OrdSet.contains_iff, not_and, hlearner,
      not_true_eq_false, imp_false, not_or] at hnot
    exact hnot
  · intro h
    apply wellFormed_of_disjoint
    · simp [hasVoters, h.1]
    · rintro id ⟨hvoter, hlearner⟩
      simp only [isVoter, isLearner, Bool.or_eq_true, OrdSet.contains_iff] at hvoter hlearner
      obtain ⟨hold, hnew⟩ := h.2 id hlearner
      exact hvoter.elim hold hnew

end Configuration

namespace Reconfiguration

/-- Entering a joint phase with a learner that votes in the old set. -/
def Demotes (c : Configuration) : Reconfiguration → Prop
  | .change (.setMembers members) .jointConsensus =>
    (ConfigChange.setMembers members).validate c .jointConsensus = .ok () ∧
      (ConfigChange.baseSets c).1 ≠ members.voters ∧
      ∃ id, id ∈ members.learners ∧ c.isVoter id = true
  | _ => False

end Reconfiguration

namespace ConfigChange

theorem validate_setMembers {members : Members} {voters learners : OrdSet NodeId}
    {mode : MembershipMode}
    (h : (setMembers members).validate (.simple voters learners) mode = .ok ()) :
    members.voters.isEmpty = false := by
  simp only [validate, validateMembers] at h
  split_ifs at h with _ _ hempty
  exact Bool.eq_false_iff.mpr hempty

/-- An accepted change keeps a simple configuration well formed, unless it demotes. -/
theorem apply_wellFormed_iff {change : ConfigChange} {voters learners : OrdSet NodeId}
    {mode : MembershipMode} (hc : (Configuration.simple voters learners).WellFormed)
    (hvalid : change.validate (.simple voters learners) mode = .ok ()) :
    (change.apply (.simple voters learners) mode).WellFormed ↔
      ¬(Reconfiguration.change change mode).Demotes (.simple voters learners) := by
  obtain ⟨hne, hdisj⟩ := Configuration.wellFormed_simple_iff.mp hc
  cases change with
  | addVoter id =>
    refine iff_of_true (Configuration.wellFormed_simple ?_ ?_) (fun h => h)
    · exact (OrdSet.isEmpty_eq_false _).mpr ⟨id, (OrdSet.mem_insert _ _ _).mpr (Or.inl rfl)⟩
    · intro x hx hl
      obtain ⟨hl, hxid⟩ := (OrdSet.mem_remove _ _ _).mp hl
      exact hdisj x (((OrdSet.mem_insert _ _ _).mp hx).resolve_left hxid) hl
  | removeVoter id =>
    simp only [validate] at hvalid
    split_ifs at hvalid with hin hlen
    have hmem : id ∈ voters := by simpa using hin
    obtain ⟨other, hother, hoid⟩ := OrdSet.exists_mem_ne hmem hlen
    refine iff_of_true (Configuration.wellFormed_simple ?_ ?_) (fun h => h)
    · exact (OrdSet.isEmpty_eq_false _).mpr ⟨other, (OrdSet.mem_remove _ _ _).mpr ⟨hother, hoid⟩⟩
    · intro x hx
      exact hdisj x ((OrdSet.mem_remove _ _ _).mp hx).1
  | addLearner id =>
    simp only [validate] at hvalid
    split_ifs at hvalid with hin _
    have hnot : id ∉ voters := by simpa using hin
    refine iff_of_true (Configuration.wellFormed_simple hne ?_) (fun h => h)
    intro x hx hl
    rcases (OrdSet.mem_insert _ _ _).mp hl with hid | hl
    · exact hnot (hid ▸ hx)
    · exact hdisj x hx hl
  | removeLearner id =>
    refine iff_of_true (Configuration.wellFormed_simple hne ?_) (fun h => h)
    intro x hx hl
    exact hdisj x hx ((OrdSet.mem_remove _ _ _).mp hl).1
  | setMembers members =>
    have hnew := validate_setMembers hvalid
    by_cases hj : mode = .jointConsensus ∧ voters ≠ members.voters
    · obtain ⟨rfl, hdiff⟩ := hj
      have happ : (setMembers members).apply (.simple voters learners) .jointConsensus =
          .joint voters members.voters members.learners := if_pos ⟨rfl, hdiff⟩
      rw [happ, Configuration.wellFormed_joint_iff]
      constructor
      · rintro ⟨_, hall⟩ ⟨_, _, id, hid, hold⟩
        exact (hall id hid).1 ((OrdSet.contains_iff _ _).mp hold)
      · intro hdem
        refine ⟨⟨hne, hnew⟩, ?_⟩
        intro id hid
        refine ⟨?_, members.disjoint id hid⟩
        intro hold
        exact hdem ⟨hvalid, hdiff, id, hid, (OrdSet.contains_iff _ _).mpr hold⟩
    · have happ : (setMembers members).apply (.simple voters learners) mode =
          .simple members.voters members.learners := if_neg hj
      rw [happ]
      refine iff_of_true (Configuration.wellFormed_simple hnew ?_) ?_
      · intro id hv hl
        exact members.disjoint id hl hv
      · cases mode with
        | singleServer => exact fun h => h
        | jointConsensus => exact fun h => hj ⟨rfl, h.2.1⟩

end ConfigChange

/-- One step from a well-formed configuration. -/
theorem reconfigure_wellFormed_iff {c : Configuration} (hc : c.WellFormed)
    (step : Reconfiguration) : (reconfigure c step).1.WellFormed ↔ ¬step.Demotes c := by
  cases step with
  | transition =>
    refine iff_of_true ?_ (fun h => h)
    cases c with
    | simple voters learners => exact hc
    | joint old new learners =>
      obtain ⟨⟨_, hnew⟩, hdisj⟩ := Configuration.wellFormed_joint_iff.mp hc
      apply Configuration.wellFormed_simple hnew
      intro id hv hl
      exact (hdisj id hl).2 hv
  | change change mode =>
    cases hvalid : change.validate c mode with
    | error e =>
      have hsame : (reconfigure c (.change change mode)).1 = c := by simp [reconfigure, hvalid]
      rw [hsame]
      refine iff_of_true hc ?_
      intro hdem
      cases change with
      | setMembers members =>
        cases mode with
        | singleServer => exact hdem
        | jointConsensus =>
          have hok := hdem.1
          rw [hvalid] at hok
          cases hok
      | addVoter id => exact hdem
      | removeVoter id => exact hdem
      | addLearner id => exact hdem
      | removeLearner id => exact hdem
    | ok u =>
      have happ : (reconfigure c (.change change mode)).1 = change.apply c mode := by
        simp [reconfigure, hvalid]
      rw [happ]
      cases c with
      | joint old new learners => cases hvalid
      | simple voters learners => exact ConfigChange.apply_wellFormed_iff hc hvalid

/-- Along a chain from a non-empty bootstrap every configuration is well formed exactly when
no step enters a joint phase in which a voter of the old set is already a learner. -/
theorem reconfigurations_wellFormed_iff (voters : List NodeId) (hvoters : voters ≠ [])
    (steps : List Reconfiguration) :
    (∀ n : ℕ, (CommandRuns.exec reconfigure (.ofVoters voters) (steps.take n)).WellFormed) ↔
      ∀ (n : ℕ) (step : Reconfiguration), steps[n]? = some step →
        ¬step.Demotes (CommandRuns.exec reconfigure (.ofVoters voters) (steps.take n)) := by
  constructor
  · intro hall n step hstep
    have hnext := hall (n + 1)
    rw [CommandRuns.exec_take_succ reconfigure hstep] at hnext
    exact (reconfigure_wellFormed_iff (hall n) step).mp hnext
  · intro hkeeps n
    induction n with
    | zero =>
      obtain ⟨id, hid⟩ := List.exists_mem_of_ne_nil voters hvoters
      apply Configuration.wellFormed_simple
      · exact (OrdSet.isEmpty_eq_false _).mpr ⟨id, (OrdSet.mem_ofList _ _).mpr hid⟩
      · intro x _
        exact OrdSet.not_mem_empty x
    | succ n ih =>
      cases hstep : steps[n]? with
      | none =>
        have hlen : steps.length ≤ n := List.getElem?_eq_none_iff.mp hstep
        rwa [List.take_of_length_le (by omega), ← List.take_of_length_le hlen]
      | some step =>
        rw [CommandRuns.exec_take_succ reconfigure hstep]
        exact (reconfigure_wellFormed_iff ih step).mpr (hkeeps n step hstep)

/-- Node 2 gives up its vote: voters 0 and 1, learner 2. -/
def demotion : Members where
  voters := OrdSet.ofList [0, 1]
  learners := OrdSet.ofList [2]
  disjoint := by decide

/-- Node 0 with the change of a chain in its log. -/
def demotingCore : Core :=
  (Core.new (Config.new 0) [0, 1, 2]).setLog (Log.empty.append
    { term := 0
      index := 1
      payload := .config (reconfigure (.ofVoters [0, 1, 2])
        (.change (.setMembers demotion) .jointConsensus)).1 })

/-- Demoting a voter through a joint phase: until the phase ends the node is a voter and a
learner, is listed twice and is sent every broadcast twice. -/
theorem demoted_voter_listed_twice :
    (ConfigChange.setMembers demotion).validate (.ofVoters [0, 1, 2]) .jointConsensus = .ok () ∧
    demotingCore.effectiveConfig = CommandRuns.exec reconfigure (.ofVoters [0, 1, 2])
      [.change (.setMembers demotion) .jointConsensus] ∧
    demotingCore.effectiveConfig.isVoter 2 = true ∧
    demotingCore.effectiveConfig.isLearner 2 = true ∧
    demotingCore.effectiveConfig.replicationPeers 0 = [1, 2, 2] ∧
    ((((Leader.new demotingCore).1.broadcastAppend demotingCore).2.messagesTo 2).map
      (fun m => m.payload.isAppendRequest)) = [true, true] := by
  refine ⟨?_, ?_, ?_, ?_, ?_, ?_⟩
  all_goals decide +kernel

/-- A learner is added, and takes the place of a voter through a joint phase. -/
def replacement : List Reconfiguration :=
  [.change (.addLearner 3) .jointConsensus,
    .change (.setMembers ⟨OrdSet.ofList [0, 1, 3], OrdSet.empty, by decide⟩) .jointConsensus,
    .transition]

theorem reconfigurations_wellFormed_replacement :
    (CommandRuns.exec reconfigure (.ofVoters [0, 1, 2]) (replacement.take 3)).WellFormed := by
  apply (reconfigurations_wellFormed_iff [0, 1, 2] (by decide) replacement).mpr
  intro n step hstep
  rcases n with _ | _ | _ | n
  · cases hstep
    exact fun h => h
  · cases hstep
    rintro ⟨_, _, id, hid, _⟩
    exact OrdSet.not_mem_empty id hid
  · cases hstep
    exact fun h => h
  · cases hstep

end BasisDB.Raft
