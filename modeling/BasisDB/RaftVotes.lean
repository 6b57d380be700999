import BasisDB.RaftSolo

/-! What a node saves and how it votes, whatever it is fed with: every change of the
persistent state is marked for saving, and there is one vote per term. -/
namespace BasisDB.Raft

namespace RaftNode

theorem persistent_eq_of_evolves {core core' : Core} {eff : Effects}
    (h : Evolves True False core core' eff) (hp : eff.persist = false) :
    core'.persistent = core.persistent := by
  rw [h.saved hp, h.savedLog trivial hp]
  rfl

/-- Persist-flag soundness: an event or a call that changes the persistent state of a node
with a well-formed log says so. -/
theorem persist_flag_sound (n : RaftNode) (hlog : n.log.Contiguous) :
    (∀ event, (∀ msg req, event = .message msg → msg.payload = .appendRequest req →
        ∀ e ∈ req.entries, e.index = n.log.snapshotIndex → e.term = n.log.snapshotTerm) →
      (n.stepEvent event).1.persistent ≠ n.persistent → (n.stepEvent event).2.persist = true) ∧
    (∀ cmd index eff n', n.propose cmd = .ok (index, eff, n') →
      n'.persistent ≠ n.persistent → eff.persist = true) ∧
    (∀ change index eff n', n.proposeConfigChange change = .ok (index, eff, n') →
      n'.persistent ≠ n.persistent → eff.persist = true) := by
  have hflag {core' : Core} {eff : Effects} (h : Evolves True False n.core core' eff)
      (hne : core'.persistent ≠ n.core.persistent) : eff.persist = true := by
    by_contra hnot
    exact hne (persistent_eq_of_evolves h ((Bool.not_eq_true _).mp hnot))
  refine ⟨?_, ?_, ?_⟩
  · intro event hentries hne
    refine hflag (stepEvent_evolves n event ?_) hne
    rintro f msg - rfl
    exact ⟨fun _ => ⟨hlog, fun req hp => hentries msg req rfl hp⟩, False.elim⟩
  · intro cmd index eff n' hcall hne
    exact hflag (propose_evolves hcall) hne
  · intro change index eff n' hcall hne
    exact hflag (proposeConfigChange_evolves hcall) hne

/-- A new node that hears of term 1. -/
theorem persist_flag_sound_newNode :
    ((RaftNode.new (Config.new 0) [0, 1]).tick.1.step
        { sender := 1, receiver := 0, term := 1
          payload := .voteRequest { lastLogIndex := 0, lastLogTerm := 0 } }).2.persist = true :=
  (persist_flag_sound (RaftNode.new (Config.new 0) [0, 1]).tick.1 Log.Contiguous.empty).1 _
    (by
      intro msg req hevent hp
      cases hevent
      cases hp)
    (by decide +kernel)

end RaftNode

/-- The votes that some effects grant, with their terms. -/
def Effects.grants (eff : Effects) : List (ℕ × NodeId) :=
  eff.messages.filterMap (fun m =>
    if m.payload = .voteResponse { granted := true } then some (m.term, m.receiver) else .none)

theorem Effects.mem_grants {eff : Effects} {t : ℕ} {c : NodeId} (h : (t, c) ∈ eff.grants) :
    ∃ m ∈ eff.messages, m.payload = .voteResponse { granted := true } ∧ m.term = t ∧
      m.receiver = c := by
  obtain ⟨m, hm, hsome⟩ := List.mem_filterMap.mp h
  split_ifs at hsome with hp
  rw [Option.some.injEq, Prod.mk.injEq] at hsome
  exact ⟨m, hm, hp, hsome.1, hsome.2⟩

/-- Our own vote, where the quorum test of a candidate counts it. -/
def RaftNode.countedVotes (n : RaftNode) : List (ℕ × NodeId) :=
  match n.role with
  | .candidate c => if c.votes.contains n.id && n.core.isVoter then [(n.term, n.id)] else []
  | _ => []

namespace Solo

/-- Our own vote with which a step opens an election, also one that it wins at once. -/
def ownVotes (s : Solo) : Input → List (ℕ × NodeId)
  | .event event =>
    match s.node.electionIn event with
    | some core =>
      if (Candidate.new core).1.votes.contains s.node.id then
        [((Candidate.new core).2.1.term, s.node.id)]
      else []
    | none => []
  | _ => []

/-- All votes of one step: granted to others, or counted as our own. -/
def votesIn (s : Solo) (input : Input) : List (ℕ × NodeId) :=
  (s.handle input).2.grants ++ s.ownVotes input ++ (s.handle input).1.countedVotes

/-- All votes of a run. -/
def votes (s : Solo) : List Input → List (ℕ × NodeId)
  | [] => []
  | input :: inputs => s.votesIn input ++ (s.step input).votes inputs

end Solo

namespace Solo
variable {s : Solo} {input : Input}

/-- A candidate that is a voter has voted for itself. -/
def SelfVoted (n : RaftNode) : Prop :=
  ∀ c, n.role = .candidate c → n.core.isVoter = true → n.persistent.votedFor = some n.id

theorem isVoter_congr {core core' : Core} (hp : core'.log = core.log)
    (hb : core'.persistent.bootstrapConfig = core.persistent.bootstrapConfig)
    (hc : core'.config = core.config) : core'.isVoter = core.isVoter := by
  have hlog : core'.persistent.log = core.persistent.log := hp
  simp only [Core.isVoter, Core.effectiveConfig, Core.configAt, hlog, hb, hc]

theorem stepEvent_selfVoted {n : RaftNode} (h : SelfVoted n) (event : Event) :
    SelfVoted (n.stepEvent event).1 := by
  intro c hrole hvoter
  cases he : n.electionIn event with
  | some core =>
    obtain ⟨hp, hc, -⟩ := RaftNode.stepEvent_election he
    have hsame : (n.stepEvent event).1.core.isVoter = core.isVoter :=
      isVoter_congr (by rw [Core.log, show (n.stepEvent event).1.core.persistent = _ from hp]; rfl)
        (by rw [show (n.stepEvent event).1.core.persistent = _ from hp]; rfl) hc
    rw [hsame] at hvoter
    rw [hp, RaftNode.id, Core.id, hc]
    simp [Core.startElection, hvoter]
  | none =>
    obtain ⟨hp, hstay⟩ := RaftNode.stepEvent_quiet he
    obtain ⟨htrans, c₀, hr⟩ := hstay c hrole
    have hev : Evolves False False n.core (n.stepEvent event).1.core (n.stepEvent event).2 :=
      RaftNode.stepEvent_evolves n event (fun _ _ _ _ => ⟨False.elim, False.elim⟩)
    have hkept : (n.roleStep event).1.persistent = n.persistent := by
      unfold RaftNode.roleStep at htrans ⊢
      rw [hr] at htrans ⊢
      exact Candidate.step_stay c₀ n.core event htrans
    have hpers : (n.stepEvent event).1.persistent = n.persistent := hp.trans hkept
    have hsame : (n.stepEvent event).1.core.isVoter = n.core.isVoter :=
      isVoter_congr (congrArg Persistent.log hpers) (congrArg Persistent.bootstrapConfig hpers)
        hev.config
    rw [hsame] at hvoter
    rw [hpers, RaftNode.id, Core.id, hev.config]
    exact h c₀ hr hvoter

theorem handle_selfVoted (h : SelfVoted s.node) : SelfVoted (s.handle input).1 := by
  by_cases hevent : ∃ event, input = .event event
  · obtain ⟨event, rfl⟩ := hevent
    exact stepEvent_selfVoted h event
  intro c hrole hvoter
  rcases s.handle_settled (fun e he => hevent ⟨e, he⟩) with (⟨l, hl⟩ | ⟨f, hf⟩) | ⟨hr, hp, hc⟩
  · rw [hl] at hrole
    cases hrole
  · rw [hf] at hrole
    cases hrole
  · -- a call that left the candidate as it was
    have hsame : (s.handle input).1.core.isVoter = s.node.core.isVoter :=
      isVoter_congr (congrArg Persistent.log hp) (congrArg Persistent.bootstrapConfig hp) hc
    rw [hsame] at hvoter
    rw [hp, RaftNode.id, Core.id, hc]
    exact h c (hr.symm.trans hrole) hvoter

/-- What is true of a node and all the votes it has given so far. -/
structure Voted (s : Solo) (given : List (ℕ × NodeId)) : Prop where
  term : s.disk.term = s.node.term
  vote : s.disk.votedFor = s.node.persistent.votedFor
  self : SelfVoted s.node
  past : ∀ t c, (t, c) ∈ given → t ≤ s.node.term ∧
    (t = s.node.term → s.node.persistent.votedFor = some c)
  once : ∀ t c c', (t, c) ∈ given → (t, c') ∈ given → c = c'

theorem start_voted (config : Config) (saved : Persistent) : Voted (start config saved) [] where
  term := rfl
  vote := rfl
  self := fun c hrole => by cases hrole
  past := fun _ _ h => absurd h List.not_mem_nil
  once := fun _ _ _ h => absurd h List.not_mem_nil

/-- An opening vote is for ourselves, at the new term. -/
theorem ownVotes_spec {t : ℕ} {c : NodeId} (h : (t, c) ∈ s.ownVotes input) :
    t = (s.handle input).1.term ∧ s.node.term < t ∧
      (s.handle input).1.persistent.votedFor = some c := by
  cases input with
  | event event =>
    simp only [ownVotes] at h
    cases he : s.node.electionIn event with
    | none =>
      rw [he] at h
      exact absurd h List.not_mem_nil
    | some core =>
      rw [he] at h
      simp only at h
      split_ifs at h with hcontains
      · rw [List.mem_singleton, Prod.mk.injEq] at h
        obtain ⟨rfl, rfl⟩ := h
        obtain ⟨hp, hc, hterm⟩ := RaftNode.stepEvent_election he
        have hcore := RaftNode.electionBy_core he
        have hnewTerm : (Candidate.new core).2.1.term = core.term + 1 := by
          unfold Candidate.new
          dsimp only
          split_ifs <;> rfl
        have hvotes : (Candidate.new core).1.votes = core.ownVote := by
          unfold Candidate.new
          dsimp only
          split_ifs <;> rfl
        have hvoter : core.isVoter = true := by
          rw [hvotes, Core.ownVote] at hcontains
          by_contra hnot
          rw [if_neg hnot] at hcontains
          simp at hcontains
        have hid : core.config.id = s.node.id := by
          have hev : Evolves False False s.node.core (s.node.stepEvent event).1.core
              (s.node.stepEvent event).2 :=
            RaftNode.stepEvent_evolves _ _ (fun _ _ _ _ => ⟨False.elim, False.elim⟩)
          rw [← hc, hev.config]
          rfl
        rw [hnewTerm]
        refine ⟨?_, by omega, ?_⟩
        · exact (congrArg Persistent.term hp).symm
        · show (s.node.stepEvent event).1.persistent.votedFor = _
          rw [hp]
          simp [Core.startElection, hvoter, hid]
      · exact absurd h List.not_mem_nil
  | propose _ | proposeConfigChange _ | requestReadIndex | transferLeadership _ | advance _
  | restart => exact absurd h List.not_mem_nil

theorem countedVotes_spec {n : RaftNode} (hself : SelfVoted n) {t : ℕ} {c : NodeId}
    (h : (t, c) ∈ n.countedVotes) : t = n.term ∧ n.persistent.votedFor = some c := by
  unfold RaftNode.countedVotes at h
  split at h
  · rename_i cand hr
    split_ifs at h with hc
    · rw [List.mem_singleton, Prod.mk.injEq] at h
      obtain ⟨rfl, rfl⟩ := h
      rw [Bool.and_eq_true] at hc
      exact ⟨rfl, hself cand hr hc.2⟩
    · exact absurd h List.not_mem_nil
  · exact absurd h List.not_mem_nil

theorem canVoteFor_of_kept {core core' : Core} {eff : Effects} {saves commits : Prop}
    (h : Evolves saves commits core core' eff) {c : NodeId} (hterm : core'.term = core.term)
    (hvote : core'.persistent.votedFor = some c) : core.canVoteFor c = true := by
  unfold Core.canVoteFor
  cases hv : core.persistent.votedFor with
  | none => rfl
  | some d =>
    rw [h.vote hterm d hv] at hvote
    simpa using hvote

/-- The votes of a step, each with what the node remembers of it. -/
theorem votesIn_casts (hself : SelfVoted s.node) (hinput : input ≠ .restart) {t : ℕ} {c : NodeId}
    (h : (t, c) ∈ s.votesIn input) : Casts s.node.core (s.handle input).1.core t c := by
  have hev := handle_evolves s input hinput
  have hnow (ht : t = (s.handle input).1.term)
      (hv : (s.handle input).1.persistent.votedFor = some c) :
      Casts s.node.core (s.handle input).1.core t c := by
    refine ⟨ht ▸ hev.term, ht.le, ?_, fun _ => hv⟩
    intro heq
    exact canVoteFor_of_kept hev (ht.symm.trans heq) hv
  rcases List.mem_append.mp h with h | h
  · rcases List.mem_append.mp h with h | h
    · obtain ⟨m, hm, hp, rfl, rfl⟩ := Effects.mem_grants h
      exact hev.casts m hm hp
    · obtain ⟨ht, -, hv⟩ := ownVotes_spec h
      exact hnow ht hv
  · obtain ⟨ht, hv⟩ := countedVotes_spec (handle_selfVoted hself) h
    exact hnow ht hv

theorem votesIn_once (hself : SelfVoted s.node) (hinput : input ≠ .restart) {t : ℕ}
    {c c' : NodeId} (h : (t, c) ∈ s.votesIn input) (h' : (t, c') ∈ s.votesIn input) : c = c' := by
  have hev := handle_evolves s input hinput
  by_cases ht : t = (s.handle input).1.term
  · -- both are the vote the node keeps
    have hkept := (votesIn_casts hself hinput h).kept ht
    rw [(votesIn_casts hself hinput h').kept ht, Option.some.injEq] at hkept
    exact hkept.symm
  · -- at a lower term than the node ends with, only messages
    have hgrant (d : NodeId) (hd : (t, d) ∈ s.votesIn input) :
        (t, d) ∈ (s.handle input).2.grants := by
      rcases List.mem_append.mp hd with hd | hd
      · rcases List.mem_append.mp hd with hd | hd
        · exact hd
        · exact absurd (ownVotes_spec hd).1 ht
      · exact absurd (countedVotes_spec (handle_selfVoted hself) hd).1 ht
    obtain ⟨m, hm, hp, hmt, rfl⟩ := Effects.mem_grants (hgrant c h)
    obtain ⟨m', hm', hp', hmt', rfl⟩ := Effects.mem_grants (hgrant c' h')
    exact hev.once m hm m' hm' hp hp' (hmt.trans hmt'.symm)

/-- A restart loses nothing that concerns votes. -/
theorem Voted.restart {given : List (ℕ × NodeId)} (h : Voted s given) :
    Voted (s.step .restart) (given ++ s.votesIn .restart) := by
  have hnone : s.votesIn .restart = [] := rfl
  have hterm : (s.step .restart).node.term = s.node.term := h.term
  have hvote : (s.step .restart).node.persistent.votedFor = s.node.persistent.votedFor := h.vote
  rw [hnone, List.append_nil]
  refine ⟨rfl, rfl, ?_, ?_, h.once⟩
  · intro c hrole
    cases hrole
  · rw [hterm, hvote]
    exact h.past

theorem Voted.step {given : List (ℕ × NodeId)} (h : Voted s given) (input : Input) :
    Voted (s.step input) (given ++ s.votesIn input) := by
  by_cases hinput : input = .restart
  · rw [hinput]
    exact h.restart
  have hev := handle_evolves s input hinput
  have hdisk : (s.step input).disk.term = (s.handle input).1.term ∧
      (s.step input).disk.votedFor = (s.handle input).1.persistent.votedFor := by
    unfold Solo.step
    dsimp only
    split_ifs with hp
    · exact ⟨rfl, rfl⟩
    · have hsaved := hev.saved ((Bool.not_eq_true _).mp hp)
      refine ⟨h.term.trans ?_, h.vote.trans ?_⟩
      · exact (congrArg Persistent.term hsaved).symm
      · exact (congrArg Persistent.votedFor hsaved).symm
  refine ⟨hdisk.1, hdisk.2, handle_selfVoted h.self, ?_, ?_⟩
  · intro t c hmem
    rcases List.mem_append.mp hmem with hold | hnew
    · obtain ⟨hle, hkept⟩ := h.past t c hold
      have hup := hev.term
      refine ⟨hle.trans hup, ?_⟩
      intro heq
      have hcore : t = (s.handle input).1.core.term := heq
      have hnode : s.node.core.term = s.node.term := rfl
      exact hev.vote (by omega) c (hkept (by omega))
    · have hcast := votesIn_casts h.self hinput hnew
      exact ⟨hcast.to_term, hcast.kept⟩
  · -- an earlier vote of the term is the one the node still has
    have hcross (t : ℕ) (c c' : NodeId) (hold : (t, c) ∈ given)
        (hnew : (t, c') ∈ s.votesIn input) : c = c' := by
      obtain ⟨hle, hkept⟩ := h.past t c hold
      have hcast := votesIn_casts h.self hinput hnew
      have hfrom := hcast.from_term
      have hnode : s.node.core.term = s.node.term := rfl
      have hfree := hcast.free (by omega)
      have hvoted : s.node.core.persistent.votedFor = some c := hkept (by omega)
      unfold Core.canVoteFor at hfree
      rw [hvoted] at hfree
      simpa using hfree
    intro t c c' hc hc'
    rcases List.mem_append.mp hc with hc | hc <;> rcases List.mem_append.mp hc' with hc' | hc'
    · exact h.once t c c' hc hc'
    · exact hcross t c c' hc hc'
    · exact (hcross t c' c hc' hc).symm
    · exact votesIn_once h.self hinput hc hc'

theorem Voted.run {given : List (ℕ × NodeId)} (h : Voted s given) (inputs : List Input) :
    Voted (s.run inputs) (given ++ s.votes inputs) := by
  induction inputs generalizing s given with
  | nil =>
    rw [votes, List.append_nil]
    exact h
  | cons input inputs ih =>
    rw [votes, ← List.append_assoc]
    exact ih (h.step input)

theorem step_term (h : s.disk.term = s.node.term) (input : Input) :
    s.node.term ≤ (s.step input).node.term := by
  by_cases hinput : input = .restart
  · rw [hinput]
    exact h.symm.le
  · exact (handle_evolves s input hinput).term

/-- One vote per term: whatever a node is fed with, its term never goes down, and the votes it
grants or counts as its own in one term are all for one candidate. -/
theorem one_vote_per_term (config : Config) (saved : Persistent) (inputs : List Input) :
    (∀ j k, j ≤ k → ((start config saved).moment inputs j).node.term ≤
      ((start config saved).moment inputs k).node.term) ∧
    ∀ t c c', (t, c) ∈ (start config saved).votes inputs →
      (t, c') ∈ (start config saved).votes inputs → c = c' := by
  refine ⟨?_, ?_⟩
  · intro j k hjk
    induction k, hjk using Nat.le_induction with
    | base => exact le_rfl
    | succ k _ ih =>
      refine ih.trans ?_
      cases hi : inputs[k]? with
      | none => rw [moment_beyond _ _ hi]
      | some input =>
        rw [moment_succ _ _ hi]
        exact step_term ((start_voted config saved).run (inputs.take k)).term input
  · intro t c c' hc hc'
    have hvoted := (start_voted config saved).run inputs
    rw [List.nil_append] at hvoted
    exact hvoted.once t c c' hc hc'

/-- A new node that may vote for three. -/
def newVoter : Solo :=
  start (Config.new 0) (RaftNode.new (Config.new 0) [0, 1, 2]).persistent

/-- Two candidates of term 1 ask for its vote, and it restarts in between. -/
def askedTwice : List Input :=
  let ask (c : NodeId) : Input := .event (.message
    { sender := c, receiver := 0, term := 1
      payload := .voteRequest { lastLogIndex := 0, lastLogTerm := 0 } })
  [ask 1, .restart, ask 2]

/-- The first gets the vote, so the second does not. -/
theorem one_vote_per_term_askedTwice :
    (1, 1) ∈ newVoter.votes askedTwice ∧ (1, 2) ∉ newVoter.votes askedTwice ∧
    (newVoter.moment askedTwice 1).node.term ≤ (newVoter.moment askedTwice 3).node.term := by
  have hfirst : (1, 1) ∈ newVoter.votes askedTwice := by decide +kernel
  refine ⟨hfirst, ?_, (one_vote_per_term _ _ _).1 1 3 (by decide)⟩
  intro hsecond
  exact absurd ((one_vote_per_term _ _ _).2 1 1 2 hfirst hsecond) (by decide)

end Solo
end BasisDB.Raft
