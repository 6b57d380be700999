import BasisDB.RaftSim

/-! Each small step of the protocol keeps the simulation, with a history that
takes matching steps. -/
namespace BasisDB.Raft
open ReplicatedLog

variable {boot : Configuration} {G : History NodeId Entry → NodeId → Entry → Prop}
  {h : History NodeId Entry} {w : World} {n : NodeId}

/-- The history can move on so that it simulates `w'`, without a new commit. -/
def Advances (boot : Configuration) (G : History NodeId Entry → NodeId → Entry → Prop)
    (h : History NodeId Entry) (w' : World) : Prop :=
  ∃ h', Relation.ReflTransGen (History.Step (scheme boot) G) h h' ∧ h'.commits = h.commits ∧
    Sim boot w' h'

theorem Advances.same {w' : World} (hs : Sim boot w' h) : Advances boot G h w' :=
  ⟨h, Relation.ReflTransGen.refl, rfl, hs⟩

theorem Sim.unvoted (hs : Sim boot w h) {t : ℕ} (ht : (w.views n).term < t) :
    h.vote n t = none := by
  by_contra hne
  obtain ⟨c, hc⟩ := Option.ne_none_iff_exists'.mp hne
  have := hs.inv.vote_le n t c hc
  rw [(hs.nodes n).term] at this
  omega

/-- Adopting a newer term without a vote. -/
theorem Sim.raiseTerm (hs : Sim boot w h) {t : ℕ} (ht : (w.views n).term < t) {v : View}
    (hterm : v.term = t) (hlog : v.log = (w.views n).log) (hvote : v.persistent.votedFor = none)
    (hcand : ∀ votes, v.role = .candidate votes → votes = OrdSet.empty)
    (hlead : ∀ l, v.role ≠ .leader l) :
    History.Step (scheme boot) G h (h.raiseTerm n t) ∧
      Sim boot (w.set n v w.net) (h.raiseTerm n t) := by
  have hn := hs.nodes n
  have hstep : History.Step (scheme boot) G h (h.raiseTerm n t) :=
    History.Step.raiseTerm n t (by rw [hn.term]; exact ht.le)
  have hle := hstep.le hs.inv
  refine ⟨hstep, hs.set (hstep.inv hs.inv) hle ?_ ?_ (fun m hm => Or.inl hm) ?_ hs.term_pos⟩
  · refine ⟨?_, ?_, ?_, ?_, fun l hr => absurd hr (hlead l)⟩
    · simp [History.raiseTerm, hterm]
    · rw [hlog]
      exact hn.log
    · rw [hterm, hvote]
      exact hs.unvoted ht
    · intro votes hr
      rw [hcand votes hr]
      refine ⟨?_, ?_, fun q hq => absurd hq (OrdSet.not_mem_empty q), ?_, ?_⟩
      · intro hl
        have := hs.inv.leader_le _ _ hl
        rw [hn.term, hterm] at this
        omega
      · intro e he
        rw [hlog] at he
        have := hs.inv.log_le n e (hn.log ▸ he)
        rw [hn.term] at this
        rw [hterm]
        exact this.trans_lt ht
      · intro q hq
        have := hs.voted q _ n hq
        rw [hn.term, hterm] at this
        omega
      · intro m hm req hsend hmt hp
        have hmsg := hs.net m hm
        simp only [MsgOk, hp] at hmsg
        rw [hsend, hn.term, hmt, hterm] at hmsg
        omega
  · intro p hp
    exact (hs.nodes p).frame_votes hle (by simp [History.raiseTerm, hp]) rfl (fun hu => hu) rfl rfl
  · intro q u c hv
    exact (hs.voted q u c hv).trans (hle.term c)

/-- A vote of node `n` in its current term. -/
theorem Sim.castVote (hs : Sim boot w h) (c : NodeId) (v : View) (net : Set Message)
    (hv : (w.views n).persistent.votedFor = none) (hterm : v.term = (w.views n).term)
    (hlog : v.log = (w.views n).log) (hvote : v.persistent.votedFor = some c)
    (hc : (w.views n).term ≤ h.term c)
    (hnode : ∀ votes, v.role = .candidate votes → CandidateOk boot (h.castVote n c) net n v votes)
    (hlead : ∀ l, v.role = .leader l → (w.views n).role = .leader l)
    (hup : ∀ votes, (w.views c).role = .candidate votes → (w.views c).term = (w.views n).term →
      UpToDate (scheme boot) (w.views c).log.entries (w.views n).log.entries)
    (hnet : ∀ m ∈ net, m ∈ w.net ∨ (m.sender = n ∧ MsgOk boot (h.castVote n c) m)) :
    History.Step (scheme boot) G h (h.castVote n c) ∧
      Sim boot (w.set n v net) (h.castVote n c) := by
  have hn := hs.nodes n
  have hstep : History.Step (scheme boot) G h (h.castVote n c) :=
    History.Step.castVote n c (by rw [hn.term, hn.vote]; exact hv)
  have hle := hstep.le hs.inv
  have hself := History.castVote_vote_self (h := h) n c
  refine ⟨hstep, hs.set (hstep.inv hs.inv) hle ?_ ?_ hnet ?_ hs.term_pos⟩
  · refine ⟨?_, ?_, ?_, hnode, ?_⟩
    · rw [hterm]
      exact hn.term
    · rw [hlog]
      exact hn.log
    · rw [hterm, hvote, ← hn.term]
      exact hself.1
    · intro l hr
      rw [hterm]
      exact hn.leader l (hlead l hr)
  · intro p hp
    refine (hs.nodes p).frame hle rfl rfl ?_ (fun hu => hu) ?_
    · exact (History.castVote_vote_ne n c p _ (fun hpn => hp hpn.1)).1
    · rintro ⟨votes, hr⟩ q hq
      by_cases hqn : q = n ∧ (w.views p).term = h.term n
      · obtain ⟨rfl, hpt⟩ := hqn
        rw [hpt] at hq ⊢
        rw [hself.1, Option.some.injEq] at hq
        subst hq
        rw [hself.2, hn.log]
        exact hup votes hr (hpt.trans hn.term)
      · rw [(History.castVote_vote_ne n c q _ hqn).1] at hq
        rw [(History.castVote_vote_ne n c q _ hqn).2]
        exact ((hs.nodes p).candidate votes hr).upToDate q hq
  · intro q u d hd
    by_cases hqn : q = n ∧ u = h.term n
    · obtain ⟨rfl, rfl⟩ := hqn
      rw [hself.1, Option.some.injEq] at hd
      subst hd
      rw [hn.term]
      exact hc
    · rw [(History.castVote_vote_ne n c q u hqn).1] at hd
      exact hs.voted q u d hd

theorem upToDate_refl (σ : Scheme NodeId Entry Configuration) (L : List Entry) : UpToDate σ L L :=
  Or.inr ⟨rfl, le_rfl⟩

theorem Sim.observe (hs : Sim boot w h) {t : ℕ} (ht : (w.views n).term < t) :
    Advances boot G h (w.set n
      { w.views n with
        persistent := { (w.views n).persistent with term := t, votedFor := none }
        role := .follower } w.net) := by
  obtain ⟨hstep, hsim⟩ := hs.raiseTerm (G := G) ht
    (v := { w.views n with
      persistent := { (w.views n).persistent with term := t, votedFor := none }
      role := .follower }) rfl rfl rfl (fun _ hr => by cases hr) (fun _ hr => by cases hr)
  exact ⟨_, Relation.ReflTransGen.single hstep, rfl, hsim⟩

/-- A candidate's vote for itself. -/
theorem CandidateOk.ownVote {net : Set Message} {v v' : View}
    (hc : CandidateOk boot h net n v OrdSet.empty) (hterm : h.term n = v.term)
    (hlog : h.log n = v.log.entries) (hterm' : v'.term = v.term) (hlog' : v'.log = v.log) :
    CandidateOk boot (h.castVote n n) net n v' (OrdSet.singleton n) := by
  have hself := History.castVote_vote_self (h := h) n n
  rw [hterm, hlog] at hself
  refine ⟨?_, ?_, ?_, ?_, ?_⟩
  · rw [hterm']
    exact hc.unled
  · rw [hterm', hlog']
    exact hc.older
  · intro q hq
    rw [OrdSet.mem_singleton] at hq
    rw [hterm', hq]
    exact hself.1
  · intro q hq
    rw [hterm'] at hq ⊢
    rw [hlog']
    by_cases hqn : q = n
    · subst hqn
      rw [hself.2]
      exact upToDate_refl _ _
    · have hne := History.castVote_vote_ne (h := h) n n q v.term (fun hx => hqn hx.1)
      rw [hne.1] at hq
      rw [hne.2]
      exact hc.upToDate q hq
  · rw [hterm', hlog']
    exact hc.asked

/-- Starting an election: a new term, and our own vote if we are a voter. -/
theorem Sim.campaign (hs : Sim boot w h) :
    Advances boot G h (w.set n
      { w.views n with
        persistent :=
          { (w.views n).persistent with
            term := (w.views n).term + 1
            votedFor := if (w.views n).effectiveConfig.isVoter n then some n else none }
        role := .candidate (if (w.views n).effectiveConfig.isVoter n then OrdSet.singleton n
          else OrdSet.empty) } w.net) := by
  obtain ⟨hstep, hsim⟩ := hs.raiseTerm (G := G) (Nat.lt_succ_self (w.views n).term)
    (v := { w.views n with
      persistent :=
        { (w.views n).persistent with term := (w.views n).term + 1, votedFor := none }
      role := .candidate OrdSet.empty }) rfl rfl rfl (fun votes hr => by cases hr; rfl)
    (fun _ hr => by cases hr)
  by_cases hv : (w.views n).effectiveConfig.isVoter n = true
  · rw [if_pos hv, if_pos hv]
    have hcand := (hsim.nodes n).candidate OrdSet.empty (by simp)
    have hn := hsim.nodes n
    simp only [World.set_views_self] at hcand hn
    obtain ⟨hstep', hsim'⟩ := hsim.castVote (G := G) (n := n) n
      { w.views n with
        persistent :=
          { (w.views n).persistent with term := (w.views n).term + 1, votedFor := some n }
        role := .candidate (OrdSet.singleton n) } w.net (by simp) (by simp [View.term])
      (by simp [View.log]) rfl
      (by
        rw [World.set_views_self]
        exact hn.term.ge)
      (by
        intro votes hr
        cases hr
        exact hcand.ownVote hn.term hn.log rfl rfl)
      (fun l hr => by cases hr) (fun _ _ _ => upToDate_refl _ _) (fun m hm => Or.inl hm)
    refine ⟨_, (Relation.ReflTransGen.single hstep).tail hstep', rfl, ?_⟩
    simpa [World.set] using hsim'
  · rw [if_neg hv, if_neg hv]
    exact ⟨_, Relation.ReflTransGen.single hstep, rfl, hsim⟩

/-- Granting a vote, for the first time or again. -/
theorem Sim.grant (hs : Sim boot w h) (hw : w.Formed boot) {m : Message} {req : VoteRequest}
    (hm : m ∈ w.net) (hp : m.payload = .voteRequest req) (ht : m.term = (w.views n).term)
    (hr : (w.views n).role = .follower)
    (hv : (w.views n).persistent.votedFor = none ∨
      (w.views n).persistent.votedFor = some m.sender)
    (hup : (w.views n).log.lastTerm < req.lastLogTerm ∨
      (req.lastLogTerm = (w.views n).log.lastTerm ∧
        (w.views n).log.lastIndex ≤ req.lastLogIndex)) :
    Advances boot G h (w.set n
      { w.views n with
        persistent := { (w.views n).persistent with votedFor := some m.sender } }
      (insert
        { sender := n, receiver := m.sender, term := (w.views n).term
          payload := .voteResponse { granted := true } } w.net)) := by
  have hn := hs.nodes n
  have hmsg := hs.net m hm
  simp only [MsgOk, hp] at hmsg
  rcases hv with hv | hv
  · have hself := History.castVote_vote_self (h := h) n m.sender
    obtain ⟨hstep, hsim⟩ := hs.castVote (G := G) (n := n) m.sender
      { w.views n with persistent := { (w.views n).persistent with votedFor := some m.sender } }
      (insert
        { sender := n, receiver := m.sender, term := (w.views n).term
          payload := .voteResponse { granted := true } } w.net) hv rfl rfl rfl
      (ht ▸ hmsg)
      (by
        intro votes hc
        exact absurd (hr.symm.trans hc) (by simp))
      (fun _ hl => hl)
      (by
        intro votes hc hterm
        obtain ⟨h1, h2⟩ := ((hs.nodes m.sender).candidate votes hc).asked m hm req rfl
          (ht.trans hterm.symm) hp
        have hpn := (hw.views n).plain
        have hpc := (hw.views m.sender).plain
        rw [h1, h2, hpc.lastIndex, hpn.lastIndex, hpc.lastTerm boot, hpn.lastTerm boot] at hup
        rcases hup with hup | ⟨hup, hlen⟩
        · exact Or.inl hup
        · exact Or.inr ⟨hup.symm, hlen⟩)
      (by
        rintro x (rfl | hx)
        · refine Or.inr ⟨rfl, ?_⟩
          simp only [MsgOk]
          intro _
          rw [← hn.term]
          exact hself.1
        · exact Or.inl hx)
    exact ⟨_, Relation.ReflTransGen.single hstep, rfl, hsim⟩
  · refine Advances.same (hs.set_same ?_ ?_)
    · refine ⟨hn.term, hn.log, ?_, ?_, hn.leader⟩
      · exact hn.vote.trans hv
      · intro votes hc
        exact absurd (hr.symm.trans hc) (by simp)
    · rintro x (rfl | hx)
      · refine Or.inr ⟨rfl, ?_⟩
        simp only [MsgOk]
        exact fun _ => hn.vote.trans hv
      · exact Or.inl hx

/-- A step that keeps the persistent state and starts nothing new as candidate. -/
theorem Sim.keep (hs : Sim boot w h) {v : View} (hpers : v.persistent = (w.views n).persistent)
    (hcand : ∀ votes, v.role = .candidate votes → CandidateOk boot h w.net n v votes)
    (hlead : ∀ l, v.role = .leader l → ∃ l', (w.views n).role = .leader l') :
    Sim boot (w.set n v w.net) h := by
  have hn := hs.nodes n
  have hterm : v.term = (w.views n).term := by rw [View.term, hpers, View.term]
  refine hs.set_same ⟨?_, ?_, ?_, hcand, ?_⟩ (fun m hm => Or.inl hm)
  · rw [hterm]
    exact hn.term
  · rw [View.log, hpers]
    exact hn.log
  · rw [hterm, hpers]
    exact hn.vote
  · intro l hr
    obtain ⟨l', hr'⟩ := hlead l hr
    rw [hterm]
    exact hn.leader l' hr'

/-- A leader that only moves its own bookkeeping. -/
theorem Sim.lead (hs : Sim boot w h) {l : LeaderView} (hr : (w.views n).role = .leader l)
    (l' : LeaderView) : Sim boot (w.set n ((w.views n).lead l') w.net) h := by
  refine hs.keep rfl ?_ (fun _ _ => ⟨l, hr⟩)
  intro votes hc
  cases hc

theorem Sim.countVote (hs : Sim boot w h) {m : Message} {votes : OrdSet NodeId} (hm : m ∈ w.net)
    (hp : m.payload = .voteResponse { granted := true }) (ht : m.term = (w.views n).term)
    (hrec : m.receiver = n) (hr : (w.views n).role = .candidate votes) :
    Sim boot (w.set n { w.views n with role := .candidate (votes.insert m.sender) } w.net) h := by
  have hmsg := hs.net m hm
  simp only [MsgOk, hp, ht, hrec, forall_const] at hmsg
  refine hs.keep rfl ?_ (fun l hl => by cases hl)
  intro votes' hc
  cases hc
  have hok := (hs.nodes n).candidate votes hr
  refine ⟨hok.unled, hok.older, ?_, hok.upToDate, hok.asked⟩
  intro q hq
  rcases (OrdSet.mem_insert _ _ _).mp hq with rfl | hq
  · exact hmsg
  · exact hok.counted q hq

/-- No term is won by two nodes. -/
def Unique (boot : Configuration) (h : History NodeId Entry) : Prop :=
  ∀ u c L A d, History.Election (scheme boot) h u c L A → h.leader u = some d → c = d

/-- Winning an election. -/
theorem Sim.win (hs : Sim boot w h) (hw : w.Formed boot) (huniq : Unique boot h)
    {votes : OrdSet NodeId} (hr : (w.views n).role = .candidate votes)
    (hq : (w.views n).effectiveConfig.hasQuorum (fun p => votes.contains p) = true)
    (l : LeaderView) : Advances boot G h (w.set n ((w.views n).lead l) w.net) := by
  have hn := hs.nodes n
  have hok := hn.candidate votes hr
  have hvotes : ∀ q ∈ {q | q ∈ votes}, h.vote q (h.term n) = some n ∧
      UpToDate (scheme boot) (h.log n) (h.voteLog q (h.term n)) := by
    intro q hq
    rw [hn.term, hn.log]
    exact ⟨hok.counted q hq, hok.upToDate q (hok.counted q hq)⟩
  have hquorum : (scheme boot).quorum (config (scheme boot) (h.log n)) {q | q ∈ votes} := by
    rw [hn.log, ← (hw.views n).config_eq]
    exact ⟨fun p => votes.contains p, hq, fun q hq => (OrdSet.contains_iff _ _).mp hq⟩
  have hnone : h.leader (h.term n) = none := by
    by_contra hne
    obtain ⟨d, hd⟩ := Option.ne_none_iff_exists'.mp hne
    have hel : History.Election (scheme boot) h (h.term n) n (h.log n) {q | q ∈ votes} :=
      { coherent := hs.inv.coherent n
        lt := by
          rw [hn.term, hn.log]
          exact hok.older
        votes := hvotes
        quorum := hquorum }
    have := huniq _ _ _ _ d hel hd
    subst this
    exact hok.unled (hn.term ▸ hd)
  have hstep : History.Step (scheme boot) G h (h.elect n {q | q ∈ votes}) :=
    History.Step.elect n _ hnone hvotes hquorum
  have hle := hstep.le hs.inv
  have hlead : (h.elect n {q | q ∈ votes}).leader (h.term n) = some n := by
    simp [History.elect]
  refine ⟨_, Relation.ReflTransGen.single hstep, rfl,
    hs.set (hstep.inv hs.inv) hle ?_ ?_ (fun m hm => Or.inl hm) hs.voted ?_⟩
  · refine ⟨hn.term, hn.log, hn.vote, ?_, ?_⟩
    · intro votes' hc
      cases hc
    · intro _ _
      exact hn.term ▸ hlead
  · intro p hp
    refine (hs.nodes p).frame_votes hle rfl rfl ?_ rfl rfl
    intro hu
    by_cases ht : h.term p = h.term n
    · rw [ht, hlead]
      exact fun hx => hp (Option.some.inj hx).symm
    · simpa [History.elect, ht] using hu
  · intro t ht
    by_cases htn : t = h.term n
    · rw [htn, hn.term]
      exact (hw.views n).term_pos (by simp [hr])
    · exact hs.term_pos t (by simpa [History.elect, htn] using ht)

/-- A leader appends an entry of its term. -/
theorem Sim.append (hs : Sim boot w h) {l : LeaderView} (hr : (w.views n).role = .leader l)
    {e : Entry} (he : e.term = (w.views n).term) (hG : G h n e) :
    Advances boot G h (w.set n ((w.views n).setLog ((w.views n).log.append e)) w.net) := by
  have hn := hs.nodes n
  have hstep : History.Step (scheme boot) G h (h.append n e) :=
    History.Step.append n e (by rw [hn.term]; exact hn.leader l hr) (he.trans hn.term.symm) hG
  have hle := hstep.le hs.inv
  refine ⟨_, Relation.ReflTransGen.single hstep, rfl,
    hs.set (hstep.inv hs.inv) hle ?_ ?_ (fun m hm => Or.inl hm) hs.voted hs.term_pos⟩
  · refine ⟨hn.term, ?_, hn.vote, ?_, hn.leader⟩
    · have : (h.append n e).log n = h.log n ++ [e] := by simp [History.append]
      rw [this, hn.log]
      rfl
    · intro votes hc
      exact absurd (hr.symm.trans hc) (by simp)
  · intro p hp
    exact (hs.nodes p).frame_votes hle rfl (by simp [History.append, hp]) (fun hu => hu) rfl rfl

/-- A message that needs no change of state. -/
theorem Sim.emit (hs : Sim boot w h) (hw : w.Formed boot) {m : Message}
    (hm : Emits n (w.views n) w.net m) : Sim boot (w.set n (w.views n) (insert m w.net)) h := by
  have hn := hs.nodes n
  obtain ⟨hsender, hm⟩ := hm
  refine hs.set_same { hn with candidate := ?_ } ?_
  · intro votes hr
    refine { hn.candidate votes hr with asked := ?_ }
    rintro x (rfl | hx) req hxs hxt hxp
    · simp only [hxp] at hm
      exact hm.2.2
    · exact (hn.candidate votes hr).asked x hx req hxs hxt hxp
  · rintro x (rfl | hx)
    · refine Or.inr ⟨hsender, ?_⟩
      unfold MsgOk
      cases hp : x.payload with
      | voteRequest req =>
        simp only [hp] at hm ⊢
        rw [hsender, hn.term, hm.1]
      | voteResponse resp =>
        simp only [hp] at hm ⊢
        exact fun hg => absurd hg (by simp [hm])
      | appendRequest req =>
        simp only [hp] at hm ⊢
        obtain ⟨hterm, ⟨l, hl⟩, hprev, -, stop, hes⟩ := hm
        have hlead := hn.leader l hl
        have hlog : h.leaderLog (w.views n).term = (w.views n).log.entries := by
          rw [← hn.log]
          exact (hs.inv.leader_log _ n hlead hn.term).symm
        have hplain := (hw.views n).plain
        rw [hterm, hsender, hlog]
        refine ⟨hlead, ?_⟩
        rw [hprev, hes, hplain.slice_eq (req.prevLogIndex + 1) stop (Nat.succ_pos _),
          Nat.add_sub_cancel]
        by_cases hlen : req.prevLogIndex ≤ (w.views n).log.entries.length
        · left
          refine ⟨(w.views n).log.entries.take req.prevLogIndex, ?_, ?_, ?_⟩
          · rw [List.length_take]
            omega
          · by_cases hstop : req.prevLogIndex ≤ stop
            · have : (w.views n).log.entries.take req.prevLogIndex =
                  ((w.views n).log.entries.take stop).take req.prevLogIndex := by
                rw [List.take_take, min_eq_left hstop]
              rw [this, List.take_append_drop]
              exact List.take_prefix _ _
            · rw [List.drop_eq_nil_of_le (by rw [List.length_take]; omega), List.append_nil]
              exact List.take_prefix _ _
          · cases hk : req.prevLogIndex with
            | zero => simp [Log.Plain.termAt_zero]
            | succ k =>
              have hk' : k < (w.views n).log.entries.length := by omega
              rw [← List.take_concat_get' _ k hk', lastTerm_concat, hplain.termAt_succ,
                List.getElem?_eq_getElem hk']
              rfl
        · right
          refine ⟨?_, hplain.termAt_beyond (not_le.mp hlen), by omega⟩
          rw [List.drop_eq_nil_iff, List.length_take]
          omega
      | preVoteRequest | preVoteResponse | appendResponse | installSnapshotRequest
      | installSnapshotResponse | readIndexRequest | readIndexResponse | timeoutNow => trivial
    · exact Or.inl hx

end BasisDB.Raft
