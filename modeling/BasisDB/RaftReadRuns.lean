import BasisDB.RaftRuns

/-! Linearizable reads: what a leader confirms after a request was not overtaken
by a commit of another node before the request. -/
namespace BasisDB.Raft
open ReplicatedLog

section Step
variable {g : Guards} {n : NodeId} {v v' : View} {net net' : Set Message}

theorem Micro.term_le (hm : Micro g n v net v' net') : v.term ≤ v'.term := by
  cases hm with
  | observe t ht => exact ht.le
  | campaign => exact Nat.le_succ _
  | _ => exact le_rfl

theorem Micro.net_subset (hm : Micro g n v net v' net') : net ⊆ net' := by
  cases hm with
  | grant | absorb | emit => exact Set.subset_insert _ _
  | _ => exact subset_rfl

/-- An answer to a read request carries the term its sender is in. -/
theorem Micro.answer_term (hm : Micro g n v net v' net') {m : Message} (hmem : m ∈ net')
    {resp : ReadIndexResponse} (hp : m.payload = .readIndexResponse resp) :
    m ∈ net ∨ (m.sender = n ∧ m.term = v.term) := by
  cases hm with
  | grant | absorb =>
    rcases hmem with rfl | hmem
    · cases hp
    · exact Or.inl hmem
  | emit x hx =>
    rcases hmem with rfl | hmem
    · obtain ⟨hs, hx⟩ := hx
      simp only [hp] at hx
      exact Or.inr ⟨hs, hx.1⟩
    · exact Or.inl hmem
  | _ => exact Or.inl hmem

end Step

/-- What has happened between two worlds of a run: terms did not fall, and new
answers to read requests do not carry older terms. -/
structure Since (w₀ w : World) : Prop where
  term : ∀ q, (w₀.views q).term ≤ (w.views q).term
  answers : ∀ m ∈ w.net, ∀ resp, m.payload = .readIndexResponse resp →
    m ∈ w₀.net ∨ (w₀.views m.sender).term ≤ m.term

theorem Since.refl (w : World) : Since w w := ⟨fun _ => le_rfl, fun _ hm _ _ => Or.inl hm⟩

theorem Since.step {g : Guards} {w₀ w w' : World} (hs : Since w₀ w) (hstep : World.Step g w w') :
    Since w₀ w' := by
  obtain ⟨hm⟩ := hstep
  rename_i n v net
  refine ⟨?_, ?_⟩
  · intro q
    by_cases hq : q = n
    · subst hq
      rw [World.set_views_self]
      exact (hs.term q).trans hm.term_le
    · rw [World.set_views_ne _ _ _ hq]
      exact hs.term q
  · intro m hmem resp hp
    rcases hm.answer_term hmem hp with hold | ⟨hsend, hterm⟩
    · exact hs.answers m hold resp hp
    · rw [hsend, hterm]
      exact Or.inr (hs.term n)

/-- A read round: who opened it, in which term, its number, the index to confirm,
and the configuration whose quorum has to answer. -/
structure ReadRound where
  leader : NodeId
  term : ℕ
  id : ℕ
  index : ℕ
  config : Configuration

namespace ReadRound
variable (R : ReadRound)

/-- `q` is the leader, or sent an answer for this round in its term. -/
def Answered (net : Set Message) (q : NodeId) : Prop :=
  q = R.leader ∨ ∃ m ∈ net, m.sender = q ∧ m.receiver = R.leader ∧ m.term = R.term ∧
    m.payload = .readIndexResponse { id := R.id, readIndex := R.index }

def Open (net : Set Message) (l : LeaderView) : Prop :=
  ∃ p, l.pending = some p ∧ p.id = R.id ∧ p.readIndex = R.index ∧ p.configuration = R.config ∧
    l.confirmed < R.index ∧ ∀ q ∈ p.acks, R.Answered net q

def Confirmed (net : Set Message) : Prop :=
  ∃ A : OrdSet NodeId, R.config.hasQuorum (fun q => A.contains q) = true ∧
    ∀ q ∈ A, R.Answered net q

/-- As long as the leader leads its term, the round is open or was confirmed. -/
def Holds (w : World) : Prop :=
  R.term < (w.views R.leader).term ∨
  ((w.views R.leader).term = R.term ∧ (w.views R.leader).role = .follower) ∨
  ((w.views R.leader).term = R.term ∧ ∃ l, (w.views R.leader).role = .leader l ∧
    (R.Open w.net l ∨ R.Confirmed w.net))

variable {R} {net net' : Set Message}

theorem Answered.mono {q : NodeId} (h : R.Answered net q) (hnet : net ⊆ net') :
    R.Answered net' q := by
  rcases h with h | ⟨m, hm, hrest⟩
  · exact Or.inl h
  · exact Or.inr ⟨m, hnet hm, hrest⟩

theorem Open.mono {l : LeaderView} (h : R.Open net l) (hnet : net ⊆ net') : R.Open net' l := by
  obtain ⟨p, hp, hid, hidx, hcfg, hconf, hacks⟩ := h
  exact ⟨p, hp, hid, hidx, hcfg, hconf, fun q hq => (hacks q hq).mono hnet⟩

theorem Confirmed.mono (h : R.Confirmed net) (hnet : net ⊆ net') : R.Confirmed net' := by
  obtain ⟨A, hA, hans⟩ := h
  exact ⟨A, hA, fun q hq => (hans q hq).mono hnet⟩

/-- The leader's own steps while it leads. -/
theorem led_step {g : Guards} {v v' : View} (hm : Micro g R.leader v net v' net')
    (hterm : v.term = R.term) {l : LeaderView} (hl : v.role = .leader l)
    (h : R.Open net l ∨ R.Confirmed net) :
    R.term < v'.term ∨ (v'.term = R.term ∧ v'.role = .follower) ∨
      (v'.term = R.term ∧ ∃ l', v'.role = .leader l' ∧ (R.Open net' l' ∨ R.Confirmed net')) := by
  have hsub := hm.net_subset
  have hconf : R.Confirmed net → R.Confirmed net' := fun hc => hc.mono hsub
  -- a step that leaves the round and what is confirmed as they are
  have hkeep (l' : LeaderView) (hl' : v'.role = .leader l') (ht : v'.term = v.term)
      (hp : l'.pending = l.pending) (hc : l'.confirmed = l.confirmed) :
      v'.term = R.term ∧ ∃ l', v'.role = .leader l' ∧ (R.Open net' l' ∨ R.Confirmed net') := by
    refine ⟨ht.trans hterm, l', hl', h.imp ?_ hconf⟩
    rintro ⟨p, hpend, hid, hidx, hcfg, hlt, hacks⟩
    exact ⟨p, hp.trans hpend, hid, hidx, hcfg, hc ▸ hlt, fun q hq => (hacks q hq).mono hsub⟩
  cases hm with
  | observe t ht => exact Or.inl (hterm ▸ ht)
  | campaign => exact Or.inl (hterm ▸ Nat.lt_succ_self _)
  | stepDown | restart => exact Or.inr (Or.inl ⟨hterm, rfl⟩)
  | grant m req hm hp ht hr => exact absurd (hr.symm.trans hl) (by simp)
  | absorb m req hm hp ht hr => exact absurd (hr.symm.trans hl) (by simp)
  | countVote m votes hm hp ht hrec hr => exact absurd (hr.symm.trans hl) (by simp)
  | win votes l' hr => exact absurd (hr.symm.trans hl) (by simp)
  | appendCommand l₁ cmd hr | appendConfig l₁ c hr | commit l₁ i hr =>
    exact Or.inr (Or.inr (hkeep l hl rfl rfl rfl))
  | emit m hm => exact Or.inr (Or.inr (hkeep l hl rfl rfl rfl))
  | ownMatch l₁ k hr | peerMatch l₁ m k hm hp ht hrec hr =>
    rw [hl] at hr
    cases hr
    exact Or.inr (Or.inr (hkeep _ rfl rfl rfl rfl))
  | startRead l₁ hr hp | readNow l₁ hr hp =>
    rw [hl] at hr
    cases hr
    refine Or.inr (Or.inr ⟨hterm, _, rfl, Or.inr (h.resolve_left ?_)⟩)
    rintro ⟨p, hpend, -⟩
    rw [hp] at hpend
    cases hpend
  | ackRead l₁ p m hm hp ht hrec hr hpend =>
    rw [hl] at hr
    cases hr
    refine Or.inr (Or.inr ⟨hterm, _, rfl, h.imp_left ?_⟩)
    rintro ⟨p', hpend', hid, hidx, hcfg, hlt, hacks⟩
    rw [hpend] at hpend'
    cases hpend'
    refine ⟨_, rfl, hid, hidx, hcfg, hlt, ?_⟩
    intro q hq
    rcases (OrdSet.mem_insert _ _ _).mp hq with rfl | hq
    · exact Or.inr ⟨m, hm, rfl, hrec, ht.trans hterm, by rw [hp, hid, hidx]⟩
    · exact hacks q hq
  | confirmRead l₁ p m hm hp ht hrec hr hpend hq =>
    rw [hl] at hr
    cases hr
    refine Or.inr (Or.inr ⟨hterm, _, rfl, Or.inr ?_⟩)
    rcases h with ⟨p', hpend', hid, hidx, hcfg, hlt, hacks⟩ | hc
    · rw [hpend] at hpend'
      cases hpend'
      refine ⟨p.acks.insert m.sender, hcfg ▸ hq, ?_⟩
      intro q hq
      rcases (OrdSet.mem_insert _ _ _).mp hq with rfl | hq
      · exact Or.inr ⟨m, hm, rfl, hrec, ht.trans hterm, by rw [hp, hid, hidx]⟩
      · exact hacks q hq
    · exact hc

/-- A node that has fallen back to follower in a term does not lead that term again. -/
theorem deposed_step {g : Guards} {v v' : View} (hm : Micro g R.leader v net v' net')
    (hterm : v.term = R.term) (hr : v.role = .follower) :
    R.term < v'.term ∨ (v'.term = R.term ∧ v'.role = .follower) := by
  cases hm with
  | observe t ht => exact Or.inl (hterm ▸ ht)
  | campaign => exact Or.inl (hterm ▸ Nat.lt_succ_self _)
  | stepDown | restart => exact Or.inr ⟨hterm, rfl⟩
  | grant | absorb | emit => exact Or.inr ⟨hterm, hr⟩
  | countVote _ _ _ _ _ _ hr' | win _ _ hr' => exact absurd (hr.symm.trans hr') (by simp)
  | appendCommand _ _ hr' | appendConfig _ _ hr' | ownMatch _ _ hr' | peerMatch _ _ _ _ _ _ _ hr'
  | commit _ _ hr' | startRead _ hr' | readNow _ hr' | ackRead _ _ _ _ _ _ _ hr'
  | confirmRead _ _ _ _ _ _ _ hr' => exact absurd (hr.symm.trans hr') (by simp)

theorem Holds.step {g : Guards} {w w' : World} (hstep : World.Step g w w') (h : R.Holds w) :
    R.Holds w' := by
  obtain ⟨hm⟩ := hstep
  rename_i n v net
  by_cases hn : R.leader = n
  · subst hn
    unfold Holds
    rw [World.set_views_self]
    rcases h with h | ⟨hterm, hr⟩ | ⟨hterm, l, hl, hst⟩
    · exact Or.inl (h.trans_le hm.term_le)
    · exact (deposed_step hm hterm hr).imp_right Or.inl
    · exact led_step hm hterm hl hst
  · unfold Holds
    rw [World.set_views_ne _ _ _ hn]
    refine h.imp_right (Or.imp_right ?_)
    rintro ⟨hterm, l, hl, hst⟩
    exact ⟨hterm, l, hl, hst.imp (fun ho => ho.mono hm.net_subset) (fun hc => hc.mono hm.net_subset)⟩

end ReadRound

section Request
variable {boot : Configuration} {mode : MembershipMode} {h : History NodeId Entry} {w : World}
  {n : NodeId} {l : LeaderView}

/-- Without configuration changes there are no configuration entries. -/
theorem Kept.commands (hk : Kept boot mode False w h) : Commands boot h := by
  intro t e he
  by_contra hne
  obtain ⟨c, hc⟩ := Option.ne_none_iff_exists'.mp hne
  obtain ⟨i, hi⟩ := List.getElem?_of_mem he
  obtain ⟨hP, -⟩ := prefix_of_getElem? hi
  exact (hk.chained.entry hk.sim.inv (hk.sim.inv.leader_coherent t) hP hc).1.1

/-- The entry a leader committed last in its own term comes after all that earlier
terms committed. -/
theorem Kept.earlier_lt (hk : Kept boot mode False w h) {t i m T r m' : ℕ}
    (hrec : (t, i, m) ∈ h.commits) (hown : (T, r, m') ∈ h.commits) (hlt : t < T) : i < r := by
  have hI := hk.sim.inv
  by_contra hge
  obtain ⟨P, e, hP, hPi, he⟩ := hI.commit_own _ _ _ hrec
  obtain ⟨Q, x, hQ, hQr, hx⟩ := hI.commit_own _ _ _ hown
  have hPT : P ++ [e] <+: h.leaderLog T := by
    refine List.IsPrefix.trans ?_ (hk.complete t i m hrec T hlt (hI.commit_led _ _ _ hown))
    refine List.prefix_take_iff.mpr ⟨hP, ?_⟩
    rw [List.length_append, List.length_singleton, hPi]
  have hmem : x ∈ P ++ [e] := by
    refine (prefix_of_longer hQ hPT ?_).subset (by simp)
    simp only [List.length_append, List.length_singleton]
    omega
  have := ((hI.ordered T).of_isPrefix hPT).le_last hmem
  omega

/-- If a quorum has not moved past a leader's term, nobody has committed more. -/
theorem Kept.commits_below (hk : Kept boot mode False w h) (hl : (w.views n).role = .leader l)
    (hown : (w.views n).TermCommitted) {A : Set NodeId}
    (hA : (scheme boot).quorum (w.views n).effectiveConfig A)
    (hle : ∀ q ∈ A, (w.views q).term ≤ (w.views n).term) (p : NodeId) :
    (w.views p).commitIndex ≤ (w.views n).commitIndex := by
  have hI := hk.sim.inv
  by_contra hlt
  obtain ⟨t, i, m, hrec, -, hi, -⟩ := (hk.acked.nodes p).secured.2 (by omega)
  obtain ⟨m', hm'⟩ := hk.record hl hown
  rcases lt_trichotomy t (w.views n).term with ht | ht | ht
  · have := hk.earlier_lt hrec hm' ht
    omega
  · have := (hk.acked.nodes n).own l hl i m (ht ▸ hrec)
    omega
  · -- a leader of a later term was elected by a quorum of that term
    obtain ⟨c, hc⟩ := Option.ne_none_iff_exists'.mp (hI.commit_led _ _ _ hrec)
    have hplain := hk.commands
    have hstart : config (scheme boot) (h.startLog t) = (scheme boot).boot :=
      config_append_plain (P := []) (fun e he => hplain t e ((hI.start_prefix t).subset he))
    have hcfg : (w.views n).effectiveConfig = (scheme boot).boot := by
      rw [(hk.formed.views n).config_eq, ← (hk.sim.nodes n).log]
      exact config_append_plain (P := []) (hplain.log hI n)
    have hq := hI.electors_quorum t (by rw [hc]; simp)
    rw [hstart] at hq
    rw [hcfg] at hA
    obtain ⟨v, hvA, hvE⟩ := (legal_overlapping boot mode).self _ A (h.electors t) hA hq
    have h1 := hI.vote_le v t c (hI.electors_vote t c hc v hvE).1
    rw [(hk.sim.nodes v).term] at h1
    have h2 := hle v hvA
    omega

/-- When a round is opened, no answer for it has been sent yet. -/
theorem Reads.unanswered (hr : Reads w h) (hk : Kept boot mode False w h)
    (hl : (w.views n).role = .leader l) (hown : (w.views n).TermCommitted) {m : Message}
    (hm : m ∈ w.net) (ht : m.term = (w.views n).term) :
    m.payload ≠ .readIndexResponse
      { id := l.nextReadId, readIndex := (w.views n).commitIndex } := by
  intro hp
  have hmsg := hr.net m hm
  simp only [MsgRead, hp] at hmsg
  obtain ⟨q, hq, hqt, hqp⟩ := hmsg
  rw [ht] at hqt
  rcases hqt.lt_or_eq with hlt | heq
  · -- a round of an earlier term was about an entry of that term
    have hqmsg := hr.net q hq
    simp only [MsgRead, hqp] at hqmsg
    obtain ⟨i, hi⟩ := hqmsg
    obtain ⟨m', hm'⟩ := hk.record hl hown
    exact lt_irrefl _ (hk.earlier_lt hi hm' hlt)
  · exact lt_irrefl _ ((hr.nodes n).ids l hl q hq heq _ hqp)

end Request

namespace RaftNode

/-- Nothing that was confirmed before answers a read request made now: the commit
index has not been confirmed, or the leader's own word is a quorum. -/
def readsAfresh (node : RaftNode) : Bool :=
  match node.role with
  | .leader l => decide (l.confirmedReadIndex < node.commitIndex) ||
      node.core.effectiveConfig.hasQuorum (fun q => (OrdSet.singleton node.core.id).contains q)
  | _ => true

theorem requestReadIndex_eq {node : RaftNode} {r : ℕ}
    (h : node.requestReadIndex.map Prod.fst = .ok r) :
    ∃ eff node', node.requestReadIndex = .ok (r, eff, node') := by
  cases hreq : node.requestReadIndex with
  | error e =>
    rw [hreq] at h
    cases h
  | ok x =>
    rw [hreq] at h
    cases h
    exact ⟨x.2.1, x.2.2, rfl⟩

/-- What a read request that is not refused leaves behind. -/
theorem requestReadIndex_ok {node node' : RaftNode} {r : ℕ} {eff : Effects}
    (h : node.requestReadIndex = .ok (r, eff, node')) :
    ∃ l, node.role = .leader l ∧ (Leader.currentTermCommitIndex node.core).isSome = true ∧
      r = node.commitIndex ∧ node'.core = node.core ∧
      (node.core.effectiveConfig.hasQuorum
          (fun q => (OrdSet.singleton node.core.id).contains q) = false →
        node'.role = .leader
          { l with
            nextReadId := l.nextReadId + 1
            pendingReadIndex := some
              { id := l.nextReadId
                readIndex := r
                configuration := node.core.effectiveConfig
                acks := OrdSet.singleton node.core.id } }) := by
  unfold requestReadIndex at h
  split at h
  · rename_i l hr
    refine ⟨l, hr, ?_⟩
    unfold Leader.requestReadIndex at h
    cases hpend : l.pendingReadIndex with
    | some p =>
      simp only [hpend] at h
      cases h
    | none =>
      simp only [hpend] at h
      by_cases hnone : (Leader.currentTermCommitIndex node.core).isNone = true
      · simp only [hnone, if_true] at h
        cases h
      · simp only [hnone] at h
        have hsome : (Leader.currentTermCommitIndex node.core).isSome = true :=
          Option.isSome_iff_ne_none.mpr (fun he => hnone (by simp [he]))
        by_cases hq : node.core.effectiveConfig.hasQuorum
            (fun q => (OrdSet.singleton node.core.id).contains q) = true
        · simp only [hq] at h
          cases h
          exact ⟨hsome, rfl, rfl, fun hf => absurd (hq.symm.trans hf) Bool.noConfusion⟩
        · simp only [hq] at h
          cases h
          exact ⟨hsome, rfl, rfl, fun _ => rfl⟩
  · cases h

end RaftNode

namespace Cluster
variable {configs : NodeId → Config} {voters : List NodeId} {acts : List Action}

/-- The round that a read request opens, from the moment after the request. -/
theorem readRound_opens {s : Cluster} {n : NodeId} {r : ℕ} {eff : Effects} {node' : RaftNode}
    {l : Leader} (hid : (s.nodes n).core.id = n) (hl : (s.nodes n).role = .leader l)
    (hreq : (s.nodes n).requestReadIndex = .ok (r, eff, node'))
    (hlt : l.confirmedReadIndex < (s.nodes n).commitIndex)
    (hq : (s.nodes n).core.effectiveConfig.hasQuorum
      (fun q => (OrdSet.singleton (s.nodes n).core.id).contains q) = false) :
    (ReadRound.mk n (s.nodes n).term l.nextReadId r (s.nodes n).core.effectiveConfig).Holds
      (s.step (.requestReadIndex n)).world := by
  obtain ⟨l', hl', -, rfl, hcore, hrole⟩ := RaftNode.requestReadIndex_ok hreq
  rw [hl] at hl'
  cases hl'
  have hview : ((s.step (.requestReadIndex n)).world.views n) = node'.view := by
    simp [step, hreq, handleCall, handleEffects, world]
  have hterm : node'.view.term = (s.nodes n).term := by
    simp [RaftNode.view, Core.view, View.term, hcore, RaftNode.term, Core.term]
  have hnew : node'.view.role = _ := congrArg RoleState.view (hrole hq)
  refine Or.inr (Or.inr ⟨(congrArg View.term hview).trans hterm, _,
    (congrArg View.role hview).trans hnew, Or.inl ⟨_, rfl, rfl, rfl, rfl, hlt, ?_⟩⟩)
  intro q hq
  rw [hid] at hq
  exact Or.inl ((OrdSet.mem_singleton _ _).mp hq)

/-- A read index that is ready in the round's term was confirmed by a quorum. -/
theorem confirmed_of_ready {s : Cluster} {R : ReadRound} (hR : R.Holds s.world)
    (hterm : (s.nodes R.leader).term = R.term)
    (hready : (s.nodes R.leader).readIndexReady R.index = true) : R.Confirmed s.world.net := by
  cases hl : (s.nodes R.leader).role with
  | leader l =>
    simp only [RaftNode.readIndexReady, hl, Leader.readIndexReady, Bool.and_eq_true,
      decide_eq_true_eq] at hready
    have hrole : (s.world.views R.leader).role = .leader l.view := congrArg RoleState.view hl
    rcases hR with hlt | ⟨-, hf⟩ | ⟨-, l', hl', hst⟩
    · exact absurd hlt (by rw [← hterm]; exact lt_irrefl _)
    · rw [hrole] at hf
      cases hf
    · rw [hrole] at hl'
      cases hl'
      refine hst.resolve_left ?_
      rintro ⟨p, -, -, -, -, hlt, -⟩
      exact absurd hready.1 (not_le.mpr hlt)
  | follower f | preCandidate f | candidate f => simp [RaftNode.readIndexReady, hl] at hready

/-- Linearizable reads: in a truthful run, a read index that was requested afresh and
is ready while the same term lasts is at least what any node had committed at the
request, and a quorum has answered a round that was not announced before it. -/
theorem read_index_linearizable (configs : NodeId → Config) (voters : List NodeId)
    (acts : List Action) (hfix : FixedMembership acts)
    (htrue : (init configs voters).Truthful acts) (j k : ℕ) (hjk : j < k) (n : NodeId) (r : ℕ)
    (hact : acts[j]? = some (.requestReadIndex n))
    (hreq : (((init configs voters).moment acts j).nodes n).requestReadIndex.map Prod.fst = .ok r)
    (hfresh : (((init configs voters).moment acts j).nodes n).readsAfresh = true)
    (hterm : (((init configs voters).moment acts k).nodes n).term =
      (((init configs voters).moment acts j).nodes n).term)
    (hready : (((init configs voters).moment acts k).nodes n).readIndexReady r = true) :
    (∀ p, (((init configs voters).moment acts j).nodes p).commitIndex ≤ r) ∧
      ∃ (id : ℕ) (A : OrdSet NodeId),
        (∀ m ∈ ((init configs voters).moment acts j).net, ∀ req,
          m.term = (((init configs voters).moment acts j).nodes n).term →
          m.payload = .readIndexRequest req → req.id ≠ id) ∧
        (((init configs voters).moment acts j).nodes n).core.effectiveConfig.hasQuorum
          (fun q => A.contains q) = true ∧
        ∀ q ∈ A, q = n ∨ ∃ m ∈ ((init configs voters).moment acts k).net,
          m ∉ ((init configs voters).moment acts j).net ∧ m.sender = q ∧ m.receiver = n ∧
          m.term = (((init configs voters).moment acts j).nodes n).term ∧
          m.payload = .readIndexResponse { id := id, readIndex := r } := by
  have hresp := fixed_respects configs voters hfix htrue
  obtain ⟨hs, ht⟩ := tracked_run configs voters hresp j
  have hkept := ht.kept j le_rfl
  have hreads := ht.reads j le_rfl
  have hid := (ht.sound j le_rfl).id n
  obtain ⟨eff, node', hreq⟩ := RaftNode.requestReadIndex_eq hreq
  obtain ⟨l, hl, hsome, hr, -, -⟩ := RaftNode.requestReadIndex_ok hreq
  set s := (init configs voters).moment acts j with hsdef
  have hrole : (s.world.views n).role = .leader l.view := congrArg RoleState.view hl
  have hown : (s.world.views n).TermCommitted := Leader.termCommitted_of_isSome _ hsome
  have hunasked (m : Message) (hm : m ∈ s.net) (req : ReadIndexRequest)
      (hmt : m.term = (s.nodes n).term) (hp : m.payload = .readIndexRequest req) :
      req.id ≠ l.nextReadId := ((hreads.nodes n).ids _ hrole m hm hmt req hp).ne
  -- the quorum that answers is still in the term, so nobody has committed more
  have hdone (A : OrdSet NodeId)
      (hA : (s.nodes n).core.effectiveConfig.hasQuorum (fun q => A.contains q) = true)
      (hle : ∀ q ∈ A, (s.nodes q).term ≤ (s.nodes n).term) (p : NodeId) :
      (s.nodes p).commitIndex ≤ r := by
    rw [hr]
    exact hkept.commits_below hrole hown (A := {q | q ∈ A})
      ⟨_, hA, fun q hq => (OrdSet.contains_iff A q).mp hq⟩ hle p
  cases hq : (s.nodes n).core.effectiveConfig.hasQuorum
      (fun q => (OrdSet.singleton (s.nodes n).core.id).contains q) with
  | true =>
    rw [hid] at hq
    refine ⟨hdone _ hq ?_, l.nextReadId, _, hunasked, hq, ?_⟩
    · intro q hqn
      rw [(OrdSet.mem_singleton _ _).mp hqn]
    · exact fun q hqn => Or.inl ((OrdSet.mem_singleton _ _).mp hqn)
  | false =>
    have hlt : l.confirmedReadIndex < (s.nodes n).commitIndex := by
      simpa [RaftNode.readsAfresh, hl, hq] using hfresh
    have hopen := readRound_opens hid hl hreq hlt hq
    rw [hsdef, ← moment_succ _ acts hact] at hopen
    have hholds := run_invariant configs voters hresp
      (fun _ _ _ hstep => ReadRound.Holds.step hstep) (Nat.succ_le_of_lt hjk) hopen
    have hsince := run_invariant configs voters hresp
      (fun _ _ _ hstep hw => Since.step hw hstep) hjk.le (Since.refl s.world)
    obtain ⟨A, hA, hans⟩ := confirmed_of_ready hholds hterm hready
    -- every answer was sent after the request, in the leader's term
    have hnew (q : NodeId) (hqA : q ∈ A) : q = n ∨
        ∃ m ∈ ((init configs voters).moment acts k).net, m ∉ s.net ∧ m.sender = q ∧
          m.receiver = n ∧ m.term = (s.nodes n).term ∧
          m.payload = .readIndexResponse { id := l.nextReadId, readIndex := r } := by
      rcases hans q hqA with hqn | ⟨m, hm, hsend, hrec, hmt, hp⟩
      · exact Or.inl hqn
      · refine Or.inr ⟨m, hm, fun hold => ?_, hsend, hrec, hmt, hp⟩
        exact hreads.unanswered hkept hrole hown hold hmt (by rw [hp, hr]; rfl)
    refine ⟨hdone A hA ?_, l.nextReadId, A, hunasked, hA, hnew⟩
    intro q hqA
    rcases hnew q hqA with rfl | ⟨m, hm, hold, hsend, -, hmt, hp⟩
    · exact le_rfl
    · rcases hsince.answers m hm _ hp with hin | hle
      · exact absurd hin hold
      · rw [hsend, hmt] at hle
        exact hle

/-- Two nodes: the leader of `pairRun` asks for a read, and the other one answers. -/
def pairRead : List Action :=
  pairRun ++ [.requestReadIndex 0, .deliver 7, .deliver 8, .advance 0 1]

theorem read_index_linearizable_pairRead :
    (((init quickConfig [0, 1]).moment pairRead 12).nodes 0).readIndexReady 1 = true ∧
      (((init quickConfig [0, 1]).moment pairRead 8).nodes 1).commitIndex ≤ 1 :=
  ⟨by decide +kernel,
    (read_index_linearizable quickConfig [0, 1] pairRead (by decide) (by decide +kernel) 8 12
      (by decide) 0 1 rfl (by decide +kernel) (by decide +kernel) (by decide +kernel)
      (by decide +kernel)).1 1⟩

/-- Node 0 has index 1 confirmed. Node 1 then leads term 2 and commits index 2, and
node 0, which does not know, is asked for a read again. -/
def staleRead : List Action :=
  [.tick 0, .deliver 0, .deliver 2, .propose 0 ⟨[7]⟩, .deliver 5, .deliver 7, .requestReadIndex 0,
    .deliver 8, .deliver 10, .advance 0 1, .tick 1, .deliver 12, .deliver 13, .propose 1 ⟨[8]⟩,
    .deliver 15, .deliver 18, .deliver 19, .deliver 20, .requestReadIndex 0]

/-- The second request is ready at once, below what node 1 has committed. -/
theorem staleRead_misses_commit :
    FixedMembership staleRead ∧ staleRead[18]? = some (.requestReadIndex 0) ∧
      (((init quickConfig [0, 1, 2]).moment staleRead 18).nodes 0).requestReadIndex.map Prod.fst =
        .ok 1 ∧
      (((init quickConfig [0, 1, 2]).moment staleRead 19).nodes 0).isLeader = true ∧
      (((init quickConfig [0, 1, 2]).moment staleRead 19).nodes 0).term =
        (((init quickConfig [0, 1, 2]).moment staleRead 18).nodes 0).term ∧
      (((init quickConfig [0, 1, 2]).moment staleRead 19).nodes 0).readIndexReady 1 = true ∧
      (((init quickConfig [0, 1, 2]).moment staleRead 18).nodes 1).commitIndex = 2 := by
  refine ⟨by decide, rfl, ?_, ?_, ?_, ?_, ?_⟩ <;> decide +kernel

end Cluster
end BasisDB.Raft
