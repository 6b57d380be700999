import BasisDB.RaftAckedSteps

/-! Read-index rounds. A leader numbers its rounds, opens one only at an index it
committed in its own term, and every answer goes back to a request. -/
namespace BasisDB.Raft
open ReplicatedLog

structure NodeRead (h : History NodeId Entry) (net : Set Message) (v : View) : Prop where
  pending : ∀ l p, v.role = .leader l → l.pending = some p →
    p.id < l.nextReadId ∧ ∃ m, (v.term, p.readIndex, m) ∈ h.commits
  ids : ∀ l, v.role = .leader l → ∀ m ∈ net, m.term = v.term → ∀ req,
    m.payload = .readIndexRequest req → req.id < l.nextReadId

def MsgRead (h : History NodeId Entry) (net : Set Message) (m : Message) : Prop :=
  match m.payload with
  | .readIndexRequest req => ∃ i, (m.term, req.readIndex, i) ∈ h.commits
  | .readIndexResponse resp => ∃ q ∈ net, q.term ≤ m.term ∧
      q.payload = .readIndexRequest { id := resp.id, readIndex := resp.readIndex }
  | _ => True

structure Reads (w : World) (h : History NodeId Entry) : Prop where
  nodes : ∀ n, NodeRead h w.net (w.views n)
  net : ∀ m ∈ w.net, MsgRead h w.net m

variable {boot : Configuration} {h h' : History NodeId Entry} {w : World} {n : NodeId} {v v' : View}
  {net net' : Set Message} {mode : MembershipMode} {reconfig : Prop}

theorem MsgRead.mono {m : Message} (hm : MsgRead h net m) (hle : History.Le h h')
    (hnet : net ⊆ net') : MsgRead h' net' m := by
  unfold MsgRead at hm ⊢
  cases hp : m.payload with
  | readIndexRequest req =>
    simp only [hp] at hm ⊢
    obtain ⟨i, hi⟩ := hm
    exact ⟨i, hle.commits hi⟩
  | readIndexResponse resp =>
    simp only [hp] at hm ⊢
    obtain ⟨q, hq, hrest⟩ := hm
    exact ⟨q, hnet hq, hrest⟩
  | preVoteRequest | preVoteResponse | voteRequest | voteResponse | appendRequest | appendResponse
  | installSnapshotRequest | installSnapshotResponse | timeoutNow => trivial

theorem NodeRead.of_not_leader (hr : ∀ l, v.role ≠ .leader l) : NodeRead h net v where
  pending := fun l _ hl => absurd hl (hr l)
  ids := fun l hl => absurd hl (hr l)

/-- A leader that does not start a round, or drops the one it has. -/
theorem NodeRead.keep (hn : NodeRead h net v) (hle : History.Le h h') (hterm : v'.term = v.term)
    (hrole : ∀ l', v'.role = .leader l' → ∃ l, v.role = .leader l ∧
      l.nextReadId ≤ l'.nextReadId ∧ ∀ p', l'.pending = some p' →
        ∃ p, l.pending = some p ∧ p.id = p'.id ∧ p.readIndex = p'.readIndex) :
    NodeRead h' net v' where
  pending := by
    intro l' p' hl' hp'
    obtain ⟨l, hl, hid, hpend⟩ := hrole l' hl'
    obtain ⟨p, hp, hpid, hpr⟩ := hpend p' hp'
    obtain ⟨hlt, m, hm⟩ := hn.pending l p hl hp
    rw [hterm, ← hpid, ← hpr]
    exact ⟨hlt.trans_le hid, m, hle.commits hm⟩
  ids := by
    intro l' hl' m hm ht req hreq
    obtain ⟨l, hl, hid, -⟩ := hrole l' hl'
    exact (hn.ids l hl m hm (ht.trans hterm) req hreq).trans_le hid

/-- A step of node `n`: only a leader sends requests, and no other node leads its term. -/
theorem Reads.set (hr : Reads w h) (hk : Kept boot mode reconfig w h) (hle : History.Le h h')
    (hsub : w.net ⊆ net) (hn : NodeRead h' net v)
    (hnet : ∀ m ∈ net, m ∈ w.net ∨ (MsgRead h' net m ∧ ∀ req, m.payload = .readIndexRequest req →
      m.term = (w.views n).term ∧ ∃ l, (w.views n).role = .leader l)) :
    Reads (w.set n v net) h' where
  nodes := by
    intro p
    by_cases hp : p = n
    · subst hp
      simpa using hn
    · rw [World.set_views_ne _ _ _ hp]
      refine ⟨?_, ?_⟩
      · intro l q hl hq
        obtain ⟨hlt, m, hm⟩ := (hr.nodes p).pending l q hl hq
        exact ⟨hlt, m, hle.commits hm⟩
      · intro l hl m hm ht req hreq
        rcases hnet m hm with hm | ⟨-, hsent⟩
        · exact (hr.nodes p).ids l hl m hm ht req hreq
        · obtain ⟨hmt, l', hl'⟩ := hsent req hreq
          have h1 := (hk.sim.nodes p).leader l hl
          have h2 := (hk.sim.nodes n).leader l' hl'
          rw [← ht, hmt, h2] at h1
          exact absurd (Option.some.inj h1).symm hp
  net := by
    intro m hm
    rcases hnet m hm with hm | ⟨hm, -⟩
    · exact (hr.net m hm).mono hle hsub
    · exact hm

/-- No request of a new leader's term was sent before it. -/
theorem Reads.unasked (hr : Reads w h) (hk : Kept boot mode reconfig w h)
    {votes : OrdSet NodeId} (hrole : (w.views n).role = .candidate votes) (hle : History.Le h h')
    (hlead : h'.leader (w.views n).term = some n) {m : Message} (hm : m ∈ w.net)
    (ht : m.term = (w.views n).term) {req : ReadIndexRequest}
    (hreq : m.payload = .readIndexRequest req) : False := by
  have hmsg := hr.net m hm
  simp only [MsgRead, hreq] at hmsg
  obtain ⟨i, hi⟩ := hmsg
  obtain ⟨d, hd⟩ := Option.ne_none_iff_exists'.mp (hk.sim.inv.commit_led _ _ _ hi)
  rw [ht] at hd
  have := hle.leader _ d hd
  rw [hlead] at this
  exact ((hk.sim.nodes n).candidate votes hrole).unled (Option.some.inj this ▸ hd)

/-- A message that needs no change of state. -/
theorem Reads.emit (hr : Reads w h) {m : Message} (hm : Emits n (w.views n) w.net m) :
    MsgRead h w.net m ∧ ∀ req, m.payload = .readIndexRequest req →
      m.term = (w.views n).term ∧ ∃ l p, (w.views n).role = .leader l ∧ l.pending = some p ∧
        req = { id := p.id, readIndex := p.readIndex } := by
  obtain ⟨-, hm⟩ := hm
  unfold MsgRead
  cases hp : m.payload with
  | readIndexRequest req =>
    simp only [hp] at hm ⊢
    obtain ⟨hterm, l, p, hl, hpend, hreq⟩ := hm
    obtain ⟨-, i, hi⟩ := (hr.nodes n).pending l p hl hpend
    subst hreq
    refine ⟨⟨i, hterm ▸ hi⟩, fun req hreq => ⟨hterm, l, p, hl, hpend, ?_⟩⟩
    exact (Payload.readIndexRequest.inj hreq).symm
  | readIndexResponse resp =>
    simp only [hp] at hm ⊢
    obtain ⟨hterm, q, hq, hqt, hqp⟩ := hm
    exact ⟨⟨q, hq, hterm ▸ hqt, hqp⟩, fun req hreq => Payload.noConfusion hreq⟩
  | preVoteRequest | preVoteResponse | voteRequest | voteResponse | appendRequest | appendResponse
  | installSnapshotRequest | installSnapshotResponse | timeoutNow =>
    exact ⟨trivial, fun req hreq => Payload.noConfusion hreq⟩

theorem Reads.step {g : Guards} (hr : Reads w h) (hk : Kept boot mode reconfig w h) {w' : World}
    (hk' : Kept boot mode reconfig w' h') (hle : History.Le h h') (hstep : World.Step g w w') :
    Reads w' h' := by
  obtain ⟨hm⟩ := hstep
  rename_i n v net
  have hn := hr.nodes n
  have hquiet (hv : NodeRead h' w.net v) : Reads (w.set n v w.net) h' :=
    hr.set hk hle subset_rfl hv (fun m hm => Or.inl hm)
  cases hm with
  | observe | stepDown | restart | campaign | countVote =>
    exact hquiet (NodeRead.of_not_leader (fun l hl => by cases hl))
  | grant m req hm hp ht hrole =>
    refine hr.set hk hle (Set.subset_insert _ _) (NodeRead.of_not_leader ?_) ?_
    · intro l hl
      exact absurd (hrole.symm.trans hl) (by simp)
    · rintro x (rfl | hx)
      · exact Or.inr ⟨trivial, fun req hreq => Payload.noConfusion hreq⟩
      · exact Or.inl hx
  | absorb m req hm hp ht hrole =>
    refine hr.set hk hle (Set.subset_insert _ _) (NodeRead.of_not_leader ?_) ?_
    · intro l hl
      exact absurd (hrole.symm.trans hl) (by simp)
    · rintro x (rfl | hx)
      · exact Or.inr ⟨trivial, fun req hreq => Payload.noConfusion hreq⟩
      · exact Or.inl hx
  | win votes l hrole hq hmatch hid hpend =>
    have hlead := (hk'.sim.nodes n).leader l (by rw [World.set_views_self]; rfl)
    rw [World.set_views_self] at hlead
    refine hquiet ⟨?_, ?_⟩
    · intro l' p hl' hp
      cases hl'
      rw [hpend] at hp
      cases hp
    · intro l' hl' m hm ht req hreq
      exact (hr.unasked hk hrole hle hlead hm ht hreq).elim
  | appendCommand l cmd hrole | appendConfig l c hrole | commit l i hrole =>
    exact hquiet (hn.keep hle rfl (fun l' hl' => ⟨l', hl', le_rfl, fun p hp => ⟨p, hp, rfl, rfl⟩⟩))
  | ownMatch l k hrole | peerMatch l m k hm hp ht hrec hrole =>
    refine hquiet (hn.keep hle rfl ?_)
    intro l' hl'
    cases hl'
    exact ⟨l, hrole, le_rfl, fun p hp => ⟨p, hp, rfl, rfl⟩⟩
  | startRead l hrole hp hown =>
    refine hquiet ⟨?_, ?_⟩
    · intro l' p hl' hp'
      cases hl'
      cases hp'
      obtain ⟨m, hm⟩ := hk.record hrole hown
      exact ⟨Nat.lt_succ_self _, m, hle.commits hm⟩
    · intro l' hl' m hm ht req hreq
      cases hl'
      exact (hn.ids l hrole m hm ht req hreq).trans (Nat.lt_succ_self _)
  | readNow l hrole hp =>
    refine hquiet (hn.keep hle rfl ?_)
    intro l' hl'
    cases hl'
    exact ⟨l, hrole, Nat.le_succ _, fun p hp => ⟨p, hp, rfl, rfl⟩⟩
  | ackRead l p m hm hp ht hrec hrole hpend =>
    refine hquiet (hn.keep hle rfl ?_)
    intro l' hl'
    cases hl'
    refine ⟨l, hrole, le_rfl, fun p' hp' => ?_⟩
    cases hp'
    exact ⟨p, hpend, rfl, rfl⟩
  | confirmRead l p m hm hp ht hrec hrole hpend =>
    refine hquiet (hn.keep hle rfl ?_)
    intro l' hl'
    cases hl'
    exact ⟨l, hrole, le_rfl, fun p' hp' => by cases hp'⟩
  | emit m hm =>
    obtain ⟨hmsg, hsent⟩ := hr.emit hm
    refine hr.set hk hle (Set.subset_insert _ _) ⟨?_, ?_⟩ ?_
    · exact (hn.keep hle rfl (fun l' hl' => ⟨l', hl', le_rfl, fun p hp => ⟨p, hp, rfl, rfl⟩⟩)).pending
    · rintro l hl x (rfl | hx) ht req hreq
      · obtain ⟨-, l', p, hl', hpend, rfl⟩ := hsent req hreq
        rw [hl] at hl'
        cases hl'
        exact (hn.pending l p hl hpend).1
      · exact hn.ids l hl x hx ht req hreq
    · rintro x (rfl | hx)
      · refine Or.inr ⟨hmsg.mono hle (Set.subset_insert _ _), fun req hreq => ?_⟩
        obtain ⟨ht, l, p, hl, -⟩ := hsent req hreq
        exact ⟨ht, l, hl⟩
      · exact Or.inl hx

/-- Reads are kept along with everything else. -/
theorem Kept.steps_reads {g : Guards} (hk : Kept boot g.mode g.reconfig w h) (hs : g.strict)
    (hf : Faithful g h) (hr : Reads w h) {w' : World} (hsteps : Relation.ReflTransGen (World.Step g) w w') :
    ∃ h', History.Le h h' ∧ Kept boot g.mode g.reconfig w' h' ∧ Reads w' h' := by
  induction hsteps with
  | refl => exact ⟨h, History.Le.refl h, hk, hr⟩
  | tail _ hlast ih =>
    obtain ⟨h₁, hle, hk₁, hr₁⟩ := ih
    obtain ⟨h₂, hle', hk₂⟩ := hk₁.step hs (hf.mono hle) hlast
    exact ⟨h₂, hle.trans hle', hk₂, hr₁.step hk₁ hk₂ hle' hlast⟩

end BasisDB.Raft
