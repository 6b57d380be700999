import BasisDB.RaftSimSteps

/-! The append loop under the simulation, and the simulation for any small step. -/
namespace BasisDB.Raft
open ReplicatedLog

variable {boot : Configuration} {G : History NodeId Entry → NodeId → Entry → Prop}
  {h : History NodeId Entry} {w : World} {n : NodeId}

theorem Sim.leaderLog_pos (hs : Sim boot w h) (t : ℕ) : ∀ e ∈ h.leaderLog t, 0 < e.term := by
  intro e he
  obtain ⟨i, hi⟩ := List.getElem?_of_mem he
  obtain ⟨hp, -⟩ := prefix_of_getElem? hi
  exact hs.term_pos _ (hs.inv.led_of_prefix (hs.inv.leader_coherent t) hp)

/-- The consistency check: a matching previous entry means a common history. -/
theorem Sim.accepted_prefix (hs : Sim boot w h) (hw : w.Formed boot) {req : AppendRequest}
    {t : ℕ} {P : List Entry} (hP : P <+: h.leaderLog t) (hlen : P.length = req.prevLogIndex)
    (hterm : lastTerm (scheme boot) P = req.prevLogTerm)
    (hacc : Follower.accepts (w.views n).log req = true) : P <+: (w.views n).log.entries := by
  rcases List.eq_nil_or_concat' P with rfl | ⟨Q, x, rfl⟩
  · exact List.nil_prefix
  have hpos : 0 < req.prevLogIndex := by
    rw [← hlen, List.length_append, List.length_singleton]
    omega
  have hmatch : (w.views n).log.termAt req.prevLogIndex = req.prevLogTerm := by
    simpa [Follower.accepts, hpos] using hacc
  rw [lastTerm_concat] at hterm
  have hx : 0 < x.term := hs.leaderLog_pos t x (hP.subset (by simp))
  have hne : (w.views n).log.termAt req.prevLogIndex ≠ 0 := by
    rw [hmatch, ← hterm]
    exact hx.ne'
  obtain ⟨R, y, hR, hRlen, hy⟩ := (hw.views n).plain.entry_of_termAt hne
  have hcoh : Coherent (scheme boot) h.leaderLog (w.views n).log.entries :=
    (hs.nodes n).log ▸ hs.inv.coherent n
  have hlen' : Q.length = R.length := by
    rw [List.length_append, List.length_singleton] at hlen
    omega
  have heq := (hs.inv.leader_coherent t).matching hcoh hP hR hlen'
    (hterm.trans (hmatch.symm.trans hy.symm))
  rw [heq]
  exact hR

/-- An accepted request that finds all its entries leaves the log as it was; any
other one makes it a prefix of the sender's log that the follower did not hold. -/
theorem Sim.absorbed (hs : Sim boot w h) (hw : w.Formed boot) {m : Message} {req : AppendRequest}
    (hm : m ∈ w.net) (hp : m.payload = .appendRequest req)
    (hacc : Follower.accepts (w.views n).log req = true) :
    ((Follower.appendEntries (w.views n).log req.entries).1 = (w.views n).log ∧
      ∀ e ∈ req.entries, (w.views n).log.termAt e.index = e.term) ∨
    ∃ k, (Follower.appendEntries (w.views n).log req.entries).1.entries =
        (h.leaderLog m.term).take k ∧
      k ≤ (h.leaderLog m.term).length ∧ ¬(h.leaderLog m.term).take k <+: (w.views n).log.entries := by
  have hmsg := hs.net m hm
  have hform := hw.net m hm
  simp only [MsgOk, hp] at hmsg
  simp only [Message.Formed, hp] at hform
  have hplain := (hw.views n).plain
  rcases hmsg.2 with ⟨P, hlen, hpre, hterm⟩ | ⟨hnil, -, -⟩
  · have hP := hs.accepted_prefix hw ((List.prefix_append P req.entries).trans hpre) hlen hterm hacc
    have hcoh : Coherent (scheme boot) h.leaderLog (w.views n).log.entries :=
      (hs.nodes n).log ▸ hs.inv.coherent n
    have hmatch : Follower.Matching (P ++ req.entries) (w.views n).log.entries := by
      intro Q x R y hQ hR hl hxy
      exact (hs.inv.leader_coherent m.term).matching hcoh (hQ.trans hpre) hR hl hxy
    rcases Follower.appendEntries_eq hplain hP (hlen ▸ hform.1) hmatch false with
      ⟨heq, hall⟩ | ⟨heq, hnot⟩
    · left
      refine ⟨Log.Plain.eq_of_entries ?_ hplain heq, ?_⟩
      · exact Follower.appendEntries_plain hplain false (hlen ▸ hform.1) hP.length_le
      · intro e he
        obtain ⟨i, hi⟩ := List.getElem?_of_mem he
        have hidx := hform.1.index_of_getElem? hi
        obtain ⟨hpe, hpl⟩ := prefix_of_getElem? hi
        have hPe : (P ++ req.entries.take i) ++ [e] <+: (w.views n).log.entries := by
          rw [List.append_assoc]
          exact ((List.prefix_append_right_inj P).mpr hpe).trans hall
        have hterm := hplain.termAt_prefix hPe
        rw [List.length_append, hpl, hlen] at hterm
        rw [hidx]
        exact hterm
    · right
      have htake := List.prefix_iff_eq_take.mp hpre
      refine ⟨(P ++ req.entries).length, ?_, hpre.length_le, ?_⟩
      · rw [← htake]
        exact heq
      · rw [← htake]
        exact hnot
  · left
    rw [hnil]
    exact ⟨rfl, fun e he => absurd he List.not_mem_nil⟩

/-- Handling an append request. -/
theorem Sim.absorb (hs : Sim boot w h) (hw : w.Formed boot) {m : Message} {req : AppendRequest}
    (hm : m ∈ w.net) (hp : m.payload = .appendRequest req) (ht : m.term = (w.views n).term)
    (hr : (w.views n).role = .follower)
    (hacc : Follower.accepts (w.views n).log req = true) (c : ℕ) (k : ℕ) :
    Advances boot G h (w.set n
      { (w.views n).setLog (Follower.appendEntries (w.views n).log req.entries).1 with
        commitIndex := c }
      (insert
        { sender := n, receiver := m.sender, term := (w.views n).term
          payload := .appendResponse { success := true, lastLogIndex := k } } w.net)) := by
  have hn := hs.nodes n
  have hcand {v : View} {h' : History NodeId Entry} {net : Set Message}
      (hv : v.role = (w.views n).role) (votes : OrdSet NodeId) (hc : v.role = .candidate votes) :
      CandidateOk boot h' net n v votes := by
    rw [hv, hr] at hc
    cases hc
  have hnet : ∀ h' : History NodeId Entry, ∀ x ∈ insert
      ({ sender := n, receiver := m.sender, term := (w.views n).term
         payload := .appendResponse { success := true, lastLogIndex := k } } : Message) w.net,
      x ∈ w.net ∨ (x.sender = n ∧ MsgOk boot h' x) := by
    rintro h' x (rfl | hx)
    · exact Or.inr ⟨rfl, trivial⟩
    · exact Or.inl hx
  rcases hs.absorbed hw hm hp hacc with ⟨heq, -⟩ | ⟨j, heq, hj, hnot⟩
  · rw [heq]
    exact Advances.same (hs.set_same ⟨hn.term, hn.log, hn.vote, hcand rfl, hn.leader⟩ (hnet h))
  · have hmsg := hs.net m hm
    simp only [MsgOk, hp] at hmsg
    rw [ht, ← hn.term] at heq hj hnot hmsg
    have hstep : History.Step (scheme boot) G h (h.follow n j) :=
      History.Step.follow n j (by simp [hmsg.1]) (hn.log ▸ hnot)
    have hle := hstep.le hs.inv
    refine ⟨_, Relation.ReflTransGen.single hstep, rfl,
      hs.set (hstep.inv hs.inv) hle ?_ ?_ (hnet _) hs.voted hs.term_pos⟩
    · refine ⟨hn.term, ?_, hn.vote, hcand rfl, hn.leader⟩
      have hlog : (h.follow n j).log n = (h.leaderLog (h.term n)).take j := by
        simp [History.follow]
      rw [hlog]
      exact heq.symm
    · intro p hpn
      exact (hs.nodes p).frame_votes hle rfl (by simp [History.follow, hpn]) (fun hu => hu) rfl rfl

/-- What the code checks before a leader appends an entry. -/
def View.MayAppend (g : Guards) (v : View) (e : Entry) : Prop :=
  (∃ cmd, e.payload = .command cmd) ∨ ∃ c, e.payload = .config c ∧ g.reconfig ∧
    (g.strict → v.TermCommitted ∧ v.log.pendingConfigIndex v.commitIndex = none ∧
      Legal g.mode v.effectiveConfig c)

/-- The simulation for any small step, as long as the history has unique winners
and takes the entries that leaders append. -/
theorem Sim.step {g : Guards} (hs : Sim boot w h) (hw : w.Formed boot) (huniq : Unique boot h)
    (hG : ∀ n e l, (w.views n).role = .leader l → (w.views n).MayAppend g e → G h n e)
    {v : View} {net : Set Message} (hstep : Micro g n (w.views n) w.net v net) :
    Advances boot G h (w.set n v net) := by
  cases hstep with
  | observe t ht => exact hs.observe ht
  | stepDown | restart =>
    exact Advances.same (hs.keep rfl (fun _ hc => by cases hc) (fun _ hl => by cases hl))
  | campaign => exact hs.campaign
  | grant m req hm hp ht hr hv hup => exact hs.grant hw hm hp ht hr hv hup
  | countVote m votes hm hp ht hrec hr => exact Advances.same (hs.countVote hm hp ht hrec hr)
  | win votes l hr hq => exact hs.win hw huniq hr hq l
  | absorb m req hm hp ht hr hacc hg log hlog c hc =>
    subst hlog
    exact hs.absorb hw hm hp ht hr hacc c _
  | appendCommand l cmd hr => exact hs.append hr rfl (hG n _ l hr (Or.inl ⟨cmd, rfl⟩))
  | appendConfig l c hr hg hrule =>
    exact hs.append hr rfl (hG n _ l hr (Or.inr ⟨c, rfl, hg, hrule⟩))
  | ownMatch l k hr => exact Advances.same (hs.lead hr _)
  | peerMatch l m k hm hp ht hrec hr => exact Advances.same (hs.lead hr _)
  | commit l i hr =>
    refine Advances.same (hs.keep rfl ?_ (fun _ _ => ⟨l, hr⟩))
    intro votes hc
    exact absurd (hr.symm.trans hc) (by simp)
  | startRead l hr => exact Advances.same (hs.lead hr _)
  | readNow l hr => exact Advances.same (hs.lead hr _)
  | ackRead l p m hm hp ht hrec hr => exact Advances.same (hs.lead hr _)
  | confirmRead l p m hm hp ht hrec hr => exact Advances.same (hs.lead hr _)
  | emit m hm => exact Advances.same (hs.emit hw hm)

/-- The empty history simulates nodes that have done nothing. -/
theorem Sim.start {w : World} (hterm : ∀ n, (w.views n).term = 0)
    (hlog : ∀ n, (w.views n).log.entries = []) (hvote : ∀ n, (w.views n).persistent.votedFor = none)
    (hrole : ∀ n, (w.views n).role = .follower) (hnet : w.net = ∅) :
    Sim boot w (History.start : History NodeId Entry) where
  inv := History.start_inv
  nodes := by
    intro n
    refine ⟨(hterm n).symm, (hlog n).symm, (hvote n).symm, ?_, ?_⟩
    · intro votes hr
      exact absurd ((hrole n).symm.trans hr) (by simp)
    · intro l hr
      exact absurd ((hrole n).symm.trans hr) (by simp)
  net := by
    intro m hm
    rw [hnet] at hm
    exact absurd hm (Set.notMem_empty _)
  voted := by
    intro q t c hv
    cases hv
  term_pos := fun t ht => absurd rfl ht

end BasisDB.Raft
