import BasisDB.RaftAcked

/-! Acknowledgements and commits along the small steps. -/
namespace BasisDB.Raft
open ReplicatedLog

variable {boot : Configuration} {h h₁ : History NodeId Entry} {w : World} {n : NodeId}
  {mode : MembershipMode} {reconfig : Prop}

/-- An append request of the term's leader leaves what is secured there. -/
theorem Secured.absorbed_keeps {T c k : ℕ} {L L' : List Entry} (hc : Secured h T L c)
    (hI : History.Inv (scheme boot) h) (hC : History.Complete h) (hT : h.leader T ≠ none)
    (hcase : L' = L ∨ (L' = (h.leaderLog T).take k ∧ ¬(h.leaderLog T).take k <+: L)) :
    c ≤ L'.length ∧ L'.take c = L.take c := by
  obtain ⟨heq, hlen⟩ := hc.leader hI hC hT
  rcases hcase with rfl | ⟨rfl, hnot⟩
  · exact ⟨hc.1, rfl⟩
  · -- a log that changed below the commit index would have been a prefix before
    have hck : c ≤ k := by
      by_contra hlt
      have hkc : k ≤ c := by omega
      refine hnot ?_
      have := congrArg (List.take k) heq
      rw [List.take_take, List.take_take, min_eq_left hkc] at this
      rw [← this]
      exact List.take_prefix _ _
    refine ⟨?_, ?_⟩
    · rw [List.length_take]
      omega
    · rw [List.take_take, min_eq_left hck, heq]

/-- A follower's commit index after an append request. -/
theorem Secured.absorbed {T c d k : ℕ} {L L' : List Entry} (hc : Secured h T L c)
    (hI : History.Inv (scheme boot) h) (hC : History.Complete h) (hT : h.leader T ≠ none)
    (hd : Secured h T (h.leaderLog T) d) (hL' : L' <+: h.leaderLog T)
    (hcase : L' = L ∨ (L' = (h.leaderLog T).take k ∧ ¬(h.leaderLog T).take k <+: L)) :
    Secured h T L' (if c < d then min d L'.length else c) := by
  split_ifs
  · exact (hd.le (min_le_left _ _)).of_take le_rfl (min_le_right _ _)
      (take_isPrefix_of_isPrefix hL' (min_le_right _ _)).symm
  · obtain ⟨hcl, htake⟩ := hc.absorbed_keeps hI hC hT hcase
    exact hc.of_take le_rfl hcl htake

/-- The simulation does not look at acknowledgements and commits. -/
theorem Sim.recorded {h' : History NodeId Entry} (hs : Sim boot w h)
    (hinv : History.Inv (scheme boot) h') (hle : History.Le h h') (hterm : h'.term = h.term)
    (hlog : h'.log = h.log) (hvote : h'.vote = h.vote) (hvl : h'.voteLog = h.voteLog)
    (hlead : h'.leader = h.leader) : Sim boot w h' where
  inv := hinv
  nodes := fun p => (hs.nodes p).frame_votes hle (by rw [hterm]) (by rw [hlog])
    (by rw [hlead]; exact fun hu => hu) hvote hvl
  net := fun x hx => (hs.net x hx).mono hle
  voted := by
    rw [hvote, hterm]
    exact hs.voted
  term_pos := by
    rw [hlead]
    exact hs.term_pos

/-- A follower's answer to an append request: the history notes what it now shares
with the leader. -/
theorem Kept.absorb {g : Guards} (hk : Kept boot g.mode g.reconfig w h) (hf : Faithful g h) {m : Message}
    {req : AppendRequest} (hm : m ∈ w.net) (hp : m.payload = .appendRequest req)
    (ht : m.term = (w.views n).term) (hr : (w.views n).role = .follower)
    (hacc : Follower.accepts (w.views n).log req = true) (hg : g.absorb m (w.views n).log)
    {log : Log} (hlog : log = (Follower.appendEntries (w.views n).log req.entries).1) {v : View}
    (hv : v = { (w.views n).setLog log with
      commitIndex := if (w.views n).commitIndex < req.leaderCommit then
        min req.leaderCommit log.lastIndex else (w.views n).commitIndex })
    {net : Set Message}
    (hnet : net = insert
      { sender := n, receiver := m.sender, term := (w.views n).term
        payload := .appendResponse { success := true, lastLogIndex := log.lastIndex } } w.net)
    (hform : (w.set n v net).Formed boot)
    (hsteps : Relation.ReflTransGen
      (History.Step (scheme boot) (History.MayAppend (scheme boot) (Allowed g.mode g.reconfig))) h h₁)
    (hcom : h₁.commits = h.commits) (hs₁ : Sim boot (w.set n v net) h₁) :
    ∃ h', History.Le h h' ∧ Kept boot g.mode g.reconfig (w.set n v net) h' := by
  have hI := hk.sim.inv
  have hle₁ := History.steps_le hsteps hI
  have hn := hk.sim.nodes n
  have hn₁ := hs₁.nodes n
  have hplain : log.Plain := by
    have := (hform.views n).plain
    rw [World.set_views_self, hv] at this
    exact this
  have hmsg := hk.sim.net m hm
  have hack := hk.acked.net m hm
  simp only [MsgOk, hp] at hmsg
  simp only [MsgAck, hp] at hack
  rw [ht] at hmsg hack
  -- the new log is a prefix of the leader's
  have hcase : ∃ k, log.entries = (w.views n).log.entries ∨
      (log.entries = (h.leaderLog (w.views n).term).take k ∧
        ¬(h.leaderLog (w.views n).term).take k <+: (w.views n).log.entries) := by
    rcases hk.sim.absorbed hk.formed hm hp hacc with ⟨heq, -⟩ | ⟨k, heq, -, hnot⟩
    · exact ⟨0, Or.inl (by rw [hlog, heq])⟩
    · rw [ht] at heq hnot
      exact ⟨k, Or.inr ⟨by rw [hlog, heq], hnot⟩⟩
  have hprefix : log.entries <+: h.leaderLog (w.views n).term := by
    rcases hk.sim.absorbed hk.formed hm hp hacc with ⟨heq, hall⟩ | ⟨k, heq, -, -⟩
    · have := hf m _ req hg hp hall
      rw [ht] at this
      rw [hlog, heq]
      exact this
    · rw [hlog, heq, ht]
      exact List.take_prefix _ _
  obtain ⟨k, hcase⟩ := hcase
  have hlead : h.leader (w.views n).term ≠ none := by simp [hmsg.1]
  have hterm₁ : h₁.term n = (w.views n).term := by
    have := hn₁.term
    rw [World.set_views_self, hv] at this
    exact this
  have hlog₁ : h₁.log n = log.entries := by
    have := hn₁.log
    rw [World.set_views_self, hv] at this
    exact this
  have hprefix₁ : log.entries <+: h₁.leaderLog (w.views n).term :=
    hprefix.trans (hle₁.leaderLog _)
  have hstep : History.Step (scheme boot) (History.MayAppend (scheme boot) (Allowed g.mode g.reconfig)) h₁
      (h₁.agree n log.entries.length) := by
    refine History.Step.agree n _ ?_ ?_ ?_
    · rw [hterm₁, hle₁.leader _ _ hmsg.1]
      simp
    · rw [hterm₁]
      exact hprefix₁.length_le
    · rw [hterm₁, hlog₁, ← List.prefix_iff_eq_take.mp hprefix₁]
  have hle : History.Le h (h₁.agree n log.entries.length) := hle₁.trans (hstep.le hs₁.inv)
  refine ⟨_, hle, hform, ?_, ?_, ?_⟩
  · exact hs₁.recorded (hstep.inv hs₁.inv) (hstep.le hs₁.inv) rfl rfl rfl rfl rfl
  · refine hk.acked.set hI hle hcom (NodeAck.of_not_leader ?_ ?_) ?_
    · have hsec := (hk.acked.nodes n).secured.absorbed hI hk.complete hlead hack hprefix hcase
      rw [hv]
      rw [← hplain.lastIndex] at hsec
      exact hsec.mono hI hle
    · intro l hl
      rw [hv] at hl
      exact absurd (hr.symm.trans hl) (by simp)
    · rw [hnet]
      rintro x (rfl | hx)
      · refine Or.inr ?_
        simp only [MsgAck]
        intro _ j hj
        rw [hplain.lastIndex] at hj
        exact Or.inr ⟨rfl, hterm₁.symm, hj⟩
      · exact Or.inl hx
  · exact hstep.chained hs₁.inv (History.steps_chained hsteps hI hk.chained) (fun _ _ hG => hG)

/-- A leader moves its commit index: the history records the commit. -/
theorem Kept.commit (hk : Kept boot mode reconfig w h) {l : LeaderView} {i : ℕ}
    (hr : (w.views n).role = .leader l) (hlt : (w.views n).commitIndex < i)
    (hterm : (w.views n).log.termAt i = (w.views n).term)
    (hq : (w.views n).effectiveConfig.hasQuorum (fun p => decide (i ≤ l.matched p)) = true)
    (hs : Sim boot (w.set n { w.views n with commitIndex := i } w.net) h) :
    ∃ h', History.Le h h' ∧ Kept boot mode reconfig (w.set n { w.views n with commitIndex := i } w.net) h' := by
  have hI := hk.sim.inv
  have hn := hk.sim.nodes n
  have hplain := (hk.formed.views n).plain
  have hlead := hn.leader l hr
  have hlog : h.leaderLog (w.views n).term = (w.views n).log.entries := by
    rw [← hn.log]
    exact (hI.leader_log _ n hlead hn.term).symm
  have hpos : 0 < (w.views n).term := (hk.formed.views n).term_pos (by simp [hr])
  obtain ⟨P, e, hP, hPi, he⟩ := hplain.entry_of_termAt (by rw [hterm]; exact hpos.ne')
  have hi : i ≤ (w.views n).log.entries.length := by
    have := hP.length_le
    rw [List.length_append, List.length_singleton] at this
    omega
  -- the leader itself holds the prefix
  have hstep₁ : History.Step (scheme boot) (History.MayAppend (scheme boot) (Allowed mode reconfig)) h
      (h.agree n i) := by
    refine History.Step.agree n i ?_ ?_ ?_
    · rw [hn.term, hlead]
      simp
    · rw [hn.term, hlog]
      exact hi
    · rw [hn.term, hlog, hn.log]
      exact List.take_prefix _ _
  have hI₁ := hstep₁.inv hI
  have hstep₂ : History.Step (scheme boot) (History.MayAppend (scheme boot) (Allowed mode reconfig))
      (h.agree n i) ((h.agree n i).commit (w.views n).term i) := by
    refine History.Step.commit _ i ?_ ⟨P, e, ?_, hPi, he.trans hterm⟩
      ⟨{p | i ≤ l.matched p ∨ p = n}, ?_, ?_⟩
    · show h.leader _ ≠ none
      rw [hlead]
      simp
    · show P ++ [e] <+: h.leaderLog _
      rw [hlog]
      exact hP
    · show (scheme boot).quorum (config (scheme boot) (h.leaderLog _)) _
      rw [hlog, ← (hk.formed.views n).config_eq]
      exact ⟨_, hq, fun p hp => Or.inl (of_decide_eq_true hp)⟩
    · intro q hq
      by_cases hqn : q = n
      · subst hqn
        exact Or.inr ⟨rfl, hn.term.symm, le_rfl⟩
      · exact Or.inl ((hk.acked.nodes n).matched l hr q hqn i (by omega) (hq.resolve_right hqn))
  have hle : History.Le h ((h.agree n i).commit (w.views n).term i) :=
    (hstep₁.le hI).trans (hstep₂.le hI₁)
  have hform : (w.set n { w.views n with commitIndex := i } w.net).Formed boot := by
    refine ⟨?_, hk.formed.net⟩
    intro p
    by_cases hp : p = n
    · subst hp
      rw [World.set_views_self]
      exact ⟨hplain, (hk.formed.views p).boot_eq, (hk.formed.views p).term_pos⟩
    · rw [World.set_views_ne _ _ _ hp]
      exact hk.formed.views p
  refine ⟨_, hle, hform, hs.recorded (hstep₂.inv hI₁) hle rfl rfl rfl rfl rfl, ?_, ?_⟩
  · refine ⟨?_, fun m hm => (hk.acked.net m hm).mono hI hle⟩
    intro p
    by_cases hp : p = n
    · subst hp
      rw [World.set_views_self]
      have hnew : ((w.views p).term, i, (h.leaderLog (w.views p).term).length) ∈
          ((h.agree p i).commit (w.views p).term i).commits := Set.mem_insert _ _
      refine ⟨⟨hi, fun _ => ⟨_, i, _, hnew, le_rfl, le_rfl, ?_⟩⟩, ?_, ?_, fun _ _ _ => ⟨_, hnew⟩⟩
      · show _ = (h.leaderLog _).take i
        rw [hlog]
        rfl
      · intro l' hr' q hq j hj hjm
        exact hle.agreed _ _ _ ((hk.acked.nodes p).matched l' hr' q hq j hj hjm)
      · rintro l' hr' j m (heq | hm)
        · simp only [Prod.mk.injEq] at heq
          exact heq.2.1.le
        · exact ((hk.acked.nodes p).own l' hr' j m hm).trans hlt.le
    · rw [World.set_views_ne _ _ _ hp]
      refine (hk.acked.nodes p).mono hI hle ?_
      rintro l' hr' j m (heq | hm)
      · -- the same term would have the same leader
        simp only [Prod.mk.injEq] at heq
        have := (hk.sim.nodes p).leader l' hr'
        rw [heq.1, hlead, Option.some.injEq] at this
        exact absurd this.symm hp
      · exact (hk.acked.nodes p).own l' hr' j m hm
  · exact hstep₂.chained hI₁ (hstep₁.chained hI hk.chained (fun _ _ hG => hG)) (fun _ _ hG => hG)

/-- A new leader has committed nothing of its term. -/
theorem Kept.win (hk : Kept boot mode reconfig w h) {votes : OrdSet NodeId} {l : LeaderView}
    (hr : (w.views n).role = .candidate votes) (hmatch : ∀ p, p ≠ n → l.matched p = 0)
    (hle : History.Le h h₁) (hcom : h₁.commits = h.commits)
    (hlead : h₁.leader (w.views n).term = some n) : NodeAck h₁ n ((w.views n).lead l) := by
  have hok := (hk.sim.nodes n).candidate votes hr
  have hplain := (hk.formed.views n).plain
  have hpos : 0 < (w.views n).term := (hk.formed.views n).term_pos (by simp [hr])
  refine ⟨(hk.acked.nodes n).secured.mono hk.sim.inv hle, ?_, ?_, ?_⟩
  · intro l' hl' p hp j hj hjm
    cases hl'
    rw [hmatch p hp] at hjm
    omega
  · intro l' _ i m hm
    rw [hcom] at hm
    obtain ⟨d, hd⟩ := Option.ne_none_iff_exists'.mp (hk.sim.inv.commit_led _ i m hm)
    have := hle.leader _ d hd
    rw [show ((w.views n).lead l).term = (w.views n).term from rfl, hlead] at this
    exact absurd (Option.some.inj this ▸ hd) hok.unled
  · intro l' _ hterm
    have hne : (w.views n).log.termAt (w.views n).commitIndex ≠ 0 := by
      rw [show (w.views n).log.termAt (w.views n).commitIndex = (w.views n).term from hterm]
      exact hpos.ne'
    obtain ⟨P, e, hP, -, he⟩ := hplain.entry_of_termAt hne
    have := hok.older e (hP.subset (by simp))
    rw [he, show (w.views n).log.termAt (w.views n).commitIndex = (w.views n).term from hterm] at this
    omega

/-- A leader's own entries come after what it committed. -/
theorem Kept.append (hk : Kept boot mode reconfig w h)
    (hle : History.Le h h₁) (hcom : h₁.commits = h.commits) (e : Entry)
    (hplain' : ((w.views n).log.append e).Plain) :
    NodeAck h₁ n ((w.views n).setLog ((w.views n).log.append e)) := by
  have hack := hk.acked.nodes n
  have hlen := hack.secured.1
  have hplain := (hk.formed.views n).plain
  have hterm : ((w.views n).log.append e).termAt (w.views n).commitIndex =
      (w.views n).log.termAt (w.views n).commitIndex := by
    cases hc : (w.views n).commitIndex with
    | zero => rw [Log.Plain.termAt_zero, Log.Plain.termAt_zero]
    | succ c =>
      rw [hplain.termAt_succ, hplain'.termAt_succ]
      simp only [Log.append]
      rw [List.getElem?_append_left (by omega)]
  have hmono := hack.mono hk.sim.inv hle (hcom ▸ hack.own)
  refine ⟨?_, hmono.matched, hmono.own, ?_⟩
  · refine hmono.secured.of_take le_rfl ?_ ?_
    · simp only [View.setLog, View.log, Log.append, List.length_append]
      exact hlen.trans (Nat.le_add_right _ _)
    · simp only [View.setLog, View.log, Log.append]
      exact List.take_append_of_le_length hlen
  · intro l' hl' ht
    exact hmono.current l' hl' (hterm.symm.trans ht)

/-- A message that needs no change of state acknowledges nothing new. -/
theorem Kept.emit (hk : Kept boot mode reconfig w h) {m : Message} (hm : Emits n (w.views n) w.net m) :
    MsgAck h m := by
  obtain ⟨-, hm⟩ := hm
  unfold MsgAck
  cases hp : m.payload with
  | appendRequest req =>
    simp only [hp] at hm ⊢
    obtain ⟨hterm, ⟨l, hl⟩, -, hcommit, -⟩ := hm
    have hn := hk.sim.nodes n
    have hlead := hn.leader l hl
    have hlog : h.leaderLog (w.views n).term = (w.views n).log.entries := by
      rw [← hn.log]
      exact (hk.sim.inv.leader_log _ n hlead hn.term).symm
    rw [hterm, hcommit, hlog]
    exact (hk.acked.nodes n).secured
  | appendResponse resp =>
    simp only [hp] at hm ⊢
    exact fun hs => absurd hs (by simp [hm])
  | preVoteRequest | preVoteResponse | voteRequest | voteResponse | installSnapshotRequest
  | installSnapshotResponse | readIndexRequest | readIndexResponse | timeoutNow => trivial

/-- One protocol step keeps everything. -/
theorem Kept.step {g : Guards} (hk : Kept boot g.mode g.reconfig w h) (hs : g.strict)
    (hf : Faithful g h) {w' : World}
    (hstep : World.Step g w w') : ∃ h', History.Le h h' ∧ Kept boot g.mode g.reconfig w' h' := by
  have hform := hstep.formed hk.formed
  obtain ⟨hm⟩ := hstep
  rename_i n v net
  obtain ⟨h₁, hsteps, hcom, hs₁⟩ := hk.sim.step
    (G := History.MayAppend (scheme boot) (Allowed g.mode g.reconfig)) hk.formed hk.unique
    (fun n e l hr he => hk.mayAppend hs hr he) hm
  have hI := hk.sim.inv
  have hle := History.steps_le hsteps hI
  have hch := History.steps_chained hsteps hI hk.chained
  have hn₁ := hs₁.nodes n
  rw [World.set_views_self] at hn₁
  have hack := hk.acked.nodes n
  have hmono := hack.mono hI hle (hcom ▸ hack.own)
  -- steps that record no commit and send nothing
  have hquiet (hn : NodeAck h₁ n v) (hnet : ∀ m ∈ net, m ∈ w.net ∨ MsgAck h₁ m) :
      ∃ h', History.Le h h' ∧ Kept boot g.mode g.reconfig (w.set n v net) h' :=
    ⟨h₁, hle, hform, hs₁, hk.acked.set hI hle hcom hn hnet, hch⟩
  cases hm with
  | observe t ht =>
    refine hquiet (NodeAck.of_not_leader ?_ (fun l hl => by cases hl)) (fun m hm => Or.inl hm)
    exact hmono.secured.of_take ht.le hmono.secured.1 rfl
  | stepDown =>
    exact hquiet (NodeAck.of_not_leader hmono.secured (fun l hl => by cases hl))
      (fun m hm => Or.inl hm)
  | restart =>
    exact hquiet (NodeAck.of_not_leader (Secured.zero _ _ _) (fun l hl => by cases hl))
      (fun m hm => Or.inl hm)
  | campaign =>
    refine hquiet (NodeAck.of_not_leader ?_ (fun l hl => by cases hl)) (fun m hm => Or.inl hm)
    exact hmono.secured.of_take (Nat.le_succ _) hmono.secured.1 rfl
  | grant m req hm hp ht hr hv hup =>
    refine hquiet (NodeAck.of_not_leader hmono.secured ?_) ?_
    · intro l hl
      exact absurd (hr.symm.trans hl) (by simp)
    · rintro x (rfl | hx)
      · exact Or.inr trivial
      · exact Or.inl hx
  | countVote m votes hm hp ht hrec hr =>
    exact hquiet (NodeAck.of_not_leader hmono.secured (fun l hl => by cases hl))
      (fun m hm => Or.inl hm)
  | win votes l hr hq hmatch =>
    exact hquiet (hk.win hr hmatch hle hcom (hn₁.leader l rfl)) (fun m hm => Or.inl hm)
  | absorb m req hm hp ht hr hacc hg log hlog c hc =>
    subst hc
    exact hk.absorb hf hm hp ht hr hacc hg hlog rfl rfl hform hsteps hcom hs₁
  | appendCommand l cmd hr =>
    have hplain := (hform.views n).plain
    rw [World.set_views_self] at hplain
    exact hquiet (hk.append hle hcom _ hplain) (fun m hm => Or.inl hm)
  | appendConfig l c hr =>
    have hplain := (hform.views n).plain
    rw [World.set_views_self] at hplain
    exact hquiet (hk.append hle hcom _ hplain) (fun m hm => Or.inl hm)
  | ownMatch l k hr =>
    refine hquiet (hmono.lead hr ?_) (fun m hm => Or.inl hm)
    intro p hp j hj hjm
    simp only [Function.update_of_ne hp] at hjm
    exact hmono.matched l hr p hp j hj hjm
  | peerMatch l m k hm hp ht hrec hr =>
    refine hquiet (hmono.lead hr ?_) (fun m hm => Or.inl hm)
    intro p hpn j hj hjm
    by_cases hps : p = m.sender
    · subst hps
      simp only [Function.update_self] at hjm
      have hmsg := hk.acked.net m hm
      simp only [MsgAck, hp, forall_const] at hmsg
      exact hle.agreed _ _ _ (ht ▸ hmsg j hjm)
    · simp only [Function.update_of_ne hps] at hjm
      exact hmono.matched l hr p hpn j hj hjm
  | commit l i hr hlt hi hterm hq =>
    refine hk.commit hr hlt hterm hq (hk.sim.keep rfl ?_ (fun _ _ => ⟨l, hr⟩))
    intro votes hc
    exact absurd (hr.symm.trans hc) (by simp)
  | startRead l hr | readNow l hr | ackRead l p m hm hp ht hrec hr
  | confirmRead l p m hm hp ht hrec hr =>
    exact hquiet (hmono.lead hr (hmono.matched l hr)) (fun m hm => Or.inl hm)
  | emit m hm =>
    refine hquiet hmono ?_
    rintro x (rfl | hx)
    · exact Or.inr ((hk.emit hm).mono hI hle)
    · exact Or.inl hx

end BasisDB.Raft
