import BasisDB.RaftSimRun
import BasisDB.RaftRefineLeader

/-! Acknowledgements and commits: when no append request is accepted by a log that
its sender never had, every acknowledged index is really shared, and every commit
index lies below a commit that the history records. -/
namespace BasisDB.Raft
open ReplicatedLog

/-- The first `c` entries of `L` were committed in a term up to `T`. -/
def Secured (h : History NodeId Entry) (T : ℕ) (L : List Entry) (c : ℕ) : Prop :=
  c ≤ L.length ∧ (0 < c → ∃ t i m, (t, i, m) ∈ h.commits ∧ t ≤ T ∧ c ≤ i ∧
    L.take c = (h.leaderLog t).take c)

/-- What acknowledgements mean to a node, above all to a leader. -/
structure NodeAck (h : History NodeId Entry) (n : NodeId) (v : View) : Prop where
  secured : Secured h v.term v.log.entries v.commitIndex
  matched : ∀ l, v.role = .leader l → ∀ p, p ≠ n → ∀ j, 0 < j → j ≤ l.matched p →
    h.agreed p v.term j
  own : ∀ l, v.role = .leader l → ∀ i m, (v.term, i, m) ∈ h.commits → i ≤ v.commitIndex
  current : ∀ l, v.role = .leader l → v.log.termAt v.commitIndex = v.term →
    ∃ m, (v.term, v.commitIndex, m) ∈ h.commits

def MsgAck (h : History NodeId Entry) (m : Message) : Prop :=
  match m.payload with
  | .appendRequest req => Secured h m.term (h.leaderLog m.term) req.leaderCommit
  | .appendResponse resp => resp.success = true →
      ∀ j, j ≤ resp.lastLogIndex → h.agreed m.sender m.term j
  | _ => True

structure Acked (w : World) (h : History NodeId Entry) : Prop where
  nodes : ∀ n, NodeAck h n (w.views n)
  net : ∀ m ∈ w.net, MsgAck h m

variable {boot : Configuration} {h h' : History NodeId Entry} {w : World} {n : NodeId} {v : View}
  {net : Set Message}

theorem Secured.zero (h : History NodeId Entry) (T : ℕ) (L : List Entry) : Secured h T L 0 :=
  ⟨Nat.zero_le _, fun hc => absurd hc (lt_irrefl _)⟩

theorem Secured.of_take {T T' : ℕ} {L L' : List Entry} {c : ℕ} (hs : Secured h T L c)
    (hT : T ≤ T') (hlen : c ≤ L'.length) (htake : L'.take c = L.take c) : Secured h T' L' c := by
  refine ⟨hlen, fun hc => ?_⟩
  obtain ⟨t, i, m, hm, ht, hi, heq⟩ := hs.2 hc
  exact ⟨t, i, m, hm, ht.trans hT, hi, htake.trans heq⟩

theorem Secured.le {T : ℕ} {L : List Entry} {c d : ℕ} (hs : Secured h T L c) (hd : d ≤ c) :
    Secured h T L d := by
  refine ⟨hd.trans hs.1, fun hpos => ?_⟩
  obtain ⟨t, i, m, hm, ht, hi, heq⟩ := hs.2 (by omega)
  refine ⟨t, i, m, hm, ht, hd.trans hi, ?_⟩
  have := congrArg (List.take d) heq
  rwa [List.take_take, List.take_take, min_eq_left hd] at this

theorem Secured.mono {T : ℕ} {L : List Entry} {c : ℕ} (hs : Secured h T L c)
    (hI : History.Inv (scheme boot) h) (hle : History.Le h h') : Secured h' T L c := by
  refine ⟨hs.1, fun hc => ?_⟩
  obtain ⟨t, i, m, hm, ht, hi, heq⟩ := hs.2 hc
  refine ⟨t, i, m, hle.commits hm, ht, hi, ?_⟩
  obtain ⟨h1, h2⟩ := hI.commit_le t i m hm
  rw [heq, take_isPrefix_of_isPrefix (hle.leaderLog t) (by omega)]

/-- The leader of the term holds what is secured there. -/
theorem Secured.leader {T : ℕ} {L : List Entry} {c : ℕ} (hs : Secured h T L c)
    (hI : History.Inv (scheme boot) h) (hC : History.Complete h) (hT : h.leader T ≠ none) :
    L.take c = (h.leaderLog T).take c ∧ c ≤ (h.leaderLog T).length := by
  by_cases hc : 0 < c
  · obtain ⟨t, i, m, hm, ht, hi, heq⟩ := hs.2 hc
    obtain ⟨h1, h2⟩ := hI.commit_le t i m hm
    rcases ht.lt_or_eq with ht | rfl
    · have hp := hC t i m hm T ht hT
      have hlen := hI.commit_length hm
      have hpl := hp.length_le
      rw [hlen] at hpl
      refine ⟨?_, hi.trans hpl⟩
      rw [take_isPrefix_of_isPrefix hp (by rw [hlen]; exact hi), List.take_take, min_eq_left hi]
      exact heq
    · exact ⟨heq, by omega⟩
  · have : c = 0 := by omega
    subst this
    exact ⟨by simp, Nat.zero_le _⟩

/-- The leader's log as announced grows with the leader. -/
theorem MsgAck.mono {m : Message} (hm : MsgAck h m) (hI : History.Inv (scheme boot) h)
    (hle : History.Le h h') : MsgAck h' m := by
  unfold MsgAck at hm ⊢
  cases hp : m.payload with
  | appendRequest req =>
    simp only [hp] at hm ⊢
    have hpre := hle.leaderLog m.term
    exact (hm.of_take le_rfl (hm.1.trans hpre.length_le) (take_isPrefix_of_isPrefix hpre hm.1)).mono hI
      hle
  | appendResponse resp =>
    simp only [hp] at hm ⊢
    exact fun hs j hj => hle.agreed _ _ _ (hm hs j hj)
  | preVoteRequest | preVoteResponse | voteRequest | voteResponse | installSnapshotRequest
  | installSnapshotResponse | readIndexRequest | readIndexResponse | timeoutNow => trivial

theorem NodeAck.mono (hn : NodeAck h n v) (hI : History.Inv (scheme boot) h)
    (hle : History.Le h h')
    (hown : ∀ l, v.role = .leader l → ∀ i m, (v.term, i, m) ∈ h'.commits →
      i ≤ v.commitIndex) : NodeAck h' n v where
  secured := hn.secured.mono hI hle
  matched := fun l hr p hp j hj hjm => hle.agreed _ _ _ (hn.matched l hr p hp j hj hjm)
  own := hown
  current := by
    intro l hr ht
    obtain ⟨m, hm⟩ := hn.current l hr ht
    exact ⟨m, hle.commits hm⟩

/-- A node that does not lead only has to say what it committed. -/
theorem NodeAck.of_not_leader (hsec : Secured h v.term v.log.entries v.commitIndex)
    (hr : ∀ l, v.role ≠ .leader l) : NodeAck h n v where
  secured := hsec
  matched := fun l hl => absurd hl (hr l)
  own := fun l hl => absurd hl (hr l)
  current := fun l hl => absurd hl (hr l)

/-- A step of node `n` that records no commit. -/
theorem Acked.set (ha : Acked w h) (hI : History.Inv (scheme boot) h) (hle : History.Le h h')
    (hcom : h'.commits = h.commits) (hn : NodeAck h' n v)
    (hnet : ∀ m ∈ net, m ∈ w.net ∨ MsgAck h' m) : Acked (w.set n v net) h' where
  nodes := by
    intro p
    by_cases hp : p = n
    · subst hp
      simpa using hn
    · rw [World.set_views_ne _ _ _ hp]
      exact (ha.nodes p).mono hI hle (hcom ▸ (ha.nodes p).own)
  net := by
    intro m hm
    rcases hnet m hm with hm | hm
    · exact (ha.net m hm).mono hI hle
    · exact hm

/-- A leader that changes nothing but its progress table. -/
theorem NodeAck.lead {l l' : LeaderView} (hn : NodeAck h n v) (hr : v.role = .leader l)
    (hm : ∀ p, p ≠ n → ∀ j, 0 < j → j ≤ l'.matched p → h.agreed p v.term j) :
    NodeAck h n (v.lead l') where
  secured := hn.secured
  matched := by
    intro l'' hr'' p hp j hj hjm
    cases hr''
    exact hm p hp j hj hjm
  own := fun _ _ => hn.own l hr
  current := fun _ _ => hn.current l hr

/-- An append request that finds all its entries meets a log its sender has. -/
def Faithful (g : Guards) (h : History NodeId Entry) : Prop :=
  ∀ m log req, g.absorb m log → m.payload = .appendRequest req →
    (∀ e ∈ req.entries, log.termAt e.index = e.term) → log.entries <+: h.leaderLog m.term

theorem Faithful.mono {g : Guards} (hf : Faithful g h) (hle : History.Le h h') : Faithful g h' :=
  fun m log req hg hp hall => (hf m log req hg hp hall).trans (hle.leaderLog _)

/-- The configuration changes of a run: none, or those of its mode. -/
def Allowed (mode : MembershipMode) (reconfig : Prop) (c c' : Configuration) : Prop :=
  reconfig ∧ Legal mode c c'

theorem allowed_overlapping (boot : Configuration) (mode : MembershipMode) (reconfig : Prop) :
    History.Overlapping (scheme boot) (Allowed mode reconfig) where
  self := (legal_overlapping boot mode).self
  next := fun c d A B hcd => (legal_overlapping boot mode).next c d A B hcd.2

/-- Everything that is kept along a run. -/
structure Kept (boot : Configuration) (mode : MembershipMode) (reconfig : Prop) (w : World)
    (h : History NodeId Entry) : Prop where
  formed : w.Formed boot
  sim : Sim boot w h
  acked : Acked w h
  chained : History.Chained (scheme boot) (Allowed mode reconfig) h

variable {mode : MembershipMode} {reconfig : Prop}

theorem Kept.complete (hk : Kept boot mode reconfig w h) : History.Complete h :=
  hk.chained.complete hk.sim.inv (allowed_overlapping boot mode reconfig)

theorem Kept.unique (hk : Kept boot mode reconfig w h) : Unique boot h :=
  fun _ _ _ _ _ hE hd => hk.chained.leader_unique hk.sim.inv (allowed_overlapping boot mode reconfig) hE hd

/-- A leader with an own-term entry below its commit index committed there itself. -/
theorem Kept.record (hk : Kept boot mode reconfig w h) {l : LeaderView} (hr : (w.views n).role = .leader l)
    (hown : (w.views n).TermCommitted) :
    ∃ m, ((w.views n).term, (w.views n).commitIndex, m) ∈ h.commits := by
  obtain ⟨i, hi, hic, hterm⟩ := hown
  have hn := hk.sim.nodes n
  have hplain := (hk.formed.views n).plain
  have hsec := (hk.acked.nodes n).secured.1
  refine (hk.acked.nodes n).current l hr ?_
  have hpos : 0 < (w.views n).term := (hk.formed.views n).term_pos (by simp [hr])
  obtain ⟨P, e, hP, hPi, he⟩ := hplain.entry_of_termAt (by rw [hterm]; exact hpos.ne')
  have hlt : (w.views n).commitIndex - 1 < (w.views n).log.entries.length := by omega
  have hQ := take_succ_isPrefix (w.views n).log.entries _ hlt
  have hQlen : ((w.views n).log.entries.take ((w.views n).commitIndex - 1)).length + 1 =
      (w.views n).commitIndex := by
    rw [List.length_take]
    omega
  have hcoh : Coherent (scheme boot) h.leaderLog (w.views n).log.entries :=
    hn.log ▸ hk.sim.inv.coherent n
  have hlast := hplain.termAt_prefix hQ
  rw [hQlen] at hlast
  rw [hlast]
  -- terms do not decrease, and none is above the leader's
  have hmem : e ∈ (w.views n).log.entries.take ((w.views n).commitIndex - 1) ++
      [(w.views n).log.entries[(w.views n).commitIndex - 1]] := by
    refine (prefix_of_longer hP hQ ?_).subset (by simp)
    simp only [List.length_append, List.length_singleton]
    omega
  have h1 := ((hcoh.of_isPrefix hQ).ordered hk.sim.inv.ordered).le_last hmem
  have hle := hk.sim.inv.log_le n
  rw [hn.log, hn.term] at hle
  have h2 := hle _ (List.getElem_mem hlt)
  have h3 : e.term = (w.views n).term := he.trans hterm
  simp only [scheme] at h1 h2
  omega

/-- The code's checks before a configuration is appended are the rule of the history. -/
theorem Kept.mayAppend {g : Guards} (hk : Kept boot g.mode g.reconfig w h) (hs : g.strict)
    {l : LeaderView}
    (hr : (w.views n).role = .leader l) {e : Entry} (he : (w.views n).MayAppend g e) :
    History.MayAppend (scheme boot) (Allowed g.mode g.reconfig) h n e := by
  intro c hc
  rcases he with ⟨cmd, hcmd⟩ | ⟨c', hcfg, hg, hrule⟩
  · simp [scheme, hcmd, EntryPayload.asConfig] at hc
  · obtain ⟨hown, hpending, hlegal⟩ := hrule hs
    have hn := hk.sim.nodes n
    have hplain := (hk.formed.views n).plain
    have hcc : c' = c := by simpa [scheme, hcfg, EntryPayload.asConfig] using hc
    subst hcc
    obtain ⟨m, hm⟩ := hk.record hr hown
    rw [hn.log, hn.term, ← (hk.formed.views n).config_eq]
    refine ⟨⟨hg, hlegal⟩, _, m, hm, ?_⟩
    rw [Leader.pendingConfigIndex_eq_none] at hpending
    intro Q x hQ hx
    have hxc : x.payload.isConfig = true := by
      cases hp : x.payload with
      | command cmd => simp [scheme, hp, EntryPayload.asConfig] at hx
      | config c => rfl
    have h1 := hpending x (hQ.subset (by simp)) hxc
    have h2 := hplain.numbered.index_of_getElem? (getElem?_of_isPrefix hQ)
    omega

end BasisDB.Raft
