import BasisDB.RaftFormed

/-! The protocol against its history: every node's term, vote and log are those
of the history, leaders are the ones it records, and every message says
something about it. -/
namespace BasisDB.Raft
open ReplicatedLog

/-- A candidate's votes were cast for it, by voters whose logs were not ahead. -/
structure CandidateOk (boot : Configuration) (h : History NodeId Entry) (net : Set Message)
    (n : NodeId) (v : View) (votes : OrdSet NodeId) : Prop where
  unled : h.leader v.term ≠ some n
  older : ∀ e ∈ v.log.entries, e.term < v.term
  counted : ∀ q ∈ votes, h.vote q v.term = some n
  upToDate : ∀ q, h.vote q v.term = some n →
    UpToDate (scheme boot) v.log.entries (h.voteLog q v.term)
  asked : ∀ m ∈ net, ∀ req, m.sender = n → m.term = v.term → m.payload = .voteRequest req →
    req.lastLogIndex = v.log.lastIndex ∧ req.lastLogTerm = v.log.lastTerm

structure NodeOk (boot : Configuration) (h : History NodeId Entry) (net : Set Message)
    (n : NodeId) (v : View) : Prop where
  term : h.term n = v.term
  log : h.log n = v.log.entries
  vote : h.vote n v.term = v.persistent.votedFor
  candidate : ∀ votes, v.role = .candidate votes → CandidateOk boot h net n v votes
  leader : ∀ l, v.role = .leader l → h.leader v.term = some n

/-- What a message tells: who asked for votes, who gave one, and which part of a
leader's log is on its way. -/
def MsgOk (boot : Configuration) (h : History NodeId Entry) (m : Message) : Prop :=
  match m.payload with
  | .voteRequest _ => m.term ≤ h.term m.sender
  | .voteResponse resp => resp.granted = true → h.vote m.sender m.term = some m.receiver
  | .appendRequest req => h.leader m.term = some m.sender ∧
      ((∃ P, P.length = req.prevLogIndex ∧ P ++ req.entries <+: h.leaderLog m.term ∧
        lastTerm (scheme boot) P = req.prevLogTerm) ∨
      (req.entries = [] ∧ req.prevLogTerm = 0 ∧ req.prevLogIndex ≠ 0))
  | _ => True

structure Sim (boot : Configuration) (w : World) (h : History NodeId Entry) : Prop where
  inv : History.Inv (scheme boot) h
  nodes : ∀ n, NodeOk boot h w.net n (w.views n)
  net : ∀ m ∈ w.net, MsgOk boot h m
  voted : ∀ q t c, h.vote q t = some c → t ≤ h.term c
  term_pos : ∀ t, h.leader t ≠ none → 0 < t

variable {boot : Configuration} {h h' : History NodeId Entry} {net net' : Set Message} {w : World}
  {n p : NodeId} {v : View}

theorem MsgOk.mono {m : Message} (hm : MsgOk boot h m) (hle : History.Le h h') :
    MsgOk boot h' m := by
  unfold MsgOk at hm ⊢
  cases hp : m.payload with
  | voteRequest req =>
    simp only [hp] at hm ⊢
    exact hm.trans (hle.term _)
  | voteResponse resp =>
    simp only [hp] at hm ⊢
    exact fun hg => hle.vote _ _ _ (hm hg)
  | appendRequest req =>
    simp only [hp] at hm ⊢
    refine ⟨hle.leader _ _ hm.1, ?_⟩
    rcases hm.2 with ⟨P, hlen, hpre, hterm⟩ | hpast
    · exact Or.inl ⟨P, hlen, hpre.trans (hle.leaderLog _), hterm⟩
    · exact Or.inr hpast
  | preVoteRequest | preVoteResponse | appendResponse | installSnapshotRequest
  | installSnapshotResponse | readIndexRequest | readIndexResponse | timeoutNow => trivial

/-- New messages of other nodes do not matter to a candidate. -/
theorem NodeOk.net_mono (hok : NodeOk boot h net p v)
    (hnet : ∀ m ∈ net', m ∈ net ∨ m.sender ≠ p) : NodeOk boot h net' p v := by
  refine { hok with candidate := ?_ }
  intro votes hr
  refine { hok.candidate votes hr with asked := ?_ }
  intro m hm req hs
  rcases hnet m hm with hm | hne
  · exact (hok.candidate votes hr).asked m hm req hs
  · exact absurd hs hne

/-- A node that another node's step does not touch. -/
theorem NodeOk.frame (hok : NodeOk boot h net p v) (hle : History.Le h h')
    (hterm : h'.term p = h.term p) (hlog : h'.log p = h.log p)
    (hvote : h'.vote p (h.term p) = h.vote p (h.term p))
    (hunled : h.leader (h.term p) ≠ some p → h'.leader (h.term p) ≠ some p)
    (hup : (∃ votes, v.role = .candidate votes) → ∀ q, h'.vote q v.term = some p →
      UpToDate (scheme boot) v.log.entries (h'.voteLog q v.term)) : NodeOk boot h' net p v where
  term := hterm.trans hok.term
  log := hlog.trans hok.log
  vote := by
    rw [hok.term] at hvote
    exact hvote.trans hok.vote
  candidate := by
    intro votes hr
    have hc := hok.candidate votes hr
    rw [hok.term] at hunled
    exact
      { unled := hunled hc.unled
        older := hc.older
        counted := fun q hq => hle.vote _ _ _ (hc.counted q hq)
        upToDate := hup ⟨votes, hr⟩
        asked := hc.asked }
  leader := fun l hr => hle.leader _ _ (hok.leader l hr)

/-- Frame rule for a step that casts no vote. -/
theorem NodeOk.frame_votes (hok : NodeOk boot h net p v) (hle : History.Le h h')
    (hterm : h'.term p = h.term p) (hlog : h'.log p = h.log p)
    (hunled : h.leader (h.term p) ≠ some p → h'.leader (h.term p) ≠ some p)
    (hvote : h'.vote = h.vote) (hvl : h'.voteLog = h.voteLog) : NodeOk boot h' net p v := by
  refine hok.frame hle hterm hlog (by rw [hvote]) hunled ?_
  rintro ⟨votes, hr⟩ q hq
  rw [hvote] at hq
  rw [hvl]
  exact (hok.candidate votes hr).upToDate q hq

/-- A step of node `n` after which the history is `h'`: what has to be shown. -/
theorem Sim.set (hs : Sim boot w h) (hinv : History.Inv (scheme boot) h') (hle : History.Le h h')
    (hn : NodeOk boot h' net' n v)
    (hothers : ∀ p, p ≠ n → NodeOk boot h' w.net p (w.views p))
    (hnet : ∀ m ∈ net', m ∈ w.net ∨ (m.sender = n ∧ MsgOk boot h' m))
    (hvoted : ∀ q t c, h'.vote q t = some c → t ≤ h'.term c)
    (hpos : ∀ t, h'.leader t ≠ none → 0 < t) : Sim boot (w.set n v net') h' where
  inv := hinv
  nodes := by
    intro p
    by_cases hp : p = n
    · subst hp
      simpa using hn
    · rw [World.set_views_ne _ _ _ hp]
      refine (hothers p hp).net_mono ?_
      intro m hm
      rcases hnet m hm with hm | ⟨hm, -⟩
      · exact Or.inl hm
      · exact Or.inr (hm ▸ Ne.symm hp)
  net := by
    intro m hm
    rcases hnet m hm with hm | ⟨-, hm⟩
    · exact (hs.net m hm).mono hle
    · exact hm
  voted := hvoted
  term_pos := hpos

/-- A step of node `n` that the history does not see. -/
theorem Sim.set_same (hs : Sim boot w h) (hn : NodeOk boot h net' n v)
    (hnet : ∀ m ∈ net', m ∈ w.net ∨ (m.sender = n ∧ MsgOk boot h m)) :
    Sim boot (w.set n v net') h :=
  hs.set hs.inv (History.Le.refl h) hn (fun p _ => hs.nodes p) hnet hs.voted hs.term_pos

end BasisDB.Raft
