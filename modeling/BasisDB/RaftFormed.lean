import BasisDB.RaftProtocol

/-! Well-formed states of the protocol: logs without gaps, and append requests
that carry consecutive entries. -/
namespace BasisDB.Raft
open ReplicatedLog

/-- The loop keeps a plain log plain when the entries follow on from inside it. -/
theorem Follower.appendEntries_plain {log : Log} (h : log.Plain) (flag : Bool) {k : ℕ}
    {es : List Entry} (hes : Numbered k es) (hk : k ≤ log.entries.length) :
    (es.foldl appendEntry (log, flag)).1.Plain := by
  induction es generalizing log flag k with
  | nil => exact h
  | cons e es ih =>
    obtain ⟨hi, ht, hrest⟩ := hes
    rw [List.foldl_cons]
    have hstep (log' : Log) (h' : log'.Plain) (hl : k ≤ log'.entries.length) :
        ∃ log'' flag', (if log'.lastIndex < e.index then (log'.append e, true) else (log', flag)) =
          (log'', flag') ∧ log''.Plain ∧ k + 1 ≤ log''.entries.length := by
      by_cases hlt : log'.lastIndex < e.index
      · rw [h'.lastIndex] at hlt
        refine ⟨log'.append e, true, by rw [if_pos (h'.lastIndex ▸ hlt)], h'.append (by omega) ht, ?_⟩
        simp only [Log.append, List.length_append, List.length_singleton]
        omega
      · rw [h'.lastIndex] at hlt
        refine ⟨log', flag, by rw [if_neg (h'.lastIndex ▸ hlt)], h', by omega⟩
    by_cases hc : log.termAt e.index ≠ 0 ∧ log.termAt e.index ≠ e.term
    · have hcut := h.take (e.index - 1)
      rw [← h.truncateAfter] at hcut
      have hlen : k ≤ (log.truncateAfter (e.index - 1)).entries.length := by
        rw [h.truncateAfter, List.length_take]
        omega
      obtain ⟨log'', flag', heq, hp, hl⟩ := hstep _ hcut hlen
      have : appendEntry (log, flag) e = (log'', flag') := by
        rw [← heq]
        simp only [appendEntry, if_pos hc]
      rw [this]
      exact ih hp flag' hrest hl
    · obtain ⟨log'', flag', heq, hp, hl⟩ := hstep log h hk
      have : appendEntry (log, flag) e = (log'', flag') := by
        rw [← heq]
        simp only [appendEntry, if_neg hc]
      rw [this]
      exact ih hp flag' hrest hl

structure View.Formed (boot : Configuration) (v : View) : Prop where
  plain : v.log.Plain
  boot_eq : v.persistent.bootstrapConfig = boot
  term_pos : v.role ≠ .follower → 0 < v.term

/-- An append request starts where its previous entry stands, and asks nothing of
a log when it starts past its sender's end. No snapshots travel. -/
def Message.Formed (m : Message) : Prop :=
  match m.payload with
  | .appendRequest req => Numbered req.prevLogIndex req.entries ∧
      (req.prevLogIndex ≠ 0 → req.prevLogTerm = 0 → req.entries = [])
  | .installSnapshotRequest _ => False
  | .installSnapshotResponse _ => False
  | _ => True

structure World.Formed (boot : Configuration) (w : World) : Prop where
  views : ∀ n, (w.views n).Formed boot
  net : ∀ m ∈ w.net, m.Formed

theorem View.Formed.config_eq {boot : Configuration} {v : View} (h : v.Formed boot) :
    v.effectiveConfig = config (scheme boot) v.log.entries := by
  rw [← h.plain.configAt_last boot, View.effectiveConfig, h.boot_eq]

/-- The previous entry of a segment is an entry of the log, or the segment is empty. -/
theorem Log.Plain.slice_formed {log : Log} (h : log.Plain) (prev stop : ℕ) :
    Numbered prev (log.slice (prev + 1) stop) ∧
    (prev ≠ 0 → log.termAt prev = 0 → log.slice (prev + 1) stop = []) := by
  rw [h.slice_eq (prev + 1) stop (Nat.succ_pos _), Nat.add_sub_cancel]
  refine ⟨?_, ?_⟩
  · by_cases hlen : prev ≤ (log.entries.take stop).length
    · have hn := h.numbered.of_isPrefix (List.take_prefix stop log.entries)
      rw [← List.take_append_drop prev (log.entries.take stop), numbered_append] at hn
      have := hn.2
      rwa [List.length_take_of_le hlen, Nat.zero_add] at this
    · rw [List.drop_eq_nil_of_le (not_le.mp hlen).le]
      trivial
  · intro h0 hterm
    have hbeyond : log.entries.length < prev := by
      by_contra hle
      obtain ⟨j, rfl⟩ : ∃ j, prev = j + 1 := ⟨prev - 1, by omega⟩
      have hj : j < log.entries.length := by omega
      rw [h.termAt_succ, List.getElem?_eq_getElem hj] at hterm
      have := h.numbered.pos _ (List.getElem_mem hj)
      simp at hterm
      omega
    rw [List.drop_eq_nil_iff, List.length_take]
    omega

theorem Emits.formed {boot : Configuration} {me : NodeId} {v : View} {net : Set Message}
    {m : Message} (h : Emits me v net m) (hv : v.Formed boot) : m.Formed := by
  obtain ⟨-, h⟩ := h
  unfold Message.Formed
  cases hp : m.payload with
  | appendRequest req =>
    simp only [hp] at h
    obtain ⟨-, -, hprev, -, stop, hes⟩ := h
    have hs := hv.plain.slice_formed req.prevLogIndex stop
    rwa [← hes, ← hprev] at hs
  | installSnapshotRequest req => simp only [hp] at h
  | installSnapshotResponse resp => simp only [hp] at h
  | preVoteRequest | preVoteResponse | voteRequest | voteResponse | appendResponse
  | readIndexRequest | readIndexResponse | timeoutNow => trivial

/-- An accepted request starts inside the log or carries nothing. -/
theorem Follower.accepts_inside {log : Log} (h : log.Plain) {req : AppendRequest}
    (hacc : accepts log req = true)
    (hreq : req.prevLogIndex ≠ 0 → req.prevLogTerm = 0 → req.entries = []) :
    req.entries = [] ∨ req.prevLogIndex ≤ log.entries.length := by
  by_cases h0 : req.prevLogIndex = 0
  · exact Or.inr (by omega)
  have hterm : log.termAt req.prevLogIndex = req.prevLogTerm := by
    have hpos : 0 < req.prevLogIndex := Nat.pos_of_ne_zero h0
    simpa [accepts, hpos] using hacc
  by_cases ht : req.prevLogTerm = 0
  · exact Or.inl (hreq h0 ht)
  · right
    by_contra hlt
    rw [h.termAt_beyond (not_le.mp hlt)] at hterm
    exact ht hterm.symm

theorem Micro.formed {g : Guards} {boot : Configuration} {me : NodeId} {v v' : View}
    {net net' : Set Message} (h : Micro g me v net v' net') (hv : v.Formed boot)
    (hnet : ∀ m ∈ net, m.Formed) : v'.Formed boot ∧ ∀ m ∈ net', m.Formed := by
  have hpos {l : LeaderView} (hr : v.role = .leader l) : 0 < v.term :=
    hv.term_pos (by simp [hr])
  have hinsert {m : Message} (hm : m.Formed) : ∀ x ∈ insert m net, x.Formed := by
    rintro x (rfl | hx)
    · exact hm
    · exact hnet x hx
  have hend (p : EntryPayload) (hpos : 0 < v.term) :
      (v.log.append { term := v.term, index := v.log.lastIndex + 1, payload := p }).Plain :=
    hv.plain.append (by simp [hv.plain.lastIndex]) hpos
  cases h with
  | observe t ht => exact ⟨⟨hv.plain, hv.boot_eq, fun _ => Nat.zero_lt_of_lt ht⟩, hnet⟩
  | stepDown | restart => exact ⟨⟨hv.plain, hv.boot_eq, fun hr => absurd rfl hr⟩, hnet⟩
  | campaign => exact ⟨⟨hv.plain, hv.boot_eq, fun _ => Nat.succ_pos _⟩, hnet⟩
  | grant m req hm hp ht hr hvote hup =>
    exact ⟨⟨hv.plain, hv.boot_eq, hv.term_pos⟩, hinsert trivial⟩
  | countVote m votes hm hp ht hrec hr | win votes l hr =>
    exact ⟨⟨hv.plain, hv.boot_eq, fun _ => hv.term_pos (by simp [hr])⟩, hnet⟩
  | absorb m req hm hp ht hr hacc hg log hlog c hc =>
    refine ⟨⟨?_, hv.boot_eq, hv.term_pos⟩, hinsert trivial⟩
    have hreq := hnet m hm
    simp only [Message.Formed, hp] at hreq
    subst hlog
    rcases Follower.accepts_inside hv.plain hacc hreq.2 with hes | hle
    · rw [hes]
      exact hv.plain
    · exact Follower.appendEntries_plain hv.plain false hreq.1 hle
  | appendCommand l cmd hr => exact ⟨⟨hend _ (hpos hr), hv.boot_eq, hv.term_pos⟩, hnet⟩
  | appendConfig l c hr => exact ⟨⟨hend _ (hpos hr), hv.boot_eq, hv.term_pos⟩, hnet⟩
  | commit l i hr => exact ⟨⟨hv.plain, hv.boot_eq, hv.term_pos⟩, hnet⟩
  | ownMatch l k hr | peerMatch l m k hm hp ht hrec hr | startRead l hr | readNow l hr
  | ackRead l p m hm hp ht hrec hr | confirmRead l p m hm hp ht hrec hr =>
    exact ⟨⟨hv.plain, hv.boot_eq, fun _ => hpos hr⟩, hnet⟩
  | emit m hm => exact ⟨hv, hinsert (hm.formed hv)⟩

theorem Micros.formed {g : Guards} {boot : Configuration} {me : NodeId}
    {a b : View × Set Message} (h : Micros g me a b) (hv : a.1.Formed boot)
    (hnet : ∀ m ∈ a.2, m.Formed) : b.1.Formed boot ∧ ∀ m ∈ b.2, m.Formed := by
  induction h with
  | refl => exact ⟨hv, hnet⟩
  | tail _ hstep ih => exact hstep.formed ih.1 ih.2

theorem World.Step.formed {g : Guards} {boot : Configuration} {w w' : World} (h : Step g w w')
    (hw : w.Formed boot) : w'.Formed boot := by
  obtain ⟨hm⟩ := h
  rename_i n v net
  obtain ⟨hv, hnet⟩ := hm.formed (hw.views n) hw.net
  refine ⟨?_, hnet⟩
  intro p
  by_cases hp : p = n
  · subst hp
    simpa using hv
  · rw [World.set_views_ne _ _ _ hp]
    exact hw.views p

theorem World.steps_formed {g : Guards} {boot : Configuration} {w w' : World}
    (h : Relation.ReflTransGen (Step g) w w') (hw : w.Formed boot) : w'.Formed boot := by
  induction h with
  | refl => exact hw
  | tail _ hstep ih => exact hstep.formed ih

end BasisDB.Raft
