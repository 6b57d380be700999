import BasisDB.RaftRepairLog
import Mathlib.Data.Prod.Lex

/-! When the exchange repairs a follower's log. A rejected request sends the leader to the end
of the follower's log, so a conflict below the first request is never found again. -/
namespace BasisDB.Raft
open ReplicatedLog

/-- A step that lowers a well-founded rank until it is done is done after finitely many. -/
theorem exists_iterate_of_rank {α β : Type} [LT β] [WellFoundedLT β] (step : α → α) (rank : α → β)
    (inv done : α → Prop) (hstep : ∀ x, inv x → ¬done x →
      done (step x) ∨ (inv (step x) ∧ rank (step x) < rank x)) (x : α) (hx : inv x) :
    ∃ n, done (step^[n] x) := by
  induction hr : rank x using WellFoundedLT.induction generalizing x with
  | ind r ih =>
    by_cases hdone : done x
    · exact ⟨0, hdone⟩
    · rcases hstep x hx hdone with hnow | ⟨hinv, hlt⟩
      · exact ⟨1, hnow⟩
      · obtain ⟨n, hn⟩ := ih _ (hr ▸ hlt) (step x) hinv rfl
        exact ⟨n + 1, hn⟩

namespace Exchange
open Leader Follower
variable {L F : List Entry} {x : Exchange} {a : ℕ}

/-- Nothing on its way and nothing the leader will send reaches down into `F`. -/
structure Stuck (L F : List Entry) (x : Exchange) : Prop where
  ready : Ready L x
  keeps : Keeps F x.followerCore.log
  above : F.length < x.next
  flight : ∀ req ∈ x.inFlight, ∃ n, F.length < n ∧ Segment L n req

theorem Stuck.sending (h : Stuck L F x) : ∃ l req rest n, x.sending = (l, req :: rest) ∧
    (l.nextIndex.get x.peer).isSome = true ∧ F.length < l.nextOf x.peer ∧ F.length < n ∧
    Segment L n req ∧ ∀ r ∈ rest, ∃ n, F.length < n ∧ Segment L n r := by
  cases hflight : x.inFlight with
  | nil =>
    obtain ⟨l, hsend, hknown, hnext, -⟩ := sending_nil h.ready hflight
    obtain ⟨ext, hext⟩ := h.ready.leads.begins
    refine ⟨l, _, [], x.next, hsend, hknown, ?_, h.above,
      requestAt_segment h.ready.leads.plain hext.symm h.ready.pos,
      fun r hr => absurd hr List.not_mem_nil⟩
    have habove := h.above
    rw [hnext, nextAfter]
    split_ifs <;> omega
  | cons req rest =>
    have hall := h.flight
    rw [hflight] at hall
    obtain ⟨n, hn, hreq⟩ := hall req List.mem_cons_self
    exact ⟨x.leader, req, rest, n, sending_cons hflight, h.ready.known, h.above, hn, hreq,
      fun r hr => hall r (List.mem_cons_of_mem _ hr)⟩

/-- A stuck exchange stays stuck, whether the request is accepted or not. -/
theorem Stuck.round (h : Stuck L F x) : Stuck L F x.round := by
  obtain ⟨l, req, rest, n, hsend, hknown, hnext, hn, hreq, hrest⟩ := h.sending
  have hkeeps : Keeps F (logAfter x.followerCore.log req) := logAfter_keeps h.keeps hreq hn
  have hlast := hkeeps.le_lastIndex
  cases hacc : accepts x.followerCore.log req with
  | true =>
    obtain ⟨hpeer, hlog, reqs, l₁, hl₁, hadv, hflight⟩ :=
      round_accepted h.ready.leads hsend hknown (by omega) hacc
    have hl₁lt : F.length < l₁.nextOf x.peer := by
      rw [hl₁, nextAccepted]
      split_ifs <;> omega
    have hround : F.length < x.round.leader.nextOf x.peer :=
      lt_of_lt_of_le hl₁lt hadv.issued.le
    refine ⟨⟨hpeer ▸ hadv.leads, hpeer ▸ hadv.known, ?_⟩, hlog ▸ hkeeps, ?_, ?_⟩
    · rw [next, hpeer]
      exact Nat.zero_lt_of_lt hround
    · rw [next, hpeer]
      exact hround
    · intro r hr
      rw [hflight] at hr
      rcases List.mem_append.mp hr with hr | hr
      · exact hrest r hr
      · obtain ⟨k, hk, hseg⟩ := hadv.issued.segments r hr
        exact ⟨k, lt_of_lt_of_le hl₁lt hk, hseg⟩
  | false =>
    obtain ⟨hpeer, hlog, hcore, hknown', hround, hflight⟩ :=
      round_rejected h.ready.leads hsend hacc
    have hlast' := h.keeps.le_lastIndex
    generalize hn' : nextRejected l x.leaderCore x.peer x.followerCore.log.lastIndex = n' at *
    have hlt : F.length < n' := by
      rw [← hn', nextRejected]
      split_ifs <;> omega
    have hround' : F.length < x.round.leader.nextOf x.peer := by
      rw [hround, nextAfter]
      split_ifs <;> omega
    obtain ⟨ext, hext⟩ := h.ready.leads.begins
    refine ⟨⟨?_, hpeer ▸ hknown', ?_⟩, hlog ▸ h.keeps, ?_, ?_⟩
    · rw [hpeer, hcore]
      exact h.ready.leads
    · rw [next, hpeer]
      exact Nat.zero_lt_of_lt hround'
    · rw [next, hpeer]
      exact hround'
    · intro r hr
      rw [hflight] at hr
      rcases List.mem_append.mp hr with hr | hr
      · exact hrest r hr
      · rw [List.mem_singleton.mp hr]
        exact ⟨n', hlt, requestAt_segment h.ready.leads.plain hext.symm (by omega)⟩

theorem Stuck.rounds (h : Stuck L F x) (n : ℕ) : Stuck L F (Exchange.round^[n] x) := by
  induction n with
  | zero => exact h
  | succ n ih =>
    rw [Function.iterate_succ_apply']
    exact ih.round

/-- A log with a conflict is never repaired once the exchange is stuck above it. -/
theorem Stuck.not_holds (h : Stuck L F x) (hLF : ¬L <+: F) (hFL : ¬F <+: L) : ¬x.Holds L := by
  intro hholds
  rcases List.prefix_or_prefix_of_prefix hholds h.keeps.begins with hp | hp
  · exact hLF hp
  · exact hFL hp

/-- The requests on their way, delivered in order to a log that agrees up to `a`, are all
accepted, and what the leader sends after them continues from there. -/
def Covers (L : List Entry) (next : ℕ) : ℕ → List AppendRequest → Prop
  | a, [] => L.length ≤ a ∨ next ≤ a + 1
  | a, req :: reqs => L.length ≤ a ∨ ∃ n, Segment L n req ∧ n ≤ a + 1 ∧
      Covers L next (max a (n - 1 + req.entries.length)) reqs

theorem Covers.lower {next next' : ℕ} {reqs : List AppendRequest} (h : Covers L next a reqs)
    (hnext : next' ≤ a + 1) : Covers L next' a reqs := by
  induction reqs generalizing a with
  | nil => exact Or.inr hnext
  | cons req reqs ih =>
    rcases h with hle | ⟨n, hreq, hn, hrest⟩
    · exact Or.inl hle
    · exact Or.inr ⟨n, hreq, hn, ih hrest (by omega)⟩

theorem Covers.of_issued {pipelining : Bool} {next next' : ℕ} {reqs : List AppendRequest}
    (h : Issued L pipelining next reqs next') (hnext : L.length ≤ a ∨ next ≤ a + 1) :
    Covers L next' a reqs := by
  induction h generalizing a with
  | nil => exact hnext
  | @cons n _ req _ hreq _ ih =>
    rcases hnext with hle | hle
    · exact Or.inl hle
    · have hpos := hreq.pos
      refine Or.inr ⟨n, hreq, hle, ih (Or.inr ?_)⟩
      split_ifs <;> omega

theorem Covers.append {pipelining : Bool} {next next' : ℕ} {reqs reqs' : List AppendRequest}
    (h : Covers L next a reqs) (h' : Issued L pipelining next reqs' next') :
    Covers L next' a (reqs ++ reqs') := by
  induction reqs generalizing a with
  | nil => exact Covers.of_issued h' h
  | cons req reqs ih =>
    rcases h with hle | ⟨n, hreq, hn, hrest⟩
    · exact Or.inl hle
    · exact Or.inr ⟨n, hreq, hn, ih hrest⟩

/-- The logs agree up to `a`, and the rest is on its way. -/
structure Converging (L : List Entry) (x : Exchange) (a : ℕ) : Prop where
  ready : Ready L x
  plain : x.followerCore.log.Plain
  matching : Matching L x.followerCore.log.entries
  le : a ≤ L.length
  agrees : L.take a <+: x.followerCore.log.entries
  mode : x.leaderCore.config.pipelining = true ∨ x.followerCore.log.entries = L.take a
  covers : Covers L x.next a x.inFlight

theorem Ready.numbered (h : Ready L x) : Numbered 0 L :=
  h.leads.plain.numbered.of_isPrefix h.leads.begins

/-- A covered request is accepted, and the log agrees as far as it reaches. -/
theorem Converging.delivered (h : Converging L x a) {req : AppendRequest} {n : ℕ}
    (hreq : Segment L n req) (hn : n ≤ a + 1) :
    accepts x.followerCore.log req = true ∧
    (L <+: (logAfter x.followerCore.log req).entries ∨
      (max a (n - 1 + req.entries.length) ≤ L.length ∧
        (logAfter x.followerCore.log req).Plain ∧
        Matching L (logAfter x.followerCore.log req).entries ∧
        L.take (max a (n - 1 + req.entries.length)) <+:
          (logAfter x.followerCore.log req).entries ∧
        (x.followerCore.log.entries = L.take a → (logAfter x.followerCore.log req).entries =
          L.take (max a (n - 1 + req.entries.length))))) := by
  have hle : n - 1 ≤ L.length := by
    have := h.le
    omega
  have hagree : L.take (n - 1) <+: x.followerCore.log.entries := by
    refine List.IsPrefix.trans ?_ h.agrees
    exact List.take_prefix_take_left (by omega)
  refine ⟨(accepts_iff h.plain h.ready.numbered h.matching hreq hle).mpr hagree, ?_⟩
  obtain ⟨hall, hpart⟩ := logAfter_segment h.plain h.ready.numbered h.matching hreq hle hagree
  generalize n - 1 + req.entries.length = e at hall hpart ⊢
  rcases Nat.le_total L.length e with hend | hend
  · exact Or.inl (hall hend)
  right
  obtain ⟨hplain, hcases⟩ := hpart hend
  refine ⟨max_le h.le hend, hplain, ?_⟩
  rcases hcases with ⟨heq, hp⟩ | ⟨heq, hp⟩
  · -- the log had these entries
    rw [heq]
    refine ⟨h.matching, ?_, ?_⟩
    · rcases le_total a e with hae | hae
      · rw [max_eq_right hae]
        exact hp
      · rw [max_eq_left hae]
        exact h.agrees
    · intro hF
      have hea : e ≤ a := by
        have hlen := hp.length_le
        rw [hF, List.length_take, List.length_take] at hlen
        have := h.le
        omega
      rw [max_eq_left hea, hF]
  · -- a log without them now ends with the request
    have hae : a ≤ e := by
      by_contra hlt
      refine hp (List.IsPrefix.trans ?_ h.agrees)
      exact List.take_prefix_take_left (by omega)
    rw [max_eq_right hae, heq]
    exact ⟨matching_take e, List.prefix_rfl, fun _ => rfl⟩

end Exchange
end BasisDB.Raft
