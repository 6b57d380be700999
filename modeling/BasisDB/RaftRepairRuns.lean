import BasisDB.RaftRepairConverges

/-! The exchange as a whole: a converging exchange ends with the leader's log on the follower,
and exactly the repairable exchanges ever converge. -/
namespace BasisDB.Raft
open ReplicatedLog

namespace Exchange
open Leader Follower
variable {L : List Entry} {x : Exchange} {a : ℕ}

/-- What is left to do. A commit may send again, but only for a joint configuration; otherwise
the next index moves up when requests are pipelined, and the follower's log grows when not. -/
def rank (L : List Entry) (x : Exchange) : ℕ ×ₗ ℕ ×ₗ ℕ :=
  toLex (pendingJoints x.leaderCore, toLex
    (if x.leaderCore.config.pipelining then (L.length + 1 - x.next, x.inFlight.length)
    else (L.length - x.followerCore.log.entries.length,
      x.inFlight.length + if x.next = x.followerCore.log.entries.length + 1 then 0 else 1)))

section Rank
variable {y : Exchange}

theorem rank_lt_of_joints (h : pendingJoints y.leaderCore < pendingJoints x.leaderCore) :
    rank L y < rank L x := by
  unfold rank
  rw [Prod.Lex.toLex_lt_toLex]
  exact Or.inl h

variable (hconfig : y.leaderCore.config = x.leaderCore.config)
  (hjoints : pendingJoints y.leaderCore ≤ pendingJoints x.leaderCore)
include hconfig hjoints

theorem rank_lt_pipelined (hpipe : x.leaderCore.config.pipelining = true)
    (h : L.length + 1 - y.next < L.length + 1 - x.next ∨
      y.next = x.next ∧ y.inFlight.length < x.inFlight.length) : rank L y < rank L x := by
  rcases Nat.lt_or_eq_of_le hjoints with hlt | heq
  · exact rank_lt_of_joints hlt
  unfold rank
  rw [hconfig, if_pos hpipe, if_pos hpipe, Prod.Lex.toLex_lt_toLex, Prod.Lex.toLex_lt_toLex]
  rcases h with hnext | ⟨hnext, hflight⟩
  · exact Or.inr ⟨heq, Or.inl hnext⟩
  · rw [hnext]
    exact Or.inr ⟨heq, Or.inr ⟨rfl, hflight⟩⟩

theorem rank_lt_single (hpipe : ¬x.leaderCore.config.pipelining = true) {n m : ℕ}
    (hm : y.followerCore.log.entries.length = m) (hn : x.followerCore.log.entries.length = n)
    (h : L.length - m < L.length - n ∨ m = n ∧
      y.inFlight.length + (if y.next = m + 1 then 0 else 1) <
        x.inFlight.length + (if x.next = n + 1 then 0 else 1)) : rank L y < rank L x := by
  rcases Nat.lt_or_eq_of_le hjoints with hlt | heq
  · exact rank_lt_of_joints hlt
  unfold rank
  rw [hconfig, if_neg hpipe, if_neg hpipe, Prod.Lex.toLex_lt_toLex, Prod.Lex.toLex_lt_toLex, hm, hn]
  rcases h with hgrow | ⟨hsame, hflight⟩
  · exact Or.inr ⟨heq, Or.inl hgrow⟩
  · exact Or.inr ⟨heq, Or.inr ⟨by rw [hsame], hflight⟩⟩

end Rank

/-- The request a converging exchange delivers next, and what is left after it. -/
theorem Converging.sending (h : Converging L x a) (ha : a < L.length) :
    ∃ l req rest n, x.sending = (l, req :: rest) ∧ (l.nextIndex.get x.peer).isSome = true ∧
      0 < l.nextOf x.peer ∧ Segment L n req ∧ n ≤ a + 1 ∧
      Covers L (l.nextOf x.peer) (max a (n - 1 + req.entries.length)) rest ∧
      ((x.inFlight = [] ∧ rest = [] ∧ n = x.next ∧ 0 < req.entries.length ∧
          l.nextOf x.peer = if x.leaderCore.config.pipelining then x.next + req.entries.length
            else x.next) ∨
        (x.inFlight = req :: rest ∧ l.nextOf x.peer = x.next)) := by
  have hcovers := h.covers
  have hpos := h.ready.pos
  cases hflight : x.inFlight with
  | nil =>
    rw [hflight] at hcovers
    have hnext : x.next ≤ a + 1 := by
      rcases hcovers with hle | hle
      · omega
      · exact hle
    obtain ⟨l, hsend, hknown, hafter, -⟩ := sending_nil h.ready hflight
    obtain ⟨ext, hext⟩ := h.ready.leads.begins
    have hlen : 0 < (requestAt x.leaderCore x.next).entries.length := by
      have hle := h.ready.leads.begins.length_le
      unfold requestAt
      rw [List.length_take, List.length_drop]
      omega
    have hl : l.nextOf x.peer = if x.leaderCore.config.pipelining
        then x.next + (requestAt x.leaderCore x.next).entries.length else x.next := hafter
    refine ⟨l, _, [], x.next, hsend, hknown, ?_,
      requestAt_segment h.ready.leads.plain hext.symm hpos, hnext, ?_,
      Or.inl ⟨rfl, rfl, rfl, hlen, hl⟩⟩
    · rw [hl]
      split_ifs <;> omega
    · right
      rw [hl]
      split_ifs <;> omega
  | cons req rest =>
    rw [hflight] at hcovers
    rcases hcovers with hle | ⟨n, hreq, hn, hrest⟩
    · omega
    · exact ⟨x.leader, req, rest, n, sending_cons hflight, h.ready.known, hpos, hreq, hn, hrest,
        Or.inr ⟨rfl, rfl⟩⟩

/-- A round of a converging exchange finishes the repair, or leaves less to do. -/
theorem Converging.round (h : Converging L x a) (hholds : ¬x.Holds L) :
    x.round.Holds L ∨ (∃ a', Converging L x.round a') ∧ rank L x.round < rank L x := by
  have ha : a < L.length := by
    by_contra hle
    apply hholds
    have hagrees := h.agrees
    rwa [List.take_of_length_le (not_lt.mp hle)] at hagrees
  obtain ⟨l, req, rest, n, hsend, hknown, hpos, hreq, hn, hcovers, hcases⟩ := h.sending ha
  obtain ⟨hacc, hlogs⟩ := h.delivered hreq hn
  obtain ⟨hpeer, hlog, reqs, l₁, hl₁, hadv, hflight⟩ :=
    round_accepted h.ready.leads hsend hknown hpos hacc
  rcases hlogs with hdone | ⟨hle, hplain, hmatch, hagrees, hends⟩
  · left
    rw [Holds, hlog]
    exact hdone
  right
  generalize hae : max a (n - 1 + req.entries.length) = a' at hcovers hle hagrees hends
  -- where the leader continues, before the commit loop
  have hmode : x.leaderCore.config.pipelining = true ∨
      (logAfter x.followerCore.log req).entries = L.take a' :=
    h.mode.imp_right hends
  have hlast : ¬x.leaderCore.config.pipelining = true →
      (logAfter x.followerCore.log req).lastIndex = a' := by
    intro hpipe
    rw [hplain.lastIndex, hmode.resolve_left hpipe, List.length_take]
    omega
  have hcovers₁ : Covers L (l₁.nextOf x.peer) a' rest := by
    rw [hl₁, nextAccepted]
    by_cases hpipe : x.leaderCore.config.pipelining = true
    · rw [if_pos hpipe]
      exact hcovers
    · rw [if_neg hpipe, hlast hpipe]
      exact hcovers.lower le_rfl
  have hl₁pos : 0 < l₁.nextOf x.peer := by
    rw [hl₁, nextAccepted]
    split_ifs <;> omega
  have hnext : x.round.next = x.round.leader.nextOf x.peer := by
    rw [next, hpeer]
    rfl
  refine ⟨⟨a', ⟨hpeer ▸ hadv.leads, hpeer ▸ hadv.known, ?_⟩, hlog ▸ hplain, hlog ▸ hmatch, hle,
    hlog ▸ hagrees, ?_, ?_⟩, ?_⟩
  · rw [hnext]
    exact lt_of_lt_of_le hl₁pos hadv.issued.le
  · rw [hadv.config, hlog]
    exact hmode
  · rw [hnext, hflight]
    exact hcovers₁.append hadv.issued
  · -- a commit that sends again ends a joint configuration; otherwise only the request is gone
    rcases hadv.fewer with hlt | ⟨hjoints, hreqs, hsame⟩
    · exact rank_lt_of_joints hlt
    rw [hreqs, List.append_nil] at hflight
    rw [hsame, hl₁, nextAccepted] at hnext
    by_cases hpipe : x.leaderCore.config.pipelining = true
    · apply rank_lt_pipelined hadv.config hjoints hpipe
      rw [hflight, hnext, if_pos hpipe]
      rcases hcases with ⟨hnil, hrest, hnx, hlen, hafter⟩ | ⟨hcons, hafter⟩
      · left
        rw [hafter, if_pos hpipe]
        omega
      · right
        rw [hafter, hcons, List.length_cons]
        exact ⟨rfl, Nat.lt_succ_self _⟩
    · have hF : x.followerCore.log.entries.length = a := by
        rw [h.mode.resolve_left hpipe, List.length_take]
        omega
      have hF' : x.round.followerCore.log.entries.length = a' := by
        rw [hlog, hmode.resolve_left hpipe, List.length_take]
        omega
      apply rank_lt_single hadv.config hjoints hpipe hF' hF
      rw [hflight, hnext, if_neg hpipe, hlast hpipe, if_pos rfl]
      rcases Nat.lt_or_ge a a' with hgrow | hstay
      · left
        omega
      · right
        refine ⟨by omega, ?_⟩
        rcases hcases with ⟨hnil, hrest, hnx, hlen, -⟩ | ⟨hcons, -⟩
        · -- nothing was learnt, so the next index was below the end of the log
          have hpos' := h.ready.pos
          have hne : x.next ≠ a + 1 := by omega
          rw [hrest, hnil, if_neg hne]
          exact Nat.zero_lt_one
        · rw [hcons, List.length_cons]
          omega

theorem Converging.converges (h : Converging L x a) : ∃ n, (Exchange.round^[n] x).Holds L :=
  exists_iterate_of_rank Exchange.round (rank L) (fun x => ∃ a, Converging L x a)
    (fun x => x.Holds L) (fun _ ⟨_, h⟩ hholds => h.round hholds) x ⟨a, h⟩

/-- A leader about to send its log `L` to a follower of its term: no compaction, log matching,
a next index within the log, and a match index the follower has acknowledged. -/
structure Begins (L : List Entry) (x : Exchange) : Prop where
  leads : Leads L x.peer x.leaderCore
  whole : x.leaderCore.log.entries = L
  known : (x.leader.nextIndex.get x.peer).isSome = true
  pos : 0 < x.next
  le : x.next ≤ L.length + 1
  acked : x.leader.matchOf x.peer ≤ x.followerCore.log.entries.length
  plain : x.followerCore.log.Plain
  matching : Matching L x.followerCore.log.entries
  quiet : x.inFlight = []

/-- When the exchange converges: the logs have no conflict, or the first request is accepted
and, without pipelining, reaches the conflict. -/
def Repairable (L : List Entry) (x : Exchange) : Prop :=
  L <+: x.followerCore.log.entries ∨ x.followerCore.log.entries <+: L ∨
    (L.take (x.next - 1) <+: x.followerCore.log.entries ∧
      (x.leaderCore.config.pipelining = true ∨
        ¬L.take (x.next + x.leaderCore.config.maxEntriesPerMsg) <+: x.followerCore.log.entries))

namespace Begins

theorem ready (h : Begins L x) : Ready L x := ⟨h.leads, h.known, h.pos⟩

theorem segment (h : Begins L x) {next : ℕ} (hnext : 0 < next) :
    Segment L next (requestAt x.leaderCore next) :=
  requestAt_segment h.leads.plain ((List.append_nil L).symm ▸ h.whole) hnext

theorem take_reach (h : Begins L x) :
    L.take (x.next - 1 + (requestAt x.leaderCore x.next).entries.length) =
      L.take (x.next + x.leaderCore.config.maxEntriesPerMsg) := by
  have hpos := h.pos
  rw [requestAt, List.length_take, List.length_drop, h.whole, List.take_eq_take_iff]
  omega

theorem reach_le (h : Begins L x) :
    x.next - 1 + (requestAt x.leaderCore x.next).entries.length ≤ L.length := by
  have hle := h.le
  rw [requestAt, List.length_take, List.length_drop, h.whole]
  omega

/-- The first round, when the request is accepted. -/
theorem round_accepted (h : Begins L x)
    (hagree : L.take (x.next - 1) <+: x.followerCore.log.entries) :
    x.round.peer = x.peer ∧ x.round.followerCore.log.Plain ∧
    ((x.round.followerCore.log.entries = x.followerCore.log.entries ∧
        L.take (x.next + x.leaderCore.config.maxEntriesPerMsg) <+:
          x.followerCore.log.entries) ∨
      (x.round.followerCore.log.entries =
          L.take (x.next + x.leaderCore.config.maxEntriesPerMsg) ∧
        ¬L.take (x.next + x.leaderCore.config.maxEntriesPerMsg) <+:
          x.followerCore.log.entries)) ∧
    ∃ l₁, Advances L x.peer l₁ x.leaderCore x.round.leader x.round.leaderCore x.round.inFlight ∧
      (x.leaderCore.config.pipelining = false →
        l₁.nextOf x.peer = x.round.followerCore.log.lastIndex + 1) := by
  have hle : x.next - 1 ≤ L.length := by
    have := h.le
    omega
  obtain ⟨l, hsend, hknown, hafter, -⟩ := sending_nil h.ready h.quiet
  have hseg := h.segment h.pos
  have hnum := h.ready.numbered
  have hacc := (accepts_iff h.plain hnum h.matching hseg hle).mpr hagree
  have hlpos : 0 < l.nextOf x.peer := by
    have := h.pos
    rw [hafter, nextAfter]
    split_ifs <;> omega
  obtain ⟨hpeer, hlog, reqs, l₁, hl₁, hadv, hflight⟩ :=
    Exchange.round_accepted h.leads hsend hknown hlpos hacc
  obtain ⟨hplain, hcases⟩ := (logAfter_segment h.plain hnum h.matching hseg hle hagree).2 h.reach_le
  rw [h.take_reach] at hcases
  rw [List.nil_append] at hflight
  refine ⟨hpeer, hlog ▸ hplain, hlog ▸ hcases, l₁, hflight ▸ hadv, ?_⟩
  intro hpipe
  rw [hl₁, nextAccepted, hpipe, if_neg Bool.false_ne_true, hlog]

/-- The first round, when the request is rejected: on to the end of the follower's log. -/
theorem round_rejected (h : Begins L x)
    (hagree : ¬L.take (x.next - 1) <+: x.followerCore.log.entries) :
    x.round.peer = x.peer ∧ x.round.followerCore.log = x.followerCore.log ∧
    x.round.leaderCore = x.leaderCore ∧ (x.round.leader.nextIndex.get x.peer).isSome = true ∧
    Issued L x.leaderCore.config.pipelining (x.followerCore.log.entries.length + 1)
      x.round.inFlight x.round.next := by
  have hle : x.next - 1 ≤ L.length := by
    have := h.le
    omega
  obtain ⟨l, hsend, hknown, hafter, hmatchOf⟩ := sending_nil h.ready h.quiet
  have hacc : accepts x.followerCore.log (requestAt x.leaderCore x.next) = false := by
    rw [Bool.eq_false_iff]
    exact fun hacc => hagree
      ((accepts_iff h.plain h.ready.numbered h.matching (h.segment h.pos) hle).mp hacc)
  obtain ⟨hpeer, hlog, hcore, hknown', hnext, hflight⟩ :=
    Exchange.round_rejected h.leads hsend hacc
  have hrejected : nextRejected l x.leaderCore x.peer x.followerCore.log.lastIndex =
      x.followerCore.log.entries.length + 1 := by
    have := h.acked
    rw [nextRejected, hmatchOf, h.plain.lastIndex]
    split_ifs <;> omega
  rw [hrejected] at hnext hflight
  refine ⟨hpeer, hlog, hcore, hknown', ?_⟩
  have hround : x.round.next = nextAfter x.leaderCore (x.followerCore.log.entries.length + 1) := by
    rw [next, hpeer]
    exact hnext
  rw [hround, hflight, List.nil_append]
  exact Issued.cons (h.segment (Nat.succ_pos _)) (Issued.nil _)

theorem stuck (h : Begins L x) (hnot : ¬Repairable L x) :
    Stuck L x.followerCore.log.entries x.round := by
  unfold Repairable at hnot
  push Not at hnot
  obtain ⟨-, -, hfirst⟩ := hnot
  have hkeeps := Keeps.self h.plain
  by_cases hagree : L.take (x.next - 1) <+: x.followerCore.log.entries
  · -- accepted without reaching the conflict: the log stays, and its end is the next index
    obtain ⟨hpipe, hreach⟩ := hfirst hagree
    obtain ⟨hpeer, hplain, hlog, l₁, hadv, hl₁⟩ := h.round_accepted hagree
    rcases hlog with ⟨hlog, -⟩ | ⟨-, hno⟩
    · have hlast : l₁.nextOf x.peer = x.followerCore.log.entries.length + 1 := by
        rw [hl₁ (Bool.not_eq_true _ ▸ hpipe), hplain.lastIndex, hlog]
      have hissued := hadv.issued
      rw [hlast] at hissued
      have hnext : x.round.next = x.round.leader.nextOf x.peer := by
        rw [next, hpeer]
        rfl
      have habove : x.followerCore.log.entries.length < x.round.next := by
        rw [hnext]
        exact hissued.le
      refine ⟨⟨hpeer ▸ hadv.leads, hpeer ▸ hadv.known, by omega⟩, ?_, habove, ?_⟩
      · have hself := Keeps.self hplain
        rwa [hlog] at hself
      · intro req hreq
        obtain ⟨k, hk, hseg⟩ := hissued.segments req hreq
        exact ⟨k, hk, hseg⟩
    · exact absurd hreach hno
  · obtain ⟨hpeer, hlog, hcore, hknown, hissued⟩ := h.round_rejected hagree
    have habove : x.followerCore.log.entries.length < x.round.next := hissued.le
    refine ⟨⟨?_, hpeer ▸ hknown, by omega⟩, hlog ▸ hkeeps, habove, ?_⟩
    · rw [hpeer, hcore]
      exact h.leads
    · intro req hreq
      obtain ⟨k, hk, hseg⟩ := hissued.segments req hreq
      exact ⟨k, hk, hseg⟩

theorem never_holds (h : Begins L x) (hnot : ¬Repairable L x) :
    ¬∃ n, (Exchange.round^[n] x).Holds L := by
  rintro ⟨n, hn⟩
  have hLF : ¬L <+: x.followerCore.log.entries := fun hp => hnot (Or.inl hp)
  have hFL : ¬x.followerCore.log.entries <+: L := fun hp => hnot (Or.inr (Or.inl hp))
  cases n with
  | zero => exact hLF hn
  | succ n => exact ((h.stuck hnot).rounds n).not_holds hLF hFL hn

/-- A log that is only behind: at the latest the second request starts at its end. -/
theorem converges_of_behind (h : Begins L x) (hbehind : x.followerCore.log.entries <+: L) :
    ∃ n, (Exchange.round^[n] x).Holds L := by
  have htake : x.followerCore.log.entries = L.take x.followerCore.log.entries.length :=
    List.prefix_iff_eq_take.mp hbehind
  have hle := hbehind.length_le
  by_cases hagree : L.take (x.next - 1) <+: x.followerCore.log.entries
  · have hnext : x.next ≤ x.followerCore.log.entries.length + 1 := by
      have hlen := hagree.length_le
      have := h.le
      rw [List.length_take] at hlen
      omega
    refine Converging.converges (a := x.followerCore.log.entries.length)
      ⟨h.ready, h.plain, h.matching, hle, htake ▸ List.prefix_rfl, Or.inr htake, ?_⟩
    rw [h.quiet]
    exact Or.inr hnext
  · obtain ⟨hpeer, hlog, hcore, hknown, hissued⟩ := h.round_rejected hagree
    have hpos : 0 < x.round.next := lt_of_lt_of_le (Nat.succ_pos _) hissued.le
    have hconv : Converging L x.round x.followerCore.log.entries.length := by
      refine ⟨⟨?_, hpeer ▸ hknown, hpos⟩, hlog ▸ h.plain, hlog ▸ h.matching, hle, ?_, ?_, ?_⟩
      · rw [hpeer, hcore]
        exact h.leads
      · rw [hlog]
        exact htake ▸ List.prefix_rfl
      · rw [hlog]
        exact Or.inr htake
      · exact Covers.of_issued hissued (Or.inr le_rfl)
    obtain ⟨n, hn⟩ := hconv.converges
    exact ⟨n + 1, hn⟩

/-- A first request that reaches the conflict: the log is cut there. -/
theorem converges_of_reach (h : Begins L x)
    (hagree : L.take (x.next - 1) <+: x.followerCore.log.entries)
    (hpipe : x.leaderCore.config.pipelining = false)
    (hreach : ¬L.take (x.next + x.leaderCore.config.maxEntriesPerMsg) <+:
      x.followerCore.log.entries) : ∃ n, (Exchange.round^[n] x).Holds L := by
  obtain ⟨hpeer, hplain, hlog, l₁, hadv, hl₁⟩ := h.round_accepted hagree
  rcases hlog with ⟨-, hyes⟩ | ⟨hlog, -⟩
  · exact absurd hyes hreach
  have hlen : x.round.followerCore.log.entries.length ≤ L.length := by
    rw [hlog]
    exact List.length_take_le' _ _
  have htake : x.round.followerCore.log.entries =
      L.take x.round.followerCore.log.entries.length := by
    apply List.prefix_iff_eq_take.mp
    rw [hlog]
    exact List.take_prefix _ _
  have hlast : l₁.nextOf x.peer = x.round.followerCore.log.entries.length + 1 := by
    rw [hl₁ hpipe, hplain.lastIndex]
  have hissued := hadv.issued
  rw [hlast] at hissued
  have hnext : x.round.next = x.round.leader.nextOf x.peer := by
    rw [next, hpeer]
    rfl
  have hconv : Converging L x.round x.round.followerCore.log.entries.length := by
    refine ⟨⟨hpeer ▸ hadv.leads, hpeer ▸ hadv.known, ?_⟩, hplain, ?_, hlen,
      htake ▸ List.prefix_rfl, Or.inr htake, ?_⟩
    · rw [hnext]
      exact lt_of_lt_of_le (Nat.succ_pos _) hissued.le
    · rw [htake]
      exact matching_take _
    · rw [hnext]
      exact Covers.of_issued hissued (Or.inr le_rfl)
  obtain ⟨n, hn⟩ := hconv.converges
  exact ⟨n + 1, hn⟩

/-- With pipelining an accepted first request is followed by all others. -/
theorem converges_of_pipelining (h : Begins L x)
    (hagree : L.take (x.next - 1) <+: x.followerCore.log.entries)
    (hpipe : x.leaderCore.config.pipelining = true) : ∃ n, (Exchange.round^[n] x).Holds L := by
  have hle := h.le
  have hpos := h.pos
  refine Converging.converges (a := x.next - 1)
    ⟨h.ready, h.plain, h.matching, by omega, hagree, Or.inl hpipe, ?_⟩
  rw [h.quiet]
  right
  omega

end Begins

/-- Repeating the exchange brings the leader's log to the follower exactly when the logs have
no conflict or the first request finds it. -/
theorem log_repair_converges_iff (L : List Entry) (x : Exchange) (h : Begins L x) :
    (∃ n, (Exchange.round^[n] x).Holds L) ↔ Repairable L x := by
  constructor
  · intro hn
    by_contra hnot
    exact h.never_holds hnot hn
  · rintro (hp | hp | ⟨hagree, hmode⟩)
    · exact ⟨0, hp⟩
    · exact h.converges_of_behind hp
    · by_cases hpipe : x.leaderCore.config.pipelining = true
      · exact h.converges_of_pipelining hagree hpipe
      · exact h.converges_of_reach hagree ((Bool.not_eq_true _).mp hpipe)
          (hmode.resolve_left hpipe)

/-- Node `id` of a cluster of three in term 2 with a log of commands of the given terms. -/
def threeNodeCore (id : NodeId) (terms : List ℕ) : Core :=
  Core.restore (Config.new id)
    { term := 2
      votedFor := none
      log := { Log.empty with entries := terms.zipIdx.map (fun t =>
        { term := t.1, index := t.2 + 1, payload := .command { bytes := [] } }) }
      bootstrapConfig := Configuration.ofVoters [0, 1, 2] }

/-- Node 0 has just been elected, so its next index of node 1 is the end of its own log. -/
def afterElection (leaderTerms followerTerms : List ℕ) : Exchange :=
  { leader := (Leader.new (threeNodeCore 0 leaderTerms)).1
    leaderCore := threeNodeCore 0 leaderTerms
    follower := (Follower.new (threeNodeCore 1 followerTerms) (some 0)).1
    followerCore := threeNodeCore 1 followerTerms
    inFlight := [] }

theorem threeNodeCore_leads (terms : List ℕ) (hplain : (threeNodeCore 0 terms).log.Plain) :
    Leads (threeNodeCore 0 terms).log.entries 1 (threeNodeCore 0 terms) := by
  refine ⟨hplain, Nat.zero_lt_two, List.prefix_rfl, ?_, ?_⟩
  · show (Configuration.ofVoters [0, 1, 2]).isMember 1 = true
    decide
  · intro e he cfg hcfg
    obtain ⟨t, -, rfl⟩ := List.mem_map.mp he
    cases hcfg

/-- A new leader with an entry of term 2 and a follower with one of term 1 in its place: the
follower rejects every request, and its entry stays. -/
theorem log_repair_never_converges :
    Begins (threeNodeCore 0 [2]).log.entries (afterElection [2] [1]) ∧
      ¬∃ n, (Exchange.round^[n] (afterElection [2] [1])).Holds
        (threeNodeCore 0 [2]).log.entries := by
  have hbegins : Begins (threeNodeCore 0 [2]).log.entries (afterElection [2] [1]) := by
    have hplain : (threeNodeCore 0 [2]).log.Plain := ⟨rfl, rfl, rfl, rfl, by decide, trivial⟩
    refine ⟨threeNodeCore_leads [2] hplain, rfl, by decide, by decide, by decide,
      by decide, ⟨rfl, rfl, rfl, rfl, by decide, trivial⟩, ?_, rfl⟩
    intro P x Q y hP hQ hlen hterm
    have hx := hP.subset (List.mem_append_right P (List.mem_singleton_self x))
    have hy := hQ.subset (List.mem_append_right Q (List.mem_singleton_self y))
    rw [List.mem_singleton.mp hx, List.mem_singleton.mp hy] at hterm
    cases hterm
  refine ⟨hbegins, hbegins.never_holds ?_⟩
  unfold Repairable
  decide +kernel

/-- A follower that only lacks the last entry is repaired. -/
theorem log_repair_converges_shortLog :
    Begins (threeNodeCore 0 [1, 2]).log.entries (afterElection [1, 2] [1]) ∧
      ∃ n, (Exchange.round^[n] (afterElection [1, 2] [1])).Holds
        (threeNodeCore 0 [1, 2]).log.entries := by
  have hbegins : Begins (threeNodeCore 0 [1, 2]).log.entries (afterElection [1, 2] [1]) := by
    have hplain : (threeNodeCore 0 [1, 2]).log.Plain :=
      ⟨rfl, rfl, rfl, rfl, by decide, rfl, by decide, trivial⟩
    exact ⟨threeNodeCore_leads [1, 2] hplain, rfl, by decide, by decide, by decide,
      by decide, ⟨rfl, rfl, rfl, rfl, by decide, trivial⟩, matching_take 1, rfl⟩
  refine ⟨hbegins, (log_repair_converges_iff _ _ hbegins).mpr ?_⟩
  unfold Repairable
  decide +kernel

end Exchange
end BasisDB.Raft
