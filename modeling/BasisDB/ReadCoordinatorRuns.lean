import BasisDB.ReadCoordinator

/-! When the results of the read coordinator are confirmed by a heartbeat round that began
after the read was requested. -/
namespace BasisDB.ReadIndex
open Raft (NodeId)

/-- The calls after position `b`, up to and with position `e`. -/
def between (calls : List Call) (b e : ℕ) : List Call := (calls.take (e + 1)).drop (b + 1)

theorem mem_between {calls : List Call} {b e : ℕ} {call : Call} :
    call ∈ between calls b e ↔ ∃ j, b < j ∧ j ≤ e ∧ calls[j]? = some call := by
  unfold between
  rw [List.mem_iff_getElem?]
  constructor
  · rintro ⟨n, hn⟩
    rw [List.getElem?_drop, List.getElem?_take] at hn
    split_ifs at hn with hlt
    exact ⟨b + 1 + n, by omega, by omega, hn⟩
  · rintro ⟨j, hbj, hje, hj⟩
    refine ⟨j - (b + 1), ?_⟩
    have hpos : b + 1 + (j - (b + 1)) = j := by omega
    rw [List.getElem?_drop, List.getElem?_take, hpos, if_pos (by omega)]
    exact hj

/-- The acknowledgments between two positions, with those of one call more. -/
theorem exists_recorded_succ {calls : List Call} {b k : ℕ} {call : Call} (hbk : b < k)
    (hcall : calls[k]? = some call) (v : NodeId) :
    (∃ j, b < j ∧ j < k + 1 ∧ calls[j]? = some (.recordAck v)) ↔
      (∃ j, b < j ∧ j < k ∧ calls[j]? = some (.recordAck v)) ∨ call = .recordAck v := by
  constructor
  · rintro ⟨j, hbj, hjk, hj⟩
    rcases Nat.lt_succ_iff_lt_or_eq.mp hjk with hlt | rfl
    · exact Or.inl ⟨j, hbj, hlt, hj⟩
    · exact Or.inr (Option.some.inj (hcall.symm.trans hj))
  · rintro (⟨j, hbj, hjk, hj⟩ | rfl)
    · exact ⟨j, hbj, by omega, hj⟩
    · exact ⟨k, hbk, by omega, hcall⟩

namespace ReadIndexCoordinator
variable {me : NodeId} {voters : List NodeId} {calls : List Call} {j k b e : ℕ} {id : ReadId}
  {i : ℕ}

/-- The coordinator after the first `k` calls. -/
def moment (me : NodeId) (voters : List NodeId) (calls : List Call) (k : ℕ) :
    ReadIndexCoordinator :=
  CommandRuns.exec apply (new me voters) (calls.take k)

/-- The distinct voters counted in a round that began at position `b`, up to position `e`. -/
def counted (me : NodeId) (voters : List NodeId) (calls : List Call) (b e : ℕ) : Finset NodeId :=
  voters.toFinset.filter (fun v => v = me ∨ .recordAck v ∈ between calls b e)

/-- A result of call `k` that is as it should be: it carries the index of its request, and in
one round that began after the request a strict majority of the voters was counted. -/
def Confirmed (me : NodeId) (voters : List NodeId) (calls : List Call) (k : ℕ)
    (result : ReadIndexResult) : Prop :=
  ∃ r b e, r < b ∧ b ≤ e ∧ e ≤ k ∧ calls[r]? = some (.requestRead result.readIndex) ∧
    ((moment me voters calls r).apply (.requestRead result.readIndex)).2 = .id result.id ∧
    calls[b]? = some .beginHeartbeatRound ∧ .beginHeartbeatRound ∉ between calls b e ∧
    voters.toFinset.card < 2 * (counted me voters calls b e).card

/-- All results that a coordinator produces. -/
def allProduced (c : ReadIndexCoordinator) : List Call → List ReadIndexResult
  | [] => []
  | call :: calls => c.produced call ++ (c.after call).allProduced calls

/-- All results that the caller receives. -/
def polled (c : ReadIndexCoordinator) (calls : List Call) : List ReadIndexResult :=
  (CommandRuns.results apply c calls).flatMap (fun
    | .results results => results
    | _ => [])

/-- The calls keep the protocol: whenever one finds a quorum, the reads that wait were
requested before some round began, and the leader's own acknowledgment is that of a voter or
not needed. -/
def Orderly (me : NodeId) (voters : List NodeId) (calls : List Call) : Prop :=
  ∀ k call acks, calls[k]? = some call →
    (moment me voters calls k).acksWith call = some acks →
    (moment me voters calls k).quorum ≤ acks.length →
    ∀ id i, (moment me voters calls k).Waits id i →
      (∃ b ≤ k, calls[b]? = some .beginHeartbeatRound ∧
        id < (moment me voters calls b).nextReadId) ∧
      (me ∈ voters ∨ voters.toFinset.card < 2 * (acks.erase me).length)

theorem moment_succ {call : Call} (h : calls[k]? = some call) :
    moment me voters calls (k + 1) = (moment me voters calls k).after call :=
  CommandRuns.exec_take_succ apply h

theorem moment_formed (me : NodeId) (voters : List NodeId) (calls : List Call) (k : ℕ) :
    (moment me voters calls k).Formed :=
  CommandRuns.exec_invariant (P := Formed) apply (fun _ call h => after_formed h call)
    (new_formed me voters) _

theorem moment_fixed (me : NodeId) (voters : List NodeId) (calls : List Call) (k : ℕ) :
    (moment me voters calls k).me = me ∧ (moment me voters calls k).voters = voters := by
  refine (CommandRuns.exec_invariant (P := fun c => c.Formed ∧ c.me = me ∧ c.voters = voters)
    apply ?_ ⟨new_formed me voters, rfl, rfl⟩ (calls.take k)).2
  rintro c call ⟨hf, hm, hv⟩
  obtain ⟨hv', hm', -⟩ := after_fixed hf call
  exact ⟨after_formed hf call, hm'.trans hm, hv'.trans hv⟩

theorem nextReadId_le_moment (me : NodeId) (voters : List NodeId) (calls : List Call)
    (hjk : j ≤ k) :
    (moment me voters calls j).nextReadId ≤ (moment me voters calls k).nextReadId := by
  refine CommandRuns.exec_between
    (P := fun c => (moment me voters calls j).nextReadId ≤ c.nextReadId) apply hjk ?_ le_rfl
  intro n call _ _ _ hle
  exact hle.trans (after_fixed (moment_formed me voters calls n) call).2.2

theorem acksWith_nodup {c : ReadIndexCoordinator} {call : Call} {acks : List NodeId}
    (h : c.roundAcks.Nodup) (hacks : c.acksWith call = some acks) : acks.Nodup := by
  cases call with
  | beginHeartbeatRound =>
    cases hacks
    exact List.nodup_singleton _
  | recordAck sender =>
    obtain ⟨hnot, -, rfl⟩ := acksWith_recordAck.mp hacks
    rw [← List.concat_eq_append]
    exact List.Nodup.concat hnot h
  | requestRead _ | pollCompleted _ | clear => cases hacks

/-- No node is counted twice. -/
theorem roundAcks_nodup (me : NodeId) (voters : List NodeId) (calls : List Call) (k : ℕ) :
    (moment me voters calls k).roundAcks.Nodup := by
  refine (CommandRuns.exec_invariant (P := fun c => c.Formed ∧ c.roundAcks.Nodup) apply ?_
    ⟨new_formed me voters, List.nodup_nil⟩ (calls.take k)).2
  rintro c call ⟨hf, hn⟩
  refine ⟨after_formed hf call, ?_⟩
  show (c.after call).roundAcks.Nodup
  cases hacks : c.acksWith call with
  | some acks =>
    rw [after_roundAcks hf hacks]
    exact acksWith_nodup hn hacks
  | none =>
    by_cases hclear : call = .clear
    · rw [hclear]
      exact List.nodup_nil
    · rw [(after_quiet hacks).2.1 hclear]
      exact hn

/-- A read that waits has waited since its identifier was given out. -/
theorem waits_earlier (hjk : j ≤ k) (hk : k ≤ calls.length)
    (hw : (moment me voters calls k).Waits id i)
    (hid : id < (moment me voters calls j).nextReadId) :
    (moment me voters calls j).Waits id i := by
  induction k, hjk using Nat.le_induction with
  | base => exact hw
  | succ k hjk ih =>
    apply ih (by omega)
    have hcall : calls[k]? = some calls[k] := List.getElem?_eq_getElem (by omega)
    rw [moment_succ hcall] at hw
    rcases (waits_after (moment_formed me voters calls k) hw).2.2 with hw' | ⟨-, hnew⟩
    · exact hw'
    · -- an identifier of call `k` is not given out before
      exact absurd (hnew ▸ hid) (not_lt.mpr (nextReadId_le_moment me voters calls hjk))

/-- A read that waits was requested, with the index it carries. -/
theorem waits_requested (hk : k ≤ calls.length) (hw : (moment me voters calls k).Waits id i) :
    ∃ r < k, calls[r]? = some (.requestRead i) ∧ (moment me voters calls r).nextReadId = id := by
  induction k with
  | zero =>
    obtain ⟨round, hget⟩ := hw
    cases hget
  | succ k ih =>
    have hcall : calls[k]? = some calls[k] := List.getElem?_eq_getElem (by omega)
    rw [moment_succ hcall] at hw
    rcases (waits_after (moment_formed me voters calls k) hw).2.2 with hw' | ⟨hreq, hnew⟩
    · obtain ⟨r, hr, hrest⟩ := ih (by omega) hw'
      exact ⟨r, by omega, hrest⟩
    · exact ⟨k, by omega, hcall.trans (congrArg some hreq), hnew.symm⟩

/-- While a read waits that was requested before the last round began, the coordinator has
counted itself and the voters that acknowledged since, and these are no quorum. -/
theorem round_open (hk : k ≤ calls.length) (hbk : b < k)
    (hbegin : calls[b]? = some .beginHeartbeatRound)
    (hlast : ∀ j, b < j → j < k → calls[j]? ≠ some .beginHeartbeatRound)
    (hw : (moment me voters calls k).Waits id i)
    (hid : id < (moment me voters calls b).nextReadId) :
    (∀ v, v ∈ (moment me voters calls k).roundAcks ↔
      v = me ∨ v ∈ voters ∧ ∃ j, b < j ∧ j < k ∧ calls[j]? = some (.recordAck v)) ∧
    (moment me voters calls k).roundAcks.length < (moment me voters calls k).quorum := by
  induction k, hbk using Nat.le_induction with
  | base =>
    have hf := moment_formed me voters calls b
    rw [moment_succ hbegin] at hw ⊢
    have hacks : (moment me voters calls b).acksWith .beginHeartbeatRound = some [me] := by
      rw [acksWith, (moment_fixed me voters calls b).1]
    have hnot := (waits_after hf hw).1
    rw [after_roundAcks hf hacks, quorum, (after_fixed hf _).1]
    refine ⟨?_, ?_⟩
    · intro v
      rw [List.mem_singleton]
      refine ⟨Or.inl, ?_⟩
      rintro (hv | ⟨-, j, hbj, hjk, -⟩)
      · exact hv
      · omega
    · by_contra hq
      exact hnot ⟨[me], hacks, not_lt.mp hq⟩
  | succ k hbk ih =>
    have hf := moment_formed me voters calls k
    have hcall : calls[k]? = some calls[k] := List.getElem?_eq_getElem (by omega)
    generalize calls[k] = call at hcall
    rw [moment_succ hcall] at hw ⊢
    obtain ⟨hnot, hclear, hw'⟩ := waits_after hf hw
    -- the read waited before the call too, since its identifier was given out before
    have hwk : (moment me voters calls k).Waits id i := by
      rcases hw' with hw' | ⟨-, hnew⟩
      · exact hw'
      · have hbk' : b ≤ k := by omega
        exact absurd (hnew ▸ hid) (not_lt.mpr (nextReadId_le_moment me voters calls hbk'))
    obtain ⟨hmem, hlen⟩ := ih (by omega) (fun j hbj hjk => hlast j hbj (by omega)) hwk
    have hround : call ≠ .beginHeartbeatRound := by
      rintro rfl
      exact hlast k (by omega) (by omega) hcall
    refine ⟨?_, ?_⟩
    · intro v
      rw [mem_roundAcks_after hf hround hclear, hmem v, (moment_fixed me voters calls k).2, or_assoc,
        ← and_or_left, exists_recorded_succ hbk hcall]
    · rw [quorum, (after_fixed hf _).1]
      cases hacks : (moment me voters calls k).acksWith call with
      | none =>
        rw [(after_quiet hacks).2.1 hclear]
        exact hlen
      | some acks =>
        rw [after_roundAcks hf hacks]
        by_contra hq
        exact hnot ⟨acks, hacks, not_lt.mp hq⟩

/-- The acknowledgments of a call that finds a quorum for a read requested before the last
round began are our own and those of voters of this round. -/
theorem mem_acksWith {call : Call} {acks : List NodeId} (hcall : calls[k]? = some call)
    (hacks : (moment me voters calls k).acksWith call = some acks) (hbk : b ≤ k)
    (hbegin : calls[b]? = some .beginHeartbeatRound)
    (hlast : ∀ j, b < j → j ≤ k → calls[j]? ≠ some .beginHeartbeatRound)
    (hw : (moment me voters calls k).Waits id i)
    (hid : id < (moment me voters calls b).nextReadId) (v : NodeId) :
    v ∈ acks ↔ v = me ∨ v ∈ voters ∧ .recordAck v ∈ between calls b k := by
  have hf := moment_formed me voters calls k
  have hk : k < calls.length := (List.getElem?_eq_some_iff.mp hcall).1
  rw [← after_roundAcks hf hacks, mem_between]
  rcases Nat.lt_or_eq_of_le hbk with hlt | rfl
  · have hround : call ≠ .beginHeartbeatRound := by
      rintro rfl
      exact hlast k hlt le_rfl hcall
    have hclear : call ≠ .clear := by
      rintro rfl
      cases hacks
    have hmem := (round_open hk.le hlt hbegin (fun j hbj hjk => hlast j hbj hjk.le) hw hid).1 v
    rw [mem_roundAcks_after hf hround hclear, hmem, (moment_fixed me voters calls k).2, or_assoc,
      ← and_or_left, ← exists_recorded_succ hlt hcall]
    simp only [Nat.lt_succ_iff]
  · obtain rfl : call = .beginHeartbeatRound := Option.some.inj (hcall.symm.trans hbegin)
    rw [after_roundAcks hf hacks]
    cases hacks
    rw [List.mem_singleton, (moment_fixed me voters calls b).1]
    refine ⟨Or.inl, ?_⟩
    rintro (hv | ⟨-, j, hbj, hjb, -⟩)
    · exact hv
    · omega

/-- The last round that began up to position `k`. -/
theorem exists_last_round (hbk : b ≤ k) (hbegin : calls[b]? = some .beginHeartbeatRound) :
    ∃ b', b ≤ b' ∧ b' ≤ k ∧ calls[b']? = some .beginHeartbeatRound ∧
      ∀ j, b' < j → j ≤ k → calls[j]? ≠ some .beginHeartbeatRound := by
  refine ⟨Nat.findGreatest (fun n => calls[n]? = some .beginHeartbeatRound) k,
    Nat.le_findGreatest hbk hbegin, Nat.findGreatest_le k, ?_, ?_⟩
  · exact Nat.findGreatest_spec (P := fun n => calls[n]? = some .beginHeartbeatRound) hbk hbegin
  · intro j hj hjk
    exact Nat.findGreatest_is_greatest hj hjk

/-- Distinct voters that were counted are at most as many as the set of the counted voters. -/
theorem length_le_counted {acks : List NodeId} (hnodup : acks.Nodup)
    (h : ∀ v ∈ acks, v ∈ voters ∧ (v = me ∨ .recordAck v ∈ between calls b e)) :
    acks.length ≤ (counted me voters calls b e).card := by
  rw [← List.toFinset_card_of_nodup hnodup]
  apply Finset.card_le_card
  intro v hv
  obtain ⟨hvoter, hcount⟩ := h v (List.mem_toFinset.mp hv)
  exact Finset.mem_filter.mpr ⟨List.mem_toFinset.mpr hvoter, hcount⟩

/-- In an orderly run every result is confirmed. -/
theorem confirmed_of_orderly (h : Orderly me voters calls) {call : Call}
    (hcall : calls[k]? = some call) {result : ReadIndexResult}
    (hres : result ∈ (moment me voters calls k).produced call) :
    Confirmed me voters calls k result := by
  have hf := moment_formed me voters calls k
  have hk : k < calls.length := (List.getElem?_eq_some_iff.mp hcall).1
  obtain ⟨⟨acks, hacks, hq⟩, hw⟩ := (mem_produced hf result).mp hres
  obtain ⟨⟨b₀, hb₀, hbegin₀, hid₀⟩, hmajority⟩ := h k call acks hcall hacks hq _ _ hw
  obtain ⟨b, hb, hbk, hbegin, hlast⟩ := exists_last_round hb₀ hbegin₀
  have hid : result.id < (moment me voters calls b).nextReadId :=
    lt_of_lt_of_le hid₀ (nextReadId_le_moment me voters calls hb)
  obtain ⟨r, -, hr, hnext⟩ := waits_requested hk.le hw
  have hrb : r < b := by
    by_contra hbr
    have hle := nextReadId_le_moment me voters calls (not_lt.mp hbr)
    exact absurd (hnext ▸ hle) (not_le.mpr hid)
  have hmem := mem_acksWith hcall hacks hbk hbegin hlast hw hid
  have hnodup := acksWith_nodup (roundAcks_nodup me voters calls k) hacks
  refine ⟨r, b, k, hrb, hbk, le_rfl, hr, congrArg Reply.id hnext, hbegin, ?_, ?_⟩
  · rw [mem_between]
    rintro ⟨j, hbj, hjk, hj⟩
    exact hlast j hbj hjk hj
  by_cases hme : me ∈ voters
  · have hcount : acks.length ≤ (counted me voters calls b k).card := by
      refine length_le_counted hnodup ?_
      intro v hv
      rcases (hmem v).mp hv with rfl | ⟨hvoter, hack⟩
      · exact ⟨hme, Or.inl rfl⟩
      · exact ⟨hvoter, Or.inr hack⟩
    have hdistinct : voters.toFinset.card ≤ voters.length := List.toFinset_card_le voters
    rw [quorum, (moment_fixed me voters calls k).2] at hq
    omega
  · have hcount : (acks.erase me).length ≤ (counted me voters calls b k).card := by
      refine length_le_counted (hnodup.erase me) ?_
      intro v hv
      obtain ⟨hne, hv'⟩ := hnodup.mem_erase_iff.mp hv
      obtain ⟨hvoter, hack⟩ := ((hmem v).mp hv').resolve_left hne
      exact ⟨hvoter, Or.inr hack⟩
    exact lt_of_lt_of_le (hmajority.resolve_left hme) (by omega)

/-- The voters counted in a round, when we are none of them, are among its acknowledgments
without our own. -/
theorem counted_le_length {acks : List NodeId} (hme : me ∉ voters)
    (h : ∀ v, v ∈ voters → .recordAck v ∈ between calls b e → v ∈ acks) :
    (counted me voters calls b e).card ≤ (acks.erase me).length := by
  refine le_trans (Finset.card_le_card ?_) (List.toFinset_card_le (acks.erase me))
  intro v hv
  obtain ⟨hvoter, hcount⟩ := Finset.mem_filter.mp hv
  rw [List.mem_toFinset] at hvoter ⊢
  have hne : v ≠ me := fun heq => hme (heq ▸ hvoter)
  exact (List.mem_erase_of_ne hne).mpr (h v hvoter (hcount.resolve_left hne))

/-- If the results are confirmed, the run is orderly. -/
theorem orderly_of_confirmed
    (h : ∀ k call, calls[k]? = some call →
      ∀ result ∈ (moment me voters calls k).produced call, Confirmed me voters calls k result) :
    Orderly me voters calls := by
  intro k call acks hcall hacks hq id i hw
  have hf := moment_formed me voters calls k
  have hk : k < calls.length := (List.getElem?_eq_some_iff.mp hcall).1
  obtain ⟨r, b, e, hrb, hbe, hek, hr, hreply, hbegin, hround, hmajority⟩ :=
    h k call hcall ⟨id, i⟩ ((mem_produced hf _).mpr ⟨⟨acks, hacks, hq⟩, hw⟩)
  -- the request was before round `b`, so its identifier was given out by then
  have hnext : (moment me voters calls r).nextReadId = id := Reply.id.inj hreply
  have hid : id < (moment me voters calls b).nextReadId := by
    have hle := nextReadId_le_moment me voters calls (show r + 1 ≤ b from hrb)
    rw [moment_succ hr] at hle
    exact lt_of_lt_of_le (hnext ▸ Nat.lt_succ_self _) hle
  refine ⟨⟨b, hbe.trans hek, hbegin, hid⟩, ?_⟩
  by_cases hme : me ∈ voters
  · exact Or.inl hme
  right
  have hlast (j : ℕ) (hbj : b < j) (hje : j ≤ e) : calls[j]? ≠ some .beginHeartbeatRound :=
    fun hj => hround (mem_between.mpr ⟨j, hbj, hje, hj⟩)
  by_cases hsame : ∃ b', e < b' ∧ b' ≤ k ∧ calls[b']? = some .beginHeartbeatRound
  · -- an older round: it found no quorum, so it counted fewer voters than the present one
    obtain ⟨b', heb', hb'k, -⟩ := hsame
    have hwe : (moment me voters calls (e + 1)).Waits id i :=
      waits_earlier (by omega) hk.le hw
        (lt_of_lt_of_le hid (nextReadId_le_moment me voters calls (by omega)))
    obtain ⟨hmem, hlen⟩ := round_open (by omega) (by omega) hbegin
      (fun j hbj hje => hlast j hbj (by omega)) hwe hid
    have hcount : (counted me voters calls b e).card ≤
        ((moment me voters calls (e + 1)).roundAcks.erase me).length := by
      apply counted_le_length hme
      intro v hvoter hack
      obtain ⟨j, hbj, hje, hj⟩ := mem_between.mp hack
      exact (hmem v).mpr (Or.inr ⟨hvoter, j, hbj, by omega, hj⟩)
    have hown : me ∈ (moment me voters calls (e + 1)).roundAcks := (hmem me).mpr (Or.inl rfl)
    rw [List.length_erase_of_mem hown] at hcount
    have herase : acks.length - 1 ≤ (acks.erase me).length := List.le_length_erase
    have hpos : 0 < (moment me voters calls (e + 1)).roundAcks.length :=
      List.length_pos_of_mem hown
    rw [quorum, (moment_fixed me voters calls _).2] at hlen hq
    omega
  · -- the present round
    have hlast' (j : ℕ) (hbj : b < j) (hjk : j ≤ k) : calls[j]? ≠ some .beginHeartbeatRound := by
      intro hj
      by_cases hje : j ≤ e
      · exact hlast j hbj hje hj
      · exact hsame ⟨j, not_le.mp hje, hjk, hj⟩
    have hmem := mem_acksWith hcall hacks (hbe.trans hek) hbegin hlast' hw hid
    have hcount : (counted me voters calls b e).card ≤ (acks.erase me).length := by
      apply counted_le_length hme
      intro v hvoter hack
      obtain ⟨j, hbj, hje, hj⟩ := mem_between.mp hack
      exact (hmem v).mpr (Or.inr ⟨hvoter, mem_between.mpr ⟨j, hbj, hje.trans hek, hj⟩⟩)
    omega

/-- Later results are of reads that wait now, or that are requested later. -/
theorem allProduced_id {c : ReadIndexCoordinator} (h : c.Formed) {result : ReadIndexResult}
    (hres : result ∈ c.allProduced calls) :
    c.Waits result.id result.readIndex ∨ c.nextReadId ≤ result.id := by
  induction calls generalizing c with
  | nil => exact absurd hres List.not_mem_nil
  | cons call calls ih =>
    rcases List.mem_append.mp hres with hnow | hlater
    · exact Or.inl ((mem_produced h result).mp hnow).2
    rcases ih (after_formed h call) hlater with hw | hle
    · rcases (waits_after h hw).2.2 with hw' | ⟨-, hnew⟩
      · exact Or.inl hw'
      · exact Or.inr hnew.ge
    · exact Or.inr ((after_fixed h call).2.2.trans hle)

/-- Each read completes at most once. -/
theorem allProduced_nodup {c : ReadIndexCoordinator} (h : c.Formed) (calls : List Call) :
    ((c.allProduced calls).map ReadIndexResult.id).Nodup := by
  induction calls generalizing c with
  | nil => exact List.nodup_nil
  | cons call calls ih =>
    rw [allProduced, List.map_append]
    by_cases hc : c.Completes call
    · obtain ⟨hmem, hnodup, hnone⟩ := after_completes h hc
      refine List.Nodup.append hnodup (ih (after_formed h call)) ?_
      intro id hnow hlater
      obtain ⟨r, hr, rfl⟩ := List.mem_map.mp hnow
      obtain ⟨r', hr', hid⟩ := List.mem_map.mp hlater
      -- after the call no read waits, and the ones to come have higher identifiers
      rcases allProduced_id (after_formed h call) hr' with hw | hle
      · exact hnone _ _ hw
      · obtain ⟨round, hget⟩ := (hmem r).mp hr
        have hlt := h.below _ _ hget
        have hup := (after_fixed h call).2.2
        exact absurd (hid ▸ hup.trans hle) (not_le.mpr hlt)
    · have hnil : c.produced call = [] := by
        rw [List.eq_nil_iff_forall_not_mem]
        intro r hr
        exact hc ((mem_produced h r).mp hr).1
      rw [hnil]
      exact ih (after_formed h call)

/-- The queue after a call that does not poll it. -/
theorem after_completed {c : ReadIndexCoordinator} (h : c.Formed) {call : Call}
    (hpoll : ∀ n, call ≠ .pollCompleted n) :
    (c.after call).completed = c.completed ++ c.produced call := by
  suffices hle : c.completed <+: (c.after call).completed by
    obtain ⟨rest, hrest⟩ := hle
    rw [produced, ← hrest, List.drop_left]
  cases hacks : c.acksWith call with
  | some acks =>
    obtain ⟨c₁, hafter, hf, -, -, -, -, hcomp, -⟩ := after_checks h hacks
    have hspec := checkQuorum_spec hf
    rw [hafter, ← hcomp]
    split_ifs at hspec with hq
    · exact ⟨_, hspec.1.completed.symm⟩
    · rw [hspec]
  | none =>
    cases call with
    | beginHeartbeatRound => cases hacks
    | recordAck sender => rw [after_ignored hacks]
    | requestRead j => exact List.prefix_rfl
    | pollCompleted n => exact absurd rfl (hpoll n)
    | clear => exact List.prefix_rfl

/-- What the caller has received and what is still queued is what was produced, in order. -/
theorem polled_append_completed {c : ReadIndexCoordinator} (h : c.Formed) (calls : List Call) :
    c.polled calls ++ (CommandRuns.exec apply c calls).completed =
      c.completed ++ c.allProduced calls := by
  induction calls generalizing c with
  | nil => exact (List.append_nil _).symm
  | cons call calls ih =>
    have hrest := ih (after_formed h call)
    by_cases hpoll : ∃ n, call = .pollCompleted n
    · obtain ⟨n, rfl⟩ := hpoll
      have hnil : c.produced (.pollCompleted n) = [] := (after_quiet rfl).1
      calc c.polled (.pollCompleted n :: calls) ++ _
          = c.completed.take n ++ ((c.after (.pollCompleted n)).polled calls ++
              (CommandRuns.exec apply (c.after (.pollCompleted n)) calls).completed) :=
            List.append_assoc _ _ _
        _ = c.completed.take n ++
              (c.completed.drop n ++ (c.after (.pollCompleted n)).allProduced calls) := by
            rw [hrest]
            rfl
        _ = c.completed ++ c.allProduced (.pollCompleted n :: calls) := by
            rw [← List.append_assoc, List.take_append_drop, allProduced, hnil, List.nil_append]
    · have hnone : c.polled (call :: calls) = (c.after call).polled calls := by
        cases call with
        | pollCompleted n => exact absurd ⟨n, rfl⟩ hpoll
        | requestRead _ | beginHeartbeatRound | recordAck _ | clear => rfl
      calc c.polled (call :: calls) ++ _
          = (c.after call).polled calls ++
              (CommandRuns.exec apply (c.after call) calls).completed := by
            rw [hnone]
            rfl
        _ = c.completed ++ c.allProduced (call :: calls) := by
            rw [hrest, after_completed h (fun n hn => hpoll ⟨n, hn⟩), allProduced,
              List.append_assoc]

/-- A result is produced only for a read that a round begun after its request confirms, and
for each read once, exactly when the calls keep the protocol. -/
theorem reads_confirmed_iff (me : NodeId) (voters : List NodeId) (calls : List Call) :
    (∀ k call, calls[k]? = some call →
        ∀ result ∈ (moment me voters calls k).produced call,
          Confirmed me voters calls k result) ∧
      (((new me voters).allProduced calls).map ReadIndexResult.id).Nodup ↔
    Orderly me voters calls := by
  constructor
  · intro h
    exact orderly_of_confirmed h.1
  · intro h
    refine ⟨?_, allProduced_nodup (new_formed me voters) calls⟩
    intro k call hcall result hres
    exact confirmed_of_orderly h hcall hres

/-- A round begins between the request of a read and every later acknowledgment. -/
def RoundsBetween (calls : List Call) : Prop :=
  ∀ (r k readIndex : ℕ) (sender : NodeId), r < k → calls[r]? = some (.requestRead readIndex) →
    calls[k]? = some (.recordAck sender) →
    ∃ b, r < b ∧ b < k ∧ calls[b]? = some .beginHeartbeatRound

/-- A voter whose caller does so keeps the protocol, whatever the acknowledgments are. -/
theorem RoundsBetween.orderly (hme : me ∈ voters) (h : RoundsBetween calls) :
    Orderly me voters calls := by
  intro k call acks hcall hacks _ id i hw
  refine ⟨?_, Or.inl hme⟩
  have hk : k < calls.length := (List.getElem?_eq_some_iff.mp hcall).1
  cases call with
  | beginHeartbeatRound =>
    obtain ⟨round, hget⟩ := hw
    exact ⟨k, le_rfl, hcall, (moment_formed me voters calls k).below id _ hget⟩
  | recordAck sender =>
    obtain ⟨r, hrk, hr, hnext⟩ := waits_requested hk.le hw
    obtain ⟨b, hrb, hbk, hbegin⟩ := h r k i sender hrk hr hcall
    have hgiven : (moment me voters calls (r + 1)).nextReadId = id + 1 := by
      rw [moment_succ hr, ← hnext]
      rfl
    have hle := nextReadId_le_moment me voters calls (Nat.succ_le_of_lt hrb)
    exact ⟨b, hbk.le, hbegin, (Nat.lt_succ_self id).trans_le (hgiven.ge.trans hle)⟩
  | requestRead _ | pollCompleted _ | clear => cases hacks

/-- What a caller has to do: begin a round after a request before it counts acknowledgments. -/
theorem confirmed_of_roundsBetween (hme : me ∈ voters) (h : RoundsBetween calls) {call : Call}
    (hcall : calls[k]? = some call) {result : ReadIndexResult}
    (hres : result ∈ (moment me voters calls k).produced call) :
    Confirmed me voters calls k result :=
  confirmed_of_orderly (h.orderly hme) hcall hres

/-- A read, then a round, then the acknowledgment of one of the other two voters. -/
theorem reads_confirmed_oneRound :
    Confirmed 0 [0, 1, 2] [.requestRead 42, .beginHeartbeatRound, .recordAck 1] 2 ⟨0, 42⟩ := by
  refine ((reads_confirmed_iff 0 [0, 1, 2]
    [.requestRead 42, .beginHeartbeatRound, .recordAck 1]).mpr ?_).1 2 _ rfl _ (by decide +kernel)
  intro k call acks hcall hacks hq id i hw
  have hk : k < 3 := (List.getElem?_eq_some_iff.mp hcall).1
  interval_cases k
  · cases hcall
    cases hacks
  · -- our own acknowledgment is no quorum
    cases hcall
    cases hacks
    exact absurd hq (by decide +kernel)
  · obtain ⟨round, hget⟩ := hw
    have hlt := (moment_formed _ _ _ 2).below id _ hget
    exact ⟨⟨1, by decide, rfl, hlt⟩, Or.inl (by decide)⟩

/-- A read requested while a round is under way completes with the acknowledgment of a
heartbeat that may have been sent before the request. -/
theorem late_read_unconfirmed :
    ⟨0, 42⟩ ∈ (moment 0 [0, 1, 2] [.beginHeartbeatRound, .requestRead 42, .recordAck 1] 2).produced
      (.recordAck 1) ∧
    ¬Confirmed 0 [0, 1, 2] [.beginHeartbeatRound, .requestRead 42, .recordAck 1] 2 ⟨0, 42⟩ := by
  refine ⟨by decide +kernel, ?_⟩
  rintro ⟨r, b, e, hrb, hbe, hek, -, -, hbegin, -⟩
  have hb : b = 1 ∨ b = 2 := by omega
  rcases hb with rfl | rfl <;> cases hbegin

end ReadIndexCoordinator
end BasisDB.ReadIndex
