import BasisDB.RaftRepairRounds

/-! What append requests do to the follower's log: entries above a part of the log leave that
part alone, and an accepted request puts the part of the leader's log it covers in place. -/
namespace BasisDB.Raft
open ReplicatedLog

section Frame

/-- The log begins with `F`, and everything behind it has a higher index. -/
structure Keeps (F : List Entry) (log : Log) : Prop where
  snapshotIndex : log.snapshotIndex = 0
  numbered : Numbered 0 F
  begins : F <+: log.entries
  above : ∀ e ∈ log.entries.drop F.length, F.length < e.index

variable {F : List Entry} {log : Log}

theorem Keeps.self (h : log.Plain) : Keeps log.entries log :=
  ⟨h.snapshotIndex, h.numbered, List.prefix_rfl, by simp⟩

theorem Keeps.le_lastIndex (h : Keeps F log) : F.length ≤ log.lastIndex := by
  obtain ⟨R, hR⟩ := h.begins
  unfold Log.lastIndex
  rcases List.eq_nil_or_concat' R with rfl | ⟨R', e, rfl⟩
  · rw [List.append_nil] at hR
    rcases List.eq_nil_or_concat' F with hF | ⟨P, e, hF⟩
    · simp [hF]
    · have hlast := (hF ▸ h.numbered).last.1
      rw [← hR, hF]
      simp [hlast]
  · have habove := h.above e (by rw [← hR]; simp)
    rw [← hR, ← List.append_assoc]
    simp only [List.getLast?_concat]
    exact habove.le

theorem Keeps.append (h : Keeps F log) {e : Entry} (he : F.length < e.index) :
    Keeps F (log.append e) := by
  refine ⟨h.snapshotIndex, h.numbered, h.begins.trans (List.prefix_append _ _), ?_⟩
  intro x hx
  have hle := h.begins.length_le
  rw [Log.append, List.drop_append_of_le_length hle, List.mem_append, List.mem_singleton] at hx
  rcases hx with hx | rfl
  · exact h.above x hx
  · exact he

theorem Keeps.truncateAfter (h : Keeps F log) {i : ℕ} (hi : F.length ≤ i) :
    Keeps F (log.truncateAfter i) := by
  have hcut : (log.truncateAfter i) = { log with entries := log.entries.take i } := by
    cases i with
    | zero => simp [Log.truncateAfter]
    | succ i => simp [Log.truncateAfter, Log.toVecIndex, h.snapshotIndex]
  rw [hcut]
  refine ⟨h.snapshotIndex, h.numbered, ?_, ?_⟩
  · exact List.prefix_take_iff.mpr ⟨h.begins, hi⟩
  · intro x hx
    refine h.above x ?_
    rw [List.drop_take] at hx
    exact List.mem_of_mem_take hx

/-- Entries above `F` leave `F` alone, whatever they are. -/
theorem Keeps.appendEntries (acc : Log × Bool) (h : Keeps F acc.1) (es : List Entry)
    (hes : ∀ e ∈ es, F.length < e.index) : Keeps F (es.foldl Follower.appendEntry acc).1 := by
  induction es generalizing acc with
  | nil => exact h
  | cons e es ih =>
    refine ih _ ?_ (fun x hx => hes x (List.mem_cons_of_mem _ hx))
    have he : F.length < e.index := hes e List.mem_cons_self
    unfold Follower.appendEntry
    dsimp only
    -- the conflict rule cuts at the entry's own index, which is above `F`
    have hcut : Keeps F (if acc.1.termAt e.index ≠ 0 ∧ acc.1.termAt e.index ≠ e.term
        then acc.1.truncateAfter (e.index - 1) else acc.1) := by
      split_ifs
      · exact h.truncateAfter (by omega)
      · exact h
    split_ifs at hcut ⊢
    · exact hcut.append he
    · exact hcut
    · exact hcut.append he
    · exact hcut

end Frame

theorem Numbered.index_gt {k : ℕ} {es : List Entry} (h : Numbered k es) : ∀ e ∈ es, k < e.index := by
  intro e he
  obtain ⟨i, hi⟩ := List.getElem?_of_mem he
  have := h.index_of_getElem? hi
  omega

theorem Issued.segments {L : List Entry} {pipelining : Bool} {n n' : ℕ} {reqs : List AppendRequest}
    (h : Issued L pipelining n reqs n') : ∀ req ∈ reqs, ∃ k, n ≤ k ∧ Segment L k req := by
  induction h with
  | nil => exact fun req hreq => absurd hreq List.not_mem_nil
  | @cons next _ first _ hfirst _ ih =>
    intro req hreq
    rcases List.mem_cons.mp hreq with rfl | hreq
    · exact ⟨next, le_rfl, hfirst⟩
    · obtain ⟨k, hk, hseg⟩ := ih req hreq
      refine ⟨k, le_trans ?_ hk, hseg⟩
      split_ifs <;> omega

namespace Follower
variable {L : List Entry} {log : Log} {req : AppendRequest} {next : ℕ}

theorem logAfter_keeps {F : List Entry} (h : Keeps F log) (hreq : Segment L next req)
    (hnext : F.length < next) : Keeps F (logAfter log req) := by
  unfold logAfter
  split_ifs
  · refine Keeps.appendEntries (log, false) h req.entries ?_
    intro e he
    have := hreq.numbered.index_gt e he
    omega
  · exact h

/-- Equal terms at one position mean equal logs up to it. -/
theorem Matching.take_isPrefix {M : List Entry} (hm : Matching L M) (hL : Numbered 0 L) {i : ℕ}
    (hi : i ≤ L.length) (hterm : termOf M i = termOf L i) : L.take i <+: M := by
  cases i with
  | zero => simp
  | succ i =>
    have hlt : i < L.length := hi
    have hentry : L.take i ++ [L[i]] <+: L := take_succ_isPrefix L i hlt
    have hpos : 0 < L[i].term := hL.pos _ (List.getElem_mem hlt)
    rw [termOf, termOf, if_neg (Nat.succ_ne_zero i), if_neg (Nat.succ_ne_zero i),
      Nat.add_sub_cancel, List.getElem?_eq_getElem hlt] at hterm
    cases hget : M[i]? with
    | none =>
      rw [hget] at hterm
      exact absurd hterm hpos.ne
    | some y =>
      rw [hget] at hterm
      obtain ⟨hy, hylen⟩ := prefix_of_getElem? hget
      have hlen : (L.take i).length = (M.take i).length := by
        rw [hylen, List.length_take]
        omega
      have heq := hm _ _ _ y hentry hy hlen hterm.symm
      rw [← List.take_concat_get' L i hlt, heq]
      exact hy

/-- The consistency check finds out whether the log agrees with the leader's. -/
theorem accepts_iff (hplain : log.Plain) (hL : Numbered 0 L) (hm : Matching L log.entries)
    (hreq : Segment L next req) (hnext : next - 1 ≤ L.length) :
    accepts log req = true ↔ L.take (next - 1) <+: log.entries := by
  unfold accepts
  rw [hreq.prevLogIndex, hreq.prevLogTerm hnext, hplain.termAt_eq]
  obtain hzero | hpos := Nat.eq_zero_or_pos (next - 1)
  · simp [hzero]
  simp only [hpos, decide_true, Bool.true_and, Bool.not_eq_true', decide_eq_false_iff_not, not_not]
  constructor
  · exact hm.take_isPrefix hL hnext
  · rintro ⟨ext, hext⟩
    have hlen : next - 1 ≤ (L.take (next - 1)).length := by
      rw [List.length_take]
      omega
    calc termOf log.entries (next - 1)
        = termOf (L.take (next - 1)) (next - 1) := by rw [← hext, termOf_of_le hlen]
      _ = termOf (L.take (next - 1) ++ L.drop (next - 1)) (next - 1) := (termOf_of_le hlen).symm
      _ = termOf L (next - 1) := by rw [List.take_append_drop]

end Follower

/-- A request is a part of `L`, followed by entries above it. -/
theorem Segment.split {L : List Entry} {req : AppendRequest} {next : ℕ} (h : Segment L next req)
    (hnext : next - 1 ≤ L.length) : ∃ own later, req.entries = own ++ later ∧
      L.take (next - 1) ++ own = L.take (next - 1 + req.entries.length) ∧
      (∀ e ∈ later, L.length < e.index) ∧
      (next - 1 + req.entries.length ≤ L.length → later = []) := by
  obtain ⟨ext, c, hentries⟩ := h.entries
  rw [List.drop_append_of_le_length hnext, List.take_append] at hentries
  refine ⟨(L.drop (next - 1)).take (c + 1), ext.take (c + 1 - (L.drop (next - 1)).length),
    hentries, ?_⟩
  generalize hown : (L.drop (next - 1)).take (c + 1) = own at hentries ⊢
  generalize hlater : ext.take (c + 1 - (L.drop (next - 1)).length) = later at hentries ⊢
  have hownLen : own.length = min (c + 1) (L.length - (next - 1)) := by
    rw [← hown, List.length_take, List.length_drop]
  have hprefixLen : (L.take (next - 1)).length = next - 1 := by
    rw [List.length_take]
    omega
  have hlen : req.entries.length = own.length + later.length := by
    rw [hentries, List.length_append]
  have hjoin : L.take (next - 1) ++ own = L.take (next - 1 + own.length) := by
    rw [List.take_add, ← hown, List.length_take, List.length_drop]
    congr 1
    rw [List.take_eq_take_iff, List.length_drop]
    omega
  rcases Nat.eq_zero_or_pos later.length with hnone | hsome
  · -- the request ends within `L`
    have hnil : later = [] := List.length_eq_zero_iff.mp hnone
    refine ⟨?_, ?_, fun _ => hnil⟩
    · rw [hjoin, hlen, hnone, Nat.add_zero]
    · rw [hnil]
      exact fun e he => absurd he List.not_mem_nil
  · -- the request goes on, so it holds everything that is left of `L`
    have hall : next - 1 + own.length = L.length := by
      have hlt : later.length ≤ c + 1 - (L.length - (next - 1)) := by
        rw [← hlater, ← List.length_drop]
        exact List.length_take_le _ _
      omega
    refine ⟨?_, ?_, fun hle => by omega⟩
    · rw [hjoin, hall, List.take_length, List.take_of_length_le (by omega)]
    · have hnum := h.numbered
      rw [hentries, numbered_append] at hnum
      rw [hall] at hnum
      exact hnum.2.index_gt

theorem matching_take {L : List Entry} (n : ℕ) : Follower.Matching L (L.take n) := by
  intro P x Q y hP hQ hlen hterm
  have hQ' : Q ++ [y] <+: L := hQ.trans (List.take_prefix _ _)
  refine (List.prefix_of_prefix_length_le hP hQ' (by simp [hlen])).eq_of_length (by simp [hlen])

theorem Follower.Matching.of_isPrefix {L M L' M' : List Entry} (h : Follower.Matching L M)
    (hL : L' <+: L) (hM : M' <+: M) : Follower.Matching L' M' :=
  fun P x Q y hP hQ => h P x Q y (hP.trans hL) (hQ.trans hM)

namespace Follower
variable {L : List Entry} {log : Log} {req : AppendRequest} {next : ℕ}

/-- An accepted request: the part of `L` it covers is in the log, and a log that did not have
it ends there. -/
theorem logAfter_segment (hplain : log.Plain) (hL : Numbered 0 L) (hm : Matching L log.entries)
    (hreq : Segment L next req) (hnext : next - 1 ≤ L.length)
    (hagree : L.take (next - 1) <+: log.entries) :
    (L.length ≤ next - 1 + req.entries.length → L <+: (logAfter log req).entries) ∧
    (next - 1 + req.entries.length ≤ L.length → (logAfter log req).Plain ∧
      (((logAfter log req).entries = log.entries ∧
        L.take (next - 1 + req.entries.length) <+: log.entries) ∨
      ((logAfter log req).entries = L.take (next - 1 + req.entries.length) ∧
        ¬L.take (next - 1 + req.entries.length) <+: log.entries))) := by
  have hacc : accepts log req = true := (accepts_iff hplain hL hm hreq hnext).mpr hagree
  obtain ⟨own, later, hentries, hjoin, habove, hnone⟩ := hreq.split hnext
  have hprefixLen : (L.take (next - 1)).length = next - 1 := by
    rw [List.length_take]
    omega
  have hnum : Numbered (L.take (next - 1)).length own := by
    have := hreq.numbered
    rw [hentries, numbered_append] at this
    rw [hprefixLen]
    exact this.1
  have hmatch : Matching (L.take (next - 1) ++ own) log.entries := by
    rw [hjoin]
    exact hm.of_isPrefix (List.take_prefix _ _) List.prefix_rfl
  have hfirst := appendEntries_eq hplain hagree hnum hmatch false
  rw [hjoin] at hfirst
  have hsnap := appendEntries_snapshot (log, false) own
  have hafter : logAfter log req =
      (later.foldl appendEntry (own.foldl appendEntry (log, false))).1 := by
    rw [logAfter, hacc, if_pos rfl, appendEntries, hentries, List.foldl_append]
  have hplain' : (own.foldl appendEntry (log, false)).1.Plain := by
    refine ⟨hsnap.1.trans hplain.snapshotIndex, hsnap.2.1.trans hplain.snapshotTerm,
      hsnap.2.2.trans hplain.snapshotConfig, ?_⟩
    rcases hfirst with ⟨heq, -⟩ | ⟨heq, -⟩
    · rw [heq]
      exact hplain.numbered
    · rw [heq]
      exact hL.of_isPrefix (List.take_prefix _ _)
  constructor
  · intro hle
    rw [List.take_of_length_le hle] at hfirst
    have hbegins : L <+: (own.foldl appendEntry (log, false)).1.entries := by
      rcases hfirst with ⟨heq, hp⟩ | ⟨heq, -⟩
      · rw [heq]
        exact hp
      · rw [heq]
    have hkeeps : Keeps L (own.foldl appendEntry (log, false)).1 := by
      refine ⟨hplain'.snapshotIndex, hL, hbegins, ?_⟩
      exact (numbered_drop hplain'.numbered hbegins.length_le).index_gt
    rw [hafter]
    exact (Keeps.appendEntries _ hkeeps later habove).begins
  · intro hle
    rw [hafter, hnone hle]
    exact ⟨hplain', hfirst⟩

end Follower
end BasisDB.Raft
