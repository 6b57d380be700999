import BasisDB.LogHistorySteps

/-! Leader completeness: a prefix committed in a term is held by the leader of
every later term, as long as commit quorums meet election quorums. -/
namespace ReplicatedLog.History
variable {N E C : Type*} {σ : Scheme N E C} {h : History N E}

/-- Node `c` with log `L` has the votes of the quorum `A` in term `u`. The term
may have a leader already: that it has not is what election safety shows. -/
structure Election (σ : Scheme N E C) (h : History N E) (u : ℕ) (c : N) (L : List E) (A : Set N) :
    Prop where
  coherent : Coherent σ h.leaderLog L
  lt : ∀ e ∈ L, σ.term e < u
  votes : ∀ q ∈ A, h.vote q u = some c ∧ UpToDate σ L (h.voteLog q u)
  quorum : σ.quorum (config σ L) A

theorem Inv.election (hI : Inv σ h) {u : ℕ} {c : N} (hc : h.leader u = some c) :
    Election σ h u c (h.startLog u) (h.electors u) where
  coherent := (hI.leader_coherent u).of_isPrefix (hI.start_prefix u)
  lt := hI.start_lt u
  votes := hI.electors_vote u c hc
  quorum := hI.electors_quorum u (by simp [hc])

/-- A committed prefix ends in an entry of its own term. -/
theorem Inv.commit_take (hI : Inv σ h) {t i m : ℕ} (hc : (t, i, m) ∈ h.commits) :
    ∃ P e, (h.leaderLog t).take i = P ++ [e] ∧ P.length + 1 = i ∧ σ.term e = t := by
  obtain ⟨P, e, hP, hi, he⟩ := hI.commit_own t i m hc
  refine ⟨P, e, ?_, hi, he⟩
  have hlen : (P ++ [e]).length = i := by simpa using hi
  rw [← hlen]
  exact (List.prefix_iff_eq_take.mp hP).symm

/-- The heart of leader completeness: one voter that held the prefix when its
term lasted is enough, if the leaders in between hold it. -/
theorem Election.holds_of_voter (hI : Inv σ h) {t i m u : ℕ} {c q : N} {L : List E} {A : Set N}
    (hE : Election σ h u c L A) (hc : (t, i, m) ∈ h.commits) (htu : t < u)
    (hbetween : ∀ w, t < w → w < u → h.leader w ≠ none → (h.leaderLog t).take i <+: h.leaderLog w)
    (hq : q ∈ A) (hag : h.agreed q t i)
    (hfresh : (h.leader u = none ∨ q ∈ h.electors u) ∨ (h.leaderLog t).take i <+: h.leaderLog u) :
    (h.leaderLog t).take i <+: L := by
  obtain ⟨P, e, hPe, -, het⟩ := hI.commit_take hc
  obtain ⟨hvote, hup⟩ := hE.votes q hq
  -- the log the voter voted with still held the prefix
  have hV : (h.leaderLog t).take i <+: h.voteLog q u := by
    rcases hI.agreed_vote q t i u c hag htu hvote with hp | ⟨w, htw, hwu, hlt, hm⟩
    · exact hp
    · rcases hwu.lt_or_eq with hwu | rfl
      · exact absurd (hbetween w htw hwu hm.1) hm.2
      · rcases hfresh with hf | hf
        · exact absurd (hlt hf) (lt_irrefl _)
        · exact absurd hf hm.2
  rw [hPe] at hV ⊢
  rcases List.eq_nil_or_concat' (h.voteLog q u) with hnil | ⟨V, v, hVv⟩
  · rw [hnil] at hV
    exact absurd (List.prefix_nil.mp hV) (by simp)
  have hcV : Coherent σ h.leaderLog (V ++ [v]) := hVv ▸ hI.vote_coherent q u
  have htv : t ≤ σ.term v := by
    rw [← het]
    refine (hcV.ordered hI.ordered).le_last ?_
    rw [hVv] at hV
    exact hV.subset (by simp)
  rw [hVv] at hV hup
  rcases List.eq_nil_or_concat' L with rfl | ⟨M, x, rfl⟩
  · -- an empty log is not up to date with a nonempty one
    rcases hup with hup | ⟨-, hup⟩
    · simp at hup
    · simp at hup
  rcases hup with hup | ⟨hup, hlen⟩
  · -- a newer last term: its leader holds the prefix, and the last entry lies beyond it
    rw [lastTerm_concat, lastTerm_concat] at hup
    have hxu : σ.term x < u := hE.lt x (by simp)
    have hled := hI.led_of_prefix hE.coherent (List.prefix_refl (M ++ [x]))
    have hX := hbetween (σ.term x) (htv.trans_lt hup) hxu hled
    rw [hPe] at hX
    by_contra hnot
    have hlt : (M ++ [x]).length ≤ (P ++ [e]).length := by
      by_contra hge
      exact hnot (prefix_of_longer hX hE.coherent.self (not_le.mp hge).le)
    have hxP : x ∈ (h.leaderLog t).take i := by
      rw [hPe]
      exact (prefix_of_longer hE.coherent.self hX hlt).subset (by simp)
    have hle := hI.terms_le t x (List.mem_of_mem_take hxP)
    omega
  · -- the same last term: both logs are prefixes of that leader's log
    rw [lastTerm_concat, lastTerm_concat] at hup
    have h1 := hcV.self
    rw [hup] at h1
    exact hV.trans (prefix_of_longer h1 hE.coherent.self hlen)

/-- The previous lemma with the voter found by a quorum intersection. -/
theorem Election.holds_of_meet (hI : Inv σ h) {t i m u : ℕ} {c : N} {L : List E} {A : Set N}
    (hE : Election σ h u c L A) (hc : (t, i, m) ∈ h.commits) (htu : t < u)
    (hbetween : ∀ w, t < w → w < u → h.leader w ≠ none → (h.leaderLog t).take i <+: h.leaderLog w)
    (hfresh : ∀ q ∈ A, (h.leader u = none ∨ q ∈ h.electors u) ∨
      (h.leaderLog t).take i <+: h.leaderLog u)
    (hmeet : ∀ B, σ.quorum (config σ ((h.leaderLog t).take m)) B → (B ∩ A).Nonempty) :
    (h.leaderLog t).take i <+: L := by
  obtain ⟨B, hB, hag⟩ := hI.commit_quorum t i m hc
  obtain ⟨q, hqB, hqA⟩ := hmeet B hB
  exact hE.holds_of_voter hI hc htu hbetween hqA (hag q hqB) (hfresh q hqA)

/-- Every leader of a later term holds what was committed. -/
def Complete (h : History N E) : Prop :=
  ∀ t i m, (t, i, m) ∈ h.commits → ∀ u, t < u → h.leader u ≠ none →
    (h.leaderLog t).take i <+: h.leaderLog u

/-- Two committed prefixes never conflict. -/
theorem Complete.commits_agree (hC : Complete h) (hI : Inv σ h) {t i m u j k : ℕ}
    (h₁ : (t, i, m) ∈ h.commits) (h₂ : (u, j, k) ∈ h.commits) (x : ℕ) (hi : x ≤ i) (hj : x ≤ j) :
    (h.leaderLog t).take x = (h.leaderLog u).take x := by
  have key (t i m u j k : ℕ) (h₁ : (t, i, m) ∈ h.commits) (h₂ : (u, j, k) ∈ h.commits)
      (hi : x ≤ i) (htu : t < u) : (h.leaderLog t).take x = (h.leaderLog u).take x := by
    have hp := hC t i m h₁ u htu (hI.commit_led u j k h₂)
    have hlen : x ≤ ((h.leaderLog t).take i).length := by
      obtain ⟨hle, hle'⟩ := hI.commit_le t i m h₁
      rw [List.length_take]
      omega
    rw [take_isPrefix_of_isPrefix hp hlen, List.take_take, min_eq_left hi]
  rcases lt_trichotomy t u with htu | rfl | htu
  · exact key t i m u j k h₁ h₂ hi htu
  · rfl
  · exact (key u j k t i m h₂ h₁ hj htu).symm

end ReplicatedLog.History
