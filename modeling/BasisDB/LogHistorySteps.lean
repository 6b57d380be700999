import BasisDB.LogHistory

/-! Every step keeps the invariant, and the past of a history is never rewritten. -/
namespace ReplicatedLog.History
variable {N E C : Type*} [DecidableEq N] {σ : Scheme N E C} {h : History N E}

theorem Inv.raiseTerm (hI : Inv σ h) (n : N) (t : ℕ) (ht : h.term n ≤ t) :
    Inv σ (h.raiseTerm n t) := by
  have hle (m : N) : h.term m ≤ (h.raiseTerm n t).term m := by
    by_cases hm : m = n
    · subst hm
      simpa [History.raiseTerm] using ht
    · simp [History.raiseTerm, hm]
  exact { hI with
    log_le := by
      intro m e he
      exact (hI.log_le m e he).trans (hle m)
    leader_le := by
      intro u c hc
      exact (hI.leader_le u c hc).trans (hle c)
    leader_log := by
      intro u c hc hu
      -- a leader whose new term is the term it led had that term before
      refine hI.leader_log u c hc (le_antisymm ?_ (hI.leader_le u c hc))
      exact hu ▸ hle c
    vote_le := by
      intro m u c hv
      exact (hI.vote_le m u c hv).trans (hle m)
    agreed_le := by
      intro m u i ha
      exact ⟨(hI.agreed_le m u i ha).1.trans (hle m), (hI.agreed_le m u i ha).2⟩
    agreed_log := by
      intro m u i ha
      rcases hI.agreed_log m u i ha with hp | ⟨w, huw, hw, hm⟩
      · exact Or.inl hp
      · exact Or.inr ⟨w, huw, hw.trans (hle m), hm⟩ }

theorem castVote_vote_ne (n c m : N) (u : ℕ) (hne : ¬(m = n ∧ u = h.term n)) :
    (h.castVote n c).vote m u = h.vote m u ∧ (h.castVote n c).voteLog m u = h.voteLog m u := by
  by_cases hm : m = n
  · subst hm
    have hu : u ≠ h.term m := fun hu => hne ⟨rfl, hu⟩
    simp [History.castVote, hu]
  · simp [History.castVote, hm]

theorem castVote_vote_self (n c : N) :
    (h.castVote n c).vote n (h.term n) = some c ∧
      (h.castVote n c).voteLog n (h.term n) = h.log n := by
  simp [History.castVote]

theorem Inv.castVote (hI : Inv σ h) (n c : N) (hv : h.vote n (h.term n) = none) :
    Inv σ (h.castVote n c) := by
  -- a node that has not voted in its term is no elector of that term
  have hnot (d : N) (hd : h.leader (h.term n) = some d) : n ∉ h.electors (h.term n) := by
    intro hn
    rw [(hI.electors_vote _ d hd n hn).1] at hv
    exact absurd hv (by simp)
  exact { hI with
    vote_coherent := by
      intro m u
      by_cases hmu : m = n ∧ u = h.term n
      · obtain ⟨rfl, rfl⟩ := hmu
        rw [(castVote_vote_self m c).2]
        exact hI.coherent m
      · rw [(castVote_vote_ne n c m u hmu).2]
        exact hI.vote_coherent m u
    vote_le := by
      intro m u d hd
      by_cases hmu : m = n ∧ u = h.term n
      · exact hmu.1 ▸ hmu.2.le
      · rw [(castVote_vote_ne n c m u hmu).1] at hd
        exact hI.vote_le m u d hd
    electors_vote := by
      intro u d hd q hq
      have hne : ¬(q = n ∧ u = h.term n) := by
        rintro ⟨rfl, rfl⟩
        exact hnot d hd hq
      rw [(castVote_vote_ne n c q u hne).1, (castVote_vote_ne n c q u hne).2]
      exact hI.electors_vote u d hd q hq
    agreed_vote := by
      intro m u i w d ha huw hd
      by_cases hmw : m = n ∧ w = h.term n
      · obtain ⟨rfl, rfl⟩ := hmw
        rw [(castVote_vote_self m c).2]
        rcases hI.agreed_log m u i ha with hp | ⟨x, hux, hx, hm⟩
        · exact Or.inl hp
        · refine Or.inr ⟨x, hux, hx, fun hl => lt_of_le_of_ne hx ?_, hm⟩
          rintro rfl
          rcases hl with hl | hl
          · exact hm.1 hl
          · obtain ⟨d', hd'⟩ := Option.ne_none_iff_exists'.mp hm.1
            exact hnot d' hd' hl
      · rw [(castVote_vote_ne n c m w hmw).1] at hd
        rw [(castVote_vote_ne n c m w hmw).2]
        exact hI.agreed_vote m u i w d ha huw hd }

section Elect
omit [DecidableEq N]
variable (c : N) (A : Set N)

/-- An election says nothing about other terms. -/
theorem elect_ne (t : ℕ) (ht : t ≠ h.term c) : (h.elect c A).leader t = h.leader t ∧
    (h.elect c A).electors t = h.electors t ∧ (h.elect c A).startLog t = h.startLog t ∧
    (h.elect c A).leaderLog t = h.leaderLog t := by
  simp [History.elect, ht]

theorem elect_self : (h.elect c A).leader (h.term c) = some c ∧
    (h.elect c A).electors (h.term c) = A ∧ (h.elect c A).startLog (h.term c) = h.log c ∧
    (h.elect c A).leaderLog (h.term c) = h.log c := by
  simp [History.elect]

theorem elect_leaderLog_isPrefix (hI : Inv σ h) (hl : h.leader (h.term c) = none) (t : ℕ) :
    h.leaderLog t <+: (h.elect c A).leaderLog t := by
  by_cases ht : t = h.term c
  · subst ht
    rw [hI.unled _ hl]
    exact List.nil_prefix
  · simp [History.elect, ht]

/-- The leaders that miss a prefix led before the election. -/
theorem Misses.elect (hl : h.leader (h.term c) = none) {t i u : ℕ} (ht : t ≠ h.term c)
    (hm : h.Misses t i u) : (h.elect c A).Misses t i u := by
  have hu : u ≠ h.term c := fun he => hm.1 (he ▸ hl)
  refine ⟨by rw [(elect_ne c A u hu).1]; exact hm.1, ?_⟩
  rw [(elect_ne c A u hu).2.2.2, (elect_ne c A t ht).2.2.2]
  exact hm.2

end Elect

omit [DecidableEq N] in
theorem Inv.elect (hI : Inv σ h) (c : N) (A : Set N) (hl : h.leader (h.term c) = none)
    (hv : ∀ q ∈ A, h.vote q (h.term c) = some c ∧
      UpToDate σ (h.log c) (h.voteLog q (h.term c)))
    (hq : σ.quorum (config σ (h.log c)) A) : Inv σ (h.elect c A) := by
  have hmono := elect_leaderLog_isPrefix c A hI hl
  have hsame := elect_ne (h := h) c A
  have hself := elect_self (h := h) c A
  have hled (t : ℕ) (ht : h.leader t ≠ none) : t ≠ h.term c := fun he => ht (he ▸ hl)
  exact { hI with
    coherent := fun n => (hI.coherent n).mono hmono
    leader_coherent := by
      intro t
      by_cases ht : t = h.term c
      · rw [ht, hself.2.2.2]
        exact (hI.coherent c).mono hmono
      · rw [(hsame t ht).2.2.2]
        exact (hI.leader_coherent t).mono hmono
    vote_coherent := fun n t => (hI.vote_coherent n t).mono hmono
    ordered := by
      intro t
      by_cases ht : t = h.term c
      · rw [ht, hself.2.2.2]
        exact (hI.coherent c).ordered hI.ordered
      · rw [(hsame t ht).2.2.2]
        exact hI.ordered t
    unled := by
      intro t hn
      by_cases ht : t = h.term c
      · rw [ht, hself.1] at hn
        exact absurd hn (by simp)
      · rw [(hsame t ht).1] at hn
        rw [(hsame t ht).2.2.2]
        exact hI.unled t hn
    reign := by
      intro t
      by_cases ht : t = h.term c
      · rw [ht, hself.2.2.2, hself.2.2.1]
        exact ⟨[], by simp, by simp⟩
      · rw [(hsame t ht).2.2.2, (hsame t ht).2.2.1]
        exact hI.reign t
    start_lt := by
      intro t e he
      by_cases ht : t = h.term c
      · rw [ht, hself.2.2.1] at he
        rw [ht]
        -- an entry of the candidate's own term would need a leader of that term
        refine lt_of_le_of_ne (hI.log_le c e he) ?_
        intro het
        obtain ⟨i, hi, rfl⟩ := List.mem_iff_getElem.mp he
        exact hI.led_of_prefix (hI.coherent c) (take_succ_isPrefix _ i hi) (het ▸ hl)
      · rw [(hsame t ht).2.2.1] at he
        exact hI.start_lt t e he
    leader_le := by
      intro t d hd
      by_cases ht : t = h.term c
      · rw [ht, hself.1] at hd
        cases hd
        exact ht.le
      · rw [(hsame t ht).1] at hd
        exact hI.leader_le t d hd
    leader_log := by
      intro t d hd htd
      by_cases ht : t = h.term c
      · rw [ht, hself.1] at hd
        cases hd
        rw [ht, hself.2.2.2]
        rfl
      · rw [(hsame t ht).1] at hd
        rw [(hsame t ht).2.2.2]
        exact hI.leader_log t d hd htd
    electors_vote := by
      intro t d hd q hqt
      by_cases ht : t = h.term c
      · rw [ht, hself.1] at hd
        cases hd
        rw [ht, hself.2.1] at hqt
        rw [ht, hself.2.2.1]
        exact hv q hqt
      · rw [(hsame t ht).1] at hd
        rw [(hsame t ht).2.1] at hqt
        rw [(hsame t ht).2.2.1]
        exact hI.electors_vote t d hd q hqt
    electors_quorum := by
      intro t ht'
      by_cases ht : t = h.term c
      · rw [ht, hself.2.2.1, hself.2.1]
        exact hq
      · rw [(hsame t ht).1] at ht'
        rw [(hsame t ht).2.2.1, (hsame t ht).2.1]
        exact hI.electors_quorum t ht'
    agreed_led := by
      intro n t i ha
      have ht := hled t (hI.agreed_led n t i ha)
      rw [(hsame t ht).1]
      exact hI.agreed_led n t i ha
    agreed_le := by
      intro n t i ha
      have ht := hled t (hI.agreed_led n t i ha)
      rw [(hsame t ht).2.2.2]
      exact hI.agreed_le n t i ha
    agreed_log := by
      intro n t i ha
      have ht := hled t (hI.agreed_led n t i ha)
      rw [(hsame t ht).2.2.2]
      rcases hI.agreed_log n t i ha with hp | ⟨u, htu, hu, hm⟩
      · exact Or.inl hp
      · exact Or.inr ⟨u, htu, hu, hm.elect c A hl ht⟩
    agreed_vote := by
      intro n t i u d ha htu hd
      have ht := hled t (hI.agreed_led n t i ha)
      rw [(hsame t ht).2.2.2]
      rcases hI.agreed_vote n t i u d ha htu hd with hp | ⟨w, htw, hw, hlu, hm⟩
      · exact Or.inl hp
      · refine Or.inr ⟨w, htw, hw, fun hl' => hlu ?_, hm.elect c A hl ht⟩
        by_cases hu : u = h.term c
        · exact Or.inl (hu ▸ hl)
        · rwa [(hsame u hu).1, (hsame u hu).2.1] at hl'
    commit_led := by
      intro t i m hc
      have ht := hled t (hI.commit_led t i m hc)
      rw [(hsame t ht).1]
      exact hI.commit_led t i m hc
    commit_le := by
      intro t i m hc
      have ht := hled t (hI.commit_led t i m hc)
      rw [(hsame t ht).2.2.2]
      exact hI.commit_le t i m hc
    commit_own := by
      intro t i m hc
      have ht := hled t (hI.commit_led t i m hc)
      rw [(hsame t ht).2.2.2]
      exact hI.commit_own t i m hc
    commit_quorum := by
      intro t i m hc
      have ht := hled t (hI.commit_led t i m hc)
      rw [(hsame t ht).2.2.2]
      exact hI.commit_quorum t i m hc }

section Append
variable (c : N) (e : E)

theorem append_leaderLog_ne (t : ℕ) (ht : t ≠ h.term c) :
    (h.append c e).leaderLog t = h.leaderLog t := by
  simp [History.append, ht]

theorem append_leaderLog_self (hlog : h.log c = h.leaderLog (h.term c)) :
    (h.append c e).leaderLog (h.term c) = h.leaderLog (h.term c) ++ [e] := by
  simp [History.append, hlog]

theorem append_leaderLog_isPrefix (hlog : h.log c = h.leaderLog (h.term c)) (t : ℕ) :
    h.leaderLog t <+: (h.append c e).leaderLog t := by
  by_cases ht : t = h.term c
  · rw [ht, append_leaderLog_self c e hlog]
    exact List.prefix_append _ _
  · rw [append_leaderLog_ne c e t ht]

theorem append_leaderLog_take (hlog : h.log c = h.leaderLog (h.term c)) {t i : ℕ}
    (hi : i ≤ (h.leaderLog t).length) :
    ((h.append c e).leaderLog t).take i = (h.leaderLog t).take i :=
  take_isPrefix_of_isPrefix (append_leaderLog_isPrefix c e hlog t) hi

/-- A prefix of an older leader's log does not grow into the new entry. -/
theorem Misses.append (hI : Inv σ h) (hlog : h.log c = h.leaderLog (h.term c))
    (he : σ.term e = h.term c) {t i u : ℕ} (hi : i ≤ (h.leaderLog t).length) (htu : t < u)
    (hm : h.Misses t i u) : (h.append c e).Misses t i u := by
  refine ⟨hm.1, ?_⟩
  rw [append_leaderLog_take c e hlog hi]
  by_cases hu : u = h.term c
  · subst hu
    rw [append_leaderLog_self c e hlog]
    intro hp
    rcases List.prefix_concat_iff.mp hp with heq | hp
    · have hmem : e ∈ (h.leaderLog t).take i := by simp [heq]
      have hle := hI.terms_le t e (List.mem_of_mem_take hmem)
      omega
    · exact hm.2 hp
  · rw [append_leaderLog_ne c e u hu]
    exact hm.2

end Append

theorem Inv.append (hI : Inv σ h) (c : N) (e : E) (hl : h.leader (h.term c) = some c)
    (he : σ.term e = h.term c) : Inv σ (h.append c e) := by
  have hlog : h.log c = h.leaderLog (h.term c) := hI.leader_log _ c hl rfl
  have hself := append_leaderLog_self c e hlog
  have hne := append_leaderLog_ne (h := h) c e
  have hmono := append_leaderLog_isPrefix c e hlog
  have hnew : Coherent σ (h.append c e).leaderLog (h.leaderLog (h.term c) ++ [e]) := by
    refine ((hI.leader_coherent _).mono hmono).concat ?_
    rw [he, hself]
  exact { hI with
    coherent := by
      intro n
      by_cases hn : n = c
      · subst hn
        simpa [History.append, hlog] using hnew
      · simpa [History.append, hn] using (hI.coherent n).mono hmono
    leader_coherent := by
      intro t
      by_cases ht : t = h.term c
      · rw [ht, hself]
        exact hnew
      · rw [hne t ht]
        exact (hI.leader_coherent t).mono hmono
    vote_coherent := fun n t => (hI.vote_coherent n t).mono hmono
    ordered := by
      intro t
      by_cases ht : t = h.term c
      · rw [ht, hself]
        refine (hI.ordered _).concat ?_
        intro x hx
        rw [he]
        exact hI.terms_le _ x hx
      · rw [hne t ht]
        exact hI.ordered t
    unled := by
      intro t ht
      have hne' : t ≠ h.term c := by
        rintro rfl
        exact absurd (hl.symm.trans ht) (by simp)
      rw [hne t hne']
      exact hI.unled t ht
    reign := by
      intro t
      obtain ⟨R, hR, hRt⟩ := hI.reign t
      by_cases ht : t = h.term c
      · subst ht
        refine ⟨R ++ [e], ?_, ?_⟩
        · rw [hself, hR, List.append_assoc]
          rfl
        · intro x hx
          rcases List.mem_append.mp hx with hx | hx
          · exact hRt x hx
          · rw [List.mem_singleton.mp hx, he]
      · exact ⟨R, by rw [hne t ht]; exact hR, hRt⟩
    log_le := by
      intro n x hx
      by_cases hn : n = c
      · subst hn
        have hx' : x ∈ h.log n ++ [e] := by simpa [History.append] using hx
        rcases List.mem_append.mp hx' with hx' | hx'
        · exact hI.log_le n x hx'
        · rw [List.mem_singleton.mp hx', he]
          exact le_rfl
      · exact hI.log_le n x (by simpa [History.append, hn] using hx)
    leader_log := by
      intro t d hd htd
      by_cases ht : t = h.term c
      · subst ht
        have hdc : d = c := Option.some.inj (hd.symm.trans hl)
        subst hdc
        rw [hself]
        simp [History.append, hlog]
      · have hdc : d ≠ c := by
          rintro rfl
          exact ht htd.symm
        rw [hne t ht]
        simpa [History.append, hdc] using hI.leader_log t d hd htd
    agreed_le := by
      intro n t i ha
      obtain ⟨h1, h2⟩ := hI.agreed_le n t i ha
      exact ⟨h1, h2.trans (hmono t).length_le⟩
    agreed_log := by
      intro n t i ha
      have hi := (hI.agreed_le n t i ha).2
      rw [append_leaderLog_take c e hlog hi]
      rcases hI.agreed_log n t i ha with hp | ⟨u, htu, hu, hm⟩
      · refine Or.inl (hp.trans ?_)
        by_cases hn : n = c
        · subst hn
          simp [History.append]
        · simp [History.append, hn]
      · exact Or.inr ⟨u, htu, hu, hm.append c e hI hlog he hi htu⟩
    agreed_vote := by
      intro n t i u d ha htu hd
      have hi := (hI.agreed_le n t i ha).2
      rw [append_leaderLog_take c e hlog hi]
      rcases hI.agreed_vote n t i u d ha htu hd with hp | ⟨w, htw, hw, hlu, hm⟩
      · exact Or.inl hp
      · exact Or.inr ⟨w, htw, hw, hlu, hm.append c e hI hlog he hi htw⟩
    commit_le := by
      intro t i m hc
      obtain ⟨h1, h2⟩ := hI.commit_le t i m hc
      exact ⟨h1, h2.trans (hmono t).length_le⟩
    commit_own := by
      intro t i m hc
      obtain ⟨P, x, hP, hi, hx⟩ := hI.commit_own t i m hc
      exact ⟨P, x, hP.trans (hmono t), hi, hx⟩
    commit_quorum := by
      intro t i m hc
      rw [append_leaderLog_take c e hlog (hI.commit_le t i m hc).2]
      exact hI.commit_quorum t i m hc }

theorem Inv.follow (hI : Inv σ h) (n : N) (k : ℕ) (hl : h.leader (h.term n) ≠ none)
    (hk : ¬(h.leaderLog (h.term n)).take k <+: h.log n) : Inv σ (h.follow n k) := by
  have hself : (h.follow n k).log n = (h.leaderLog (h.term n)).take k := by simp [History.follow]
  have hne (m : N) (hm : m ≠ n) : (h.follow n k).log m = h.log m := by simp [History.follow, hm]
  exact { hI with
    coherent := by
      intro m
      by_cases hm : m = n
      · rw [hm, hself]
        exact (hI.leader_coherent _).of_isPrefix (List.take_prefix _ _)
      · rw [hne m hm]
        exact hI.coherent m
    log_le := by
      intro m e he
      by_cases hm : m = n
      · rw [hm, hself] at he
        rw [hm]
        exact hI.terms_le _ e (List.mem_of_mem_take he)
      · rw [hne m hm] at he
        exact hI.log_le m e he
    leader_log := by
      intro t c hc htc
      by_cases hm : c = n
      · -- the leader already holds its own log
        subst hm
        have htc' : h.term c = t := htc
        subst htc'
        rw [hI.leader_log _ c hc rfl] at hk
        exact absurd (List.take_prefix _ _) hk
      · rw [hne c hm]
        exact hI.leader_log t c hc htc
    agreed_log := by
      intro m t i ha
      by_cases hm : m = n
      · subst hm
        rcases hI.agreed_log m t i ha with hp | ⟨u, htu, hu, hms⟩
        · rw [hself]
          by_cases hX : (h.leaderLog t).take i <+: h.leaderLog (h.term m)
          · -- both logs hold the prefix, so the part taken over reaches beyond it
            refine Or.inl (List.prefix_take_iff.mpr ⟨hX, ?_⟩)
            by_contra hlt
            have hshort : ((h.leaderLog (h.term m)).take k).length ≤
                ((h.leaderLog t).take i).length :=
              (List.length_take_le _ _).trans (not_le.mp hlt).le
            exact hk ((prefix_of_longer (List.take_prefix _ _) hX hshort).trans hp)
          · refine Or.inr ⟨h.term m, lt_of_le_of_ne (hI.agreed_le m t i ha).1 ?_, le_rfl, hl, hX⟩
            rintro rfl
            exact hX (List.take_prefix _ _)
        · exact Or.inr ⟨u, htu, hu, hms⟩
      · rw [hne m hm]
        exact hI.agreed_log m t i ha }

omit [DecidableEq N] in
theorem Inv.agree (hI : Inv σ h) (n : N) (i : ℕ) (hl : h.leader (h.term n) ≠ none)
    (hi : i ≤ (h.leaderLog (h.term n)).length)
    (hp : (h.leaderLog (h.term n)).take i <+: h.log n) : Inv σ (h.agree n i) := by
  exact { hI with
    agreed_led := by
      rintro m t j (ha | ⟨rfl, rfl, -⟩)
      · exact hI.agreed_led m t j ha
      · exact hl
    agreed_le := by
      rintro m t j (ha | ⟨rfl, rfl, hj⟩)
      · exact hI.agreed_le m t j ha
      · exact ⟨le_rfl, hj.trans hi⟩
    agreed_log := by
      rintro m t j (ha | ⟨rfl, rfl, hj⟩)
      · exact hI.agreed_log m t j ha
      · exact Or.inl ((List.take_prefix_take_left hj).trans hp)
    agreed_vote := by
      rintro m t j u c (ha | ⟨rfl, rfl, -⟩) htu hc
      · exact hI.agreed_vote m t j u c ha htu hc
      · -- nobody votes in a term it has not reached
        exact absurd (hI.vote_le m u c hc) (not_le.mpr htu)
    commit_quorum := by
      intro t j m hc
      obtain ⟨A, hA, hag⟩ := hI.commit_quorum t j m hc
      exact ⟨A, hA, fun q hq => Or.inl (hag q hq)⟩ }

omit [DecidableEq N] in
theorem Inv.commit (hI : Inv σ h) (t i : ℕ) (hl : h.leader t ≠ none)
    (he : ∃ P e, P ++ [e] <+: h.leaderLog t ∧ P.length + 1 = i ∧ σ.term e = t)
    (hq : ∃ A, σ.quorum (config σ (h.leaderLog t)) A ∧ ∀ q ∈ A, h.agreed q t i) :
    Inv σ (h.commit t i) := by
  exact { hI with
    commit_led := by
      rintro u j m (heq | hc)
      · cases heq
        exact hl
      · exact hI.commit_led u j m hc
    commit_le := by
      rintro u j m (heq | hc)
      · cases heq
        obtain ⟨P, e, hP, rfl, -⟩ := he
        exact ⟨by simpa using hP.length_le, le_rfl⟩
      · exact hI.commit_le u j m hc
    commit_own := by
      rintro u j m (heq | hc)
      · cases heq
        exact he
      · exact hI.commit_own u j m hc
    commit_quorum := by
      rintro u j m (heq | hc)
      · cases heq
        obtain ⟨A, hA, hag⟩ := hq
        exact ⟨A, by simpa [History.commit] using hA, hag⟩
      · exact hI.commit_quorum u j m hc }

theorem Step.inv {G : History N E → N → E → Prop} {h' : History N E} (hs : Step σ G h h')
    (hI : Inv σ h) : Inv σ h' := by
  cases hs with
  | raiseTerm n t ht => exact hI.raiseTerm n t ht
  | castVote n c hv => exact hI.castVote n c hv
  | elect c A hl hv hq => exact hI.elect c A hl hv hq
  | append c e hl he _ => exact hI.append c e hl he
  | follow n k hl hk => exact hI.follow n k hl hk
  | agree n i hl hi hp => exact hI.agree n i hl hi hp
  | commit t i hl he hq => exact hI.commit t i hl he hq

/-- `h'` extends `h`: terms and leaders' logs grow, and what was recorded stays. -/
structure Le (h h' : History N E) : Prop where
  term : ∀ n, h.term n ≤ h'.term n
  vote : ∀ n t c, h.vote n t = some c → h'.vote n t = some c
  leader : ∀ t c, h.leader t = some c → h'.leader t = some c
  leaderLog : ∀ t, h.leaderLog t <+: h'.leaderLog t
  agreed : ∀ n t i, h.agreed n t i → h'.agreed n t i
  commits : h.commits ⊆ h'.commits

omit [DecidableEq N] in
theorem Le.refl (h : History N E) : Le h h :=
  ⟨fun _ => le_rfl, fun _ _ _ hv => hv, fun _ _ hc => hc, fun _ => List.prefix_refl _,
    fun _ _ _ ha => ha, subset_rfl⟩

omit [DecidableEq N] in
theorem Le.trans {h₁ h₂ h₃ : History N E} (h₁₂ : Le h₁ h₂) (h₂₃ : Le h₂ h₃) : Le h₁ h₃ where
  term := fun n => (h₁₂.term n).trans (h₂₃.term n)
  vote := fun n t c hv => h₂₃.vote n t c (h₁₂.vote n t c hv)
  leader := fun t c hc => h₂₃.leader t c (h₁₂.leader t c hc)
  leaderLog := fun t => (h₁₂.leaderLog t).trans (h₂₃.leaderLog t)
  agreed := fun n t i ha => h₂₃.agreed n t i (h₁₂.agreed n t i ha)
  commits := h₁₂.commits.trans h₂₃.commits

theorem Step.le {G : History N E → N → E → Prop} {h' : History N E} (hs : Step σ G h h')
    (hI : Inv σ h) : Le h h' := by
  have hr := Le.refl h
  cases hs with
  | raiseTerm n t ht =>
    refine { hr with term := ?_ }
    intro m
    by_cases hm : m = n
    · subst hm
      simpa [History.raiseTerm] using ht
    · simp [History.raiseTerm, hm]
  | castVote n c hv =>
    refine { hr with vote := ?_ }
    intro m t d hd
    have hmt : ¬(m = n ∧ t = h.term n) := by
      rintro ⟨rfl, rfl⟩
      exact absurd (hv.symm.trans hd) (by simp)
    rw [(castVote_vote_ne n c m t hmt).1]
    exact hd
  | elect c A hl hv hq =>
    refine { hr with leader := ?_, leaderLog := elect_leaderLog_isPrefix c A hI hl }
    intro t d hd
    have ht : t ≠ h.term c := by
      rintro rfl
      exact absurd (hl.symm.trans hd) (by simp)
    rw [(elect_ne c A t ht).1]
    exact hd
  | append c e hl he _ =>
    exact { hr with leaderLog := append_leaderLog_isPrefix c e (hI.leader_log _ c hl rfl) }
  | follow n k hl hk => exact { hr with }
  | agree n i hl hi hp => exact { hr with agreed := fun _ _ _ ha => Or.inl ha }
  | commit t i hl he hq => exact { hr with commits := Set.subset_insert _ _ }

theorem steps_inv {G : History N E → N → E → Prop} {h' : History N E}
    (hs : Relation.ReflTransGen (Step σ G) h h') (hI : Inv σ h) : Inv σ h' := by
  induction hs with
  | refl => exact hI
  | tail _ hstep ih => exact hstep.inv ih

theorem steps_le {G : History N E → N → E → Prop} {h' : History N E}
    (hs : Relation.ReflTransGen (Step σ G) h h') (hI : Inv σ h) : Le h h' := by
  induction hs with
  | refl => exact Le.refl h
  | tail hsteps hstep ih => exact ih.trans (hstep.le (steps_inv hsteps hI))

end ReplicatedLog.History
