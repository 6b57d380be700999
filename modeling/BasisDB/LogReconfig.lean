import BasisDB.LogCompleteness

/-! Election safety and leader completeness when entries change the
configuration. A leader appends a configuration next to the one in force, and
only when it has committed an entry of its own term at or beyond every earlier
configuration of its log. -/
namespace ReplicatedLog.History
variable {N E C : Type*} {σ : Scheme N E C} {h : History N E}

/-- Every configuration of `P` stands within its first `i` entries. -/
def ConfigsBy (σ : Scheme N E C) (P : List E) (i : ℕ) : Prop :=
  ∀ Q x, Q ++ [x] <+: P → σ.conf x ≠ none → Q.length < i

/-- The rule for the configurations that leaders append. -/
def Chained (σ : Scheme N E C) (Adj : C → C → Prop) (h : History N E) : Prop :=
  ∀ t P e c, P ++ [e] <+: h.leaderLog t → (h.startLog t).length ≤ P.length →
    σ.conf e = some c → Adj (config σ P) c ∧
      ∃ i m, (t, i, m) ∈ h.commits ∧ m ≤ P.length ∧ ConfigsBy σ P i

/-- Quorums of equal and of neighbouring configurations meet. -/
structure Overlapping (σ : Scheme N E C) (Adj : C → C → Prop) : Prop where
  self : ∀ c A B, σ.quorum c A → σ.quorum c B → (A ∩ B).Nonempty
  next : ∀ c d A B, Adj c d → σ.quorum c A → σ.quorum d B → (A ∩ B).Nonempty

section Lists

theorem exists_common_prefix (D L : List E) :
    ∃ G, G <+: D ∧ G <+: L ∧ ∀ P, P <+: D → P <+: L → P.length ≤ G.length := by
  induction D generalizing L with
  | nil => exact ⟨[], List.prefix_refl _, List.nil_prefix, fun P hP _ => hP.length_le⟩
  | cons d D ih =>
    cases L with
    | nil => exact ⟨[], List.nil_prefix, List.prefix_refl _, fun P _ hP => hP.length_le⟩
    | cons x L =>
      by_cases hdx : d = x
      · subst hdx
        obtain ⟨G, hD, hL, hmax⟩ := ih L
        refine ⟨d :: G, by simpa using hD, by simpa using hL, ?_⟩
        rintro (_ | ⟨p, P⟩) hPD hPL
        · exact Nat.zero_le _
        · rw [List.cons_prefix_cons] at hPD hPL
          exact Nat.succ_le_succ (hmax P hPD.2 hPL.2)
      · refine ⟨[], List.nil_prefix, List.nil_prefix, ?_⟩
        rintro (_ | ⟨p, P⟩) hPD hPL
        · exact le_refl _
        · rw [List.cons_prefix_cons] at hPD hPL
          exact absurd (hPD.1.symm.trans hPL.1) hdx

/-- The part of a log beyond `G` keeps the configuration, or has a first entry
that changes it. -/
theorem first_config (σ : Scheme N E C) {G L : List E} (hG : G <+: L) :
    (∀ R, L = G ++ R → ∀ x ∈ R, σ.conf x = none) ∨
    ∃ P e c, G <+: P ∧ P ++ [e] <+: L ∧ σ.conf e = some c ∧ config σ P = config σ G := by
  obtain ⟨R, rfl⟩ := hG
  induction R generalizing G with
  | nil =>
    left
    intro R hR x hx
    rw [List.append_cancel_left hR.symm] at hx
    exact absurd hx List.not_mem_nil
  | cons e R ih =>
    cases he : σ.conf e with
    | some c => exact Or.inr ⟨G, e, c, List.prefix_refl _, ⟨R, by simp⟩, he, rfl⟩
    | none =>
      have hstep := ih (G := G ++ [e])
      rw [List.append_assoc, List.singleton_append] at hstep
      rcases hstep with hnone | ⟨P, x, c, hP, hPx, hx, hcfg⟩
      · left
        intro R' hR' x hx
        rw [← List.append_cancel_left hR'] at hx
        rcases List.mem_cons.mp hx with rfl | hx
        · exact he
        · exact hnone R (by simp) x hx
      · refine Or.inr ⟨P, x, c, (List.prefix_append _ _).trans hP, hPx, hx, ?_⟩
        rw [hcfg, config_concat_none he]

theorem config_of_configsBy {M P : List E} {i : ℕ} (hM : M <+: P) (hi : i ≤ M.length)
    (hP : ConfigsBy σ P i) : config σ M = config σ P := by
  rcases first_config σ hM with hnone | ⟨Q, e, c, hQ, hQe, he, -⟩
  · obtain ⟨R, rfl⟩ := hM
    exact (config_append_plain (hnone R rfl)).symm
  · have hlt := hP Q e hQe (by simp [he])
    have hle := hQ.length_le
    omega

/-- A log whose configurations each follow from the one before is a chain. -/
theorem isChain_configs {Adj : C → C → Prop} (L : List E)
    (h : ∀ P e c, P ++ [e] <+: L → σ.conf e = some c → Adj (config σ P) c) :
    (σ.boot :: L.filterMap σ.conf).IsChain Adj := by
  induction L using List.reverseRecOn with
  | nil => exact List.isChain_singleton _
  | append_singleton L e ih =>
    have hL := ih (fun P x c hP => h P x c (hP.trans (List.prefix_append _ _)))
    rw [List.filterMap_append]
    cases hc : σ.conf e with
    | none => simpa [hc] using hL
    | some c =>
      have hadj := h L e c List.prefix_rfl hc
      rw [List.filterMap_cons_some hc, List.filterMap_nil, ← List.cons_append]
      refine hL.append (List.isChain_singleton c) ?_
      intro x hx y hy
      simp only [List.getLast?_cons, Option.mem_def, Option.some.injEq, List.head?_cons] at hx hy
      subst hx hy
      exact hadj

end Lists

theorem Chained.start (Adj : C → C → Prop) : Chained σ Adj (History.start : History N E) := by
  intro t P e c hP
  exact absurd (List.prefix_nil.mp hP) (by simp)

/-- Without configuration entries there is nothing to check. -/
theorem Chained.of_plain {Adj : C → C → Prop} (hp : ∀ t, ∀ e ∈ h.leaderLog t, σ.conf e = none) :
    Chained σ Adj h := by
  intro t P e c hP _ hc
  have hnone := hp t e (hP.subset (by simp))
  rw [hnone] at hc
  cases hc

theorem Step.plain [DecidableEq N] {G : History N E → N → E → Prop} {h' : History N E}
    (hs : Step σ G h h') (hI : Inv σ h) (hp : ∀ t, ∀ e ∈ h.leaderLog t, σ.conf e = none)
    (hG : ∀ n e, G h n e → σ.conf e = none) : ∀ t, ∀ e ∈ h'.leaderLog t, σ.conf e = none := by
  have hlog (n : N) : ∀ e ∈ h.log n, σ.conf e = none := by
    rcases List.eq_nil_or_concat' (h.log n) with hn | ⟨P, x, hP⟩
    · simp [hn]
    · have hc : Coherent σ h.leaderLog (P ++ [x]) := hP ▸ hI.coherent n
      intro e he
      exact hp _ e (hc.self.subset (hP ▸ he))
  cases hs with
  | raiseTerm | castVote | follow | agree | commit => exact hp
  | elect c A hl hv hq =>
    intro t e he
    by_cases ht : t = h.term c
    · subst ht
      simp only [History.elect, Function.update_self] at he
      exact hlog c e he
    · simp only [History.elect, Function.update_of_ne ht] at he
      exact hp t e he
  | append c x hl hx hGx =>
    intro t e he
    by_cases ht : t = h.term c
    · subst ht
      simp only [History.append, Function.update_self] at he
      rcases List.mem_append.mp he with he | he
      · exact hlog c e he
      · rw [List.mem_singleton.mp he]
        exact hG c x hGx
    · simp only [History.append, Function.update_of_ne ht] at he
      exact hp t e he

/-- What a leader must know before it appends `e`. -/
def MayAppend (σ : Scheme N E C) (Adj : C → C → Prop) (h : History N E) (n : N) (e : E) : Prop :=
  ∀ c, σ.conf e = some c → Adj (config σ (h.log n)) c ∧
    ∃ i m, (h.term n, i, m) ∈ h.commits ∧ ConfigsBy σ (h.log n) i

theorem Step.chained [DecidableEq N] {Adj : C → C → Prop} {G : History N E → N → E → Prop}
    {h' : History N E} (hs : Step σ G h h') (hI : Inv σ h) (hch : Chained σ Adj h)
    (hG : ∀ n e, G h n e → MayAppend σ Adj h n e) : Chained σ Adj h' := by
  cases hs with
  | raiseTerm | castVote | follow | agree => exact hch
  | commit t i hl he hq =>
    intro u P e c hP hlen hc
    obtain ⟨hadj, j, m, hj, hm⟩ := hch u P e c hP hlen hc
    exact ⟨hadj, j, m, Set.mem_insert_of_mem _ hj, hm⟩
  | elect d A hl hv hq =>
    intro u P e c hP hlen hc
    simp only [History.elect] at hP hlen
    by_cases hu : u = h.term d
    · subst hu
      simp only [Function.update_self] at hP hlen
      have := hP.length_le
      rw [List.length_append, List.length_singleton] at this
      omega
    · rw [Function.update_of_ne hu] at hP hlen
      exact hch u P e c hP hlen hc
  | append d x hl hx hGx =>
    intro u P e c hP hlen hc
    simp only [History.append] at hP
    by_cases hu : u = h.term d
    · subst hu
      rw [Function.update_self] at hP
      have hlog := hI.leader_log _ d hl rfl
      rcases List.prefix_concat_iff.mp hP with heq | hP
      · obtain ⟨rfl, hex⟩ := List.append_inj' heq rfl
        cases hex
        obtain ⟨hadj, i, m, hi, hcb⟩ := hG d _ hGx c hc
        refine ⟨hadj, i, m, hi, ?_, hcb⟩
        rw [hlog]
        exact (hI.commit_le _ i m hi).2
      · rw [hlog] at hP
        exact hch _ P e c hP hlen hc
    · rw [Function.update_of_ne hu] at hP
      exact hch u P e c hP hlen hc

theorem steps_chained [DecidableEq N] {Adj : C → C → Prop} {h' : History N E}
    (hs : Relation.ReflTransGen (Step σ (MayAppend σ Adj)) h h') (hI : Inv σ h)
    (hch : Chained σ Adj h) : Chained σ Adj h' := by
  induction hs with
  | refl => exact hch
  | tail hpre hlast ih => exact hlast.chained (steps_inv hpre hI) ih (fun _ _ hG => hG)

/-- The rule for one configuration of a coherent log. -/
theorem Chained.entry {Adj : C → C → Prop} (hch : Chained σ Adj h) (hI : Inv σ h) {L P : List E}
    {e : E} {c : C} (hL : Coherent σ h.leaderLog L) (hP : P ++ [e] <+: L) (hc : σ.conf e = some c) :
    Adj (config σ P) c ∧ ∃ i m, (σ.term e, i, m) ∈ h.commits ∧
      (h.leaderLog (σ.term e)).take m <+: P ∧ ConfigsBy σ P i := by
  have hlead := hL P e hP
  have hlen : (h.startLog (σ.term e)).length ≤ P.length := by
    by_contra hlt
    have hle : (P ++ [e]).length ≤ (h.startLog (σ.term e)).length := by
      rw [List.length_append, List.length_singleton]
      omega
    have hmem := (prefix_of_longer hlead (hI.start_prefix _) hle).subset
      (List.mem_append_right P (List.mem_singleton.mpr rfl))
    exact lt_irrefl _ (hI.start_lt _ e hmem)
  obtain ⟨hadj, i, m, hi, hm, hcb⟩ := hch _ P e c hlead hlen hc
  refine ⟨hadj, i, m, hi, ?_, hcb⟩
  have hPl := (List.prefix_append P [e]).trans hlead
  refine prefix_of_longer (List.take_prefix _ _) hPl ?_
  rw [List.length_take]
  omega

/-- What an older term committed lies within what a newer one committed. -/
theorem Inv.commit_within (hI : Inv σ h) {t i m v j : ℕ} (hc : (t, i, m) ∈ h.commits)
    (hvt : v < t) (hp : (h.leaderLog v).take j <+: h.leaderLog t) :
    (h.leaderLog v).take j <+: (h.leaderLog t).take m := by
  obtain ⟨P, e, hPe, -, het⟩ := hI.commit_take hc
  refine List.IsPrefix.trans ?_ (List.take_prefix_take_left (hI.commit_le t i m hc).1)
  by_contra hnot
  have hle : ((h.leaderLog t).take i).length ≤ ((h.leaderLog v).take j).length := by
    by_contra hlt
    exact hnot (prefix_of_longer hp (List.take_prefix _ _) (not_le.mp hlt).le)
  have hmem : e ∈ (h.leaderLog v).take j := by
    refine (prefix_of_longer (List.take_prefix _ _) hp hle).subset ?_
    simp [hPe]
  have := hI.terms_le v e (List.mem_of_mem_take hmem)
  omega

section Reconfiguration
variable {Adj : C → C → Prop} {t i m u : ℕ} {c : N} {L : List E} {A : Set N}

/-- Leader completeness for the terms before `u`. -/
def CompleteBelow (h : History N E) (u : ℕ) : Prop :=
  ∀ t i m, (t, i, m) ∈ h.commits → ∀ w, t < w → w < u → h.leader w ≠ none →
    (h.leaderLog t).take i <+: h.leaderLog w

/-- The voters in `A` voted before the leader of `u` could overwrite their logs,
or that leader is complete itself. -/
def VotedInTime (h : History N E) (u : ℕ) (A : Set N) : Prop :=
  ∀ q ∈ A, ∀ t i m, (t, i, m) ∈ h.commits → t < u →
    (h.leader u = none ∨ q ∈ h.electors u) ∨ (h.leaderLog t).take i <+: h.leaderLog u

/-- An entry newer than the commit comes after it. -/
theorem Election.holds_of_newer (hE : Election σ h u c L A) (hI : Inv σ h)
    (hb : CompleteBelow h u) (hc : (t, i, m) ∈ h.commits) {P : List E} {e : E}
    (hP : P ++ [e] <+: L) (he : t < σ.term e) : (h.leaderLog t).take i <+: L := by
  have hlead := hE.coherent P e hP
  have heu := hE.lt e (hP.subset (by simp))
  have hX := hb t i m hc _ he heu (hI.led_of_prefix hE.coherent hP)
  rcases List.prefix_or_prefix_of_prefix hX hlead with hp | hp
  · exact hp.trans hP
  · have hmem := hp.subset (List.mem_append_right P (List.mem_singleton.mpr rfl))
    have := hI.terms_le t e (List.mem_of_mem_take hmem)
    omega

/-- An entry of the commit's own term comes after it or lies within that log. -/
theorem Election.holds_of_same (hE : Election σ h u c L A) (hI : Inv σ h)
    (hc : (t, i, m) ∈ h.commits) {P : List E} {e : E} (hP : P ++ [e] <+: L) (he : σ.term e = t) :
    (h.leaderLog t).take i <+: L ∨ P ++ [e] <+: (h.leaderLog t).take m := by
  have hlead := hE.coherent P e hP
  rw [he] at hlead
  rcases List.prefix_or_prefix_of_prefix hlead (List.take_prefix m (h.leaderLog t)) with hp | hp
  · exact Or.inr hp
  · left
    exact ((List.take_prefix_take_left (hI.commit_le t i m hc).1).trans hp).trans hP

/-- Configurations that are equal or next to each other. -/
def Near (Adj : C → C → Prop) (c d : C) : Prop := c = d ∨ Adj c d ∨ Adj d c

theorem Overlapping.near (hov : Overlapping σ Adj) {c d : C} (hn : Near Adj c d) {A B : Set N}
    (hA : σ.quorum c A) (hB : σ.quorum d B) : (A ∩ B).Nonempty := by
  rcases hn with rfl | hn | hn
  · exact hov.self c A B hA hB
  · exact hov.next c d A B hn hA hB
  · rw [Set.inter_comm]
    exact hov.next d c B A hn hB hA

theorem Election.holds_of_near (hE : Election σ h u c L A) (hI : Inv σ h)
    (hov : Overlapping σ Adj) (hb : CompleteBelow h u) (hf : VotedInTime h u A)
    (hc : (t, i, m) ∈ h.commits) (htu : t < u)
    (hn : Near Adj (config σ ((h.leaderLog t).take m)) (config σ L)) :
    (h.leaderLog t).take i <+: L :=
  hE.holds_of_meet hI hc htu (fun w htw hwu hw => hb t i m hc w htw hwu hw)
    (fun q hq => hf q hq t i m hc htu) (fun _ hB => hov.near hn hB hE.quorum)

theorem Inv.commit_length (hI : Inv σ h) (hc : (t, i, m) ∈ h.commits) :
    ((h.leaderLog t).take i).length = i := by
  have := hI.commit_le t i m hc
  rw [List.length_take]
  omega

/-- The commit that let a leader append a configuration lies in every log with
that configuration, before it. -/
theorem Inv.commit_before (hI : Inv σ h) {P : List E} {v j k : ℕ} (hj : (v, j, k) ∈ h.commits)
    (hk : (h.leaderLog v).take k <+: P) : (h.leaderLog v).take j <+: P :=
  (List.take_prefix_take_left (hI.commit_le v j k hj).1).trans hk

/-- Two configurations beyond the common part: the commit that allowed the
second one carries the first one into the committed log. -/
theorem Election.holds_of_two (hE : Election σ h u c L A) (hI : Inv σ h) (hch : Chained σ Adj h)
    (hb : CompleteBelow h u) (hc : (t, i, m) ∈ h.commits) (htu : t < u) {G P Q : List E} {e x : E}
    {d : C} (hmax : ∀ P, P <+: (h.leaderLog t).take m → P <+: L → P.length ≤ G.length)
    (hP : P ++ [e] <+: L) (he : σ.conf e = some d) (hQ : Q ++ [x] <+: P) (hx : σ.conf x ≠ none)
    (hG : G.length ≤ Q.length) : (h.leaderLog t).take i <+: L := by
  have hQP := hQ.length_le
  rw [List.length_append, List.length_singleton] at hQP
  rcases lt_trichotomy (σ.term e) t with hlt | heq | hgt
  · obtain ⟨-, j, k, hj, hk, hcb⟩ := hch.entry hI hE.coherent hP he
    have hpre := hI.commit_before hj hk
    have hle := hmax _ (hI.commit_within hc hlt (hb _ j k hj t hlt htu (hI.commit_led t i m hc)))
      (hpre.trans ((List.prefix_append P [e]).trans hP))
    rw [hI.commit_length hj] at hle
    have := hcb Q x hQ hx
    omega
  · rcases hE.holds_of_same hI hc hP heq with hX | hD
    · exact hX
    · have := hmax _ hD hP
      rw [List.length_append, List.length_singleton] at this
      omega
  · exact hE.holds_of_newer hI hb hc hP hgt

theorem config_of_plain_rest {G L : List E} (hG : G <+: L)
    (hn : ∀ R, L = G ++ R → ∀ x ∈ R, σ.conf x = none) : config σ L = config σ G := by
  obtain ⟨R, rfl⟩ := hG
  exact config_append_plain (hn R rfl)

/-- No configuration beyond the common part in the candidate's log. -/
theorem Election.holds_of_none (hE : Election σ h u c L A) (hI : Inv σ h) (hch : Chained σ Adj h)
    (hov : Overlapping σ Adj) (hb : CompleteBelow h u) (hf : VotedInTime h u A)
    (hc : (t, i, m) ∈ h.commits) (htu : t < u) {G : List E}
    (hGD : G <+: (h.leaderLog t).take m)
    (hmax : ∀ P, P <+: (h.leaderLog t).take m → P <+: L → P.length ≤ G.length)
    (hcL : config σ L = config σ G) : (h.leaderLog t).take i <+: L := by
  have hD : Coherent σ h.leaderLog ((h.leaderLog t).take m) :=
    (hI.leader_coherent t).of_isPrefix (List.take_prefix _ _)
  rcases first_config σ hGD with hn | ⟨Q, d, cd, hGQ, hQd, hd, hcQ⟩
  · refine hE.holds_of_near hI hov hb hf hc htu (Or.inl ?_)
    rw [hcL, config_of_plain_rest hGD hn]
  have hadj := (hch.entry hI hD hQd hd).1
  rw [hcQ, ← hcL] at hadj
  rcases first_config σ hQd with hn | ⟨Q', d', cd', hQQ, hQd', hd', hcQ'⟩
  · refine hE.holds_of_near hI hov hb hf hc htu (Or.inr (Or.inr ?_))
    rwa [config_of_plain_rest hQd hn, config_concat_some hd]
  · -- the commit that allowed the second configuration is in the candidate's log
    exfalso
    obtain ⟨-, j, k, hj, hk, hcb⟩ := hch.entry hI hD hQd' hd'
    have hd't : σ.term d' ≤ t :=
      hI.terms_le t d' (List.mem_of_mem_take (hQd'.subset (by simp)))
    have hpre := hI.commit_before hj hk
    have hkj : j ≤ ((h.leaderLog (σ.term d')).take k).length := by
      have := hI.commit_le _ j k hj
      rw [List.length_take]
      omega
    have hX := hE.holds_of_near hI hov hb hf hj (hd't.trans_lt htu) (Or.inr (Or.inr (by
      rwa [config_of_configsBy hk hkj hcb, hcQ', config_concat_some hd])))
    have hle := hmax _ (hpre.trans ((List.prefix_append _ _).trans hQd')) hX
    rw [hI.commit_length hj] at hle
    have h1 := hcb Q d hQQ (by simp [hd])
    have h2 := hGQ.length_le
    omega

/-- One configuration beyond the common part in the candidate's log, older than
the commit. -/
theorem Election.holds_of_older (hE : Election σ h u c L A) (hI : Inv σ h) (hch : Chained σ Adj h)
    (hov : Overlapping σ Adj) (hb : CompleteBelow h u) (hf : VotedInTime h u A)
    (hc : (t, i, m) ∈ h.commits) (htu : t < u) {G P : List E} {e : E} {ce : C}
    (hGD : G <+: (h.leaderLog t).take m) (hGL : G <+: L)
    (hmax : ∀ P, P <+: (h.leaderLog t).take m → P <+: L → P.length ≤ G.length)
    (hGP : G <+: P) (hP : P ++ [e] <+: L) (he : σ.conf e = some ce) (hcP : config σ P = config σ G)
    (hcL : config σ L = ce) (het : σ.term e < t) : (h.leaderLog t).take i <+: L := by
  have hD : Coherent σ h.leaderLog ((h.leaderLog t).take m) :=
    (hI.leader_coherent t).of_isPrefix (List.take_prefix _ _)
  obtain ⟨hadj, j, k, hj, hk, -⟩ := hch.entry hI hE.coherent hP he
  rw [hcP, ← hcL] at hadj
  rcases first_config σ hGD with hn | ⟨Q, d, cd, hGQ, hQd, hd, hcQ⟩
  · refine hE.holds_of_near hI hov hb hf hc htu (Or.inr (Or.inl ?_))
    rwa [config_of_plain_rest hGD hn]
  exfalso
  have hGQl := hGQ.length_le
  have hGPl := hGP.length_le
  rcases lt_trichotomy (σ.term d) (σ.term e) with hlt | heq | hgt
  · -- the commit before `e` lies in the common part, so before `d`
    have hV := hI.commit_within hc het (hb _ j k hj t het htu (hI.commit_led t i m hc))
    have hVL := (hI.commit_before hj hk).trans ((List.prefix_append P [e]).trans hP)
    have hVG := prefix_of_longer hV hGD (hmax _ hV hVL)
    obtain ⟨R, x, hRx, -, hx⟩ := hI.commit_take hj
    have hxQ : x ∈ Q ++ [d] := by
      refine List.mem_append_left _ ((hVG.trans hGQ).subset ?_)
      simp [hRx]
    have := ((hD.of_isPrefix hQd).ordered hI.ordered).le_last hxQ
    omega
  · -- both configurations are entries of one leader
    have h1 := hD Q d hQd
    have h2 := hE.coherent P e hP
    rw [heq] at h1
    rcases List.prefix_or_prefix_of_prefix h1 h2 with hp | hp
    · have := hmax _ hQd (hp.trans hP)
      rw [List.length_append, List.length_singleton] at this
      omega
    · have := hmax _ (hp.trans hQd) hP
      rw [List.length_append, List.length_singleton] at this
      omega
  · -- the commit before `d` used a neighbour of the candidate's configuration
    obtain ⟨-, j', k', hj', hk', hcb⟩ := hch.entry hI hD hQd hd
    have hdt : σ.term d ≤ t := hI.terms_le t d (List.mem_of_mem_take (hQd.subset (by simp)))
    have hkj : j' ≤ ((h.leaderLog (σ.term d)).take k').length := by
      have := hI.commit_le _ j' k' hj'
      rw [List.length_take]
      omega
    have hX := hE.holds_of_near hI hov hb hf hj' (hdt.trans_lt htu) (Or.inr (Or.inl (by
      rwa [config_of_configsBy hk' hkj hcb, hcQ])))
    have hXD := (hI.commit_before hj' hk').trans ((List.prefix_append _ _).trans hQd)
    have hXG := prefix_of_longer hX hGL (hmax _ hXD hX)
    obtain ⟨R, z, hRz, -, hz⟩ := hI.commit_take hj'
    have hzP : z ∈ P ++ [e] := by
      refine List.mem_append_left _ ((hXG.trans hGP).subset ?_)
      simp [hRz]
    have := ((hE.coherent.of_isPrefix hP).ordered hI.ordered).le_last hzP
    omega

/-- The winner of an election holds what was committed in earlier terms. -/
theorem Election.holds (hE : Election σ h u c L A) (hI : Inv σ h) (hch : Chained σ Adj h)
    (hov : Overlapping σ Adj) (hb : CompleteBelow h u) (hf : VotedInTime h u A)
    (hc : (t, i, m) ∈ h.commits) (htu : t < u) : (h.leaderLog t).take i <+: L := by
  obtain ⟨G, hGD, hGL, hmax⟩ := exists_common_prefix ((h.leaderLog t).take m) L
  rcases first_config σ hGL with hn | ⟨P, e, ce, hGP, hP, he, hcP⟩
  · exact hE.holds_of_none hI hch hov hb hf hc htu hGD hmax (config_of_plain_rest hGL hn)
  rcases first_config σ hP with hn | ⟨P', e', ce', hPP, hP', he', -⟩
  · have hcL : config σ L = ce := by rw [config_of_plain_rest hP hn, config_concat_some he]
    rcases lt_trichotomy (σ.term e) t with hlt | heq | hgt
    · exact hE.holds_of_older hI hch hov hb hf hc htu hGD hGL hmax hGP hP he hcP hcL hlt
    · rcases hE.holds_of_same hI hc hP heq with hX | hD
      · exact hX
      · have h1 := hmax _ hD hP
        have h2 := hGP.length_le
        rw [List.length_append, List.length_singleton] at h1
        omega
    · exact hE.holds_of_newer hI hb hc hP hgt
  · exact hE.holds_of_two hI hch hb hc htu hmax hP' he' hPP (by simp [he]) hGP.length_le

theorem Chained.complete (hch : Chained σ Adj h) (hI : Inv σ h) (hov : Overlapping σ Adj) :
    Complete h := by
  have key : ∀ u, CompleteBelow h u := by
    intro u
    induction u with
    | zero => exact fun t i m _ w _ hw => absurd hw (Nat.not_lt_zero _)
    | succ u ih =>
      intro t i m hc w htw hwu hw
      rcases (Nat.lt_succ_iff.mp hwu).lt_or_eq with hlt | rfl
      · exact ih t i m hc w htw hlt hw
      · obtain ⟨c, hcw⟩ := Option.ne_none_iff_exists'.mp hw
        refine ((hI.election hcw).holds hI hch hov ih ?_ hc htw).trans (hI.start_prefix w)
        intro q hq t i m _ _
        exact Or.inl (Or.inr hq)
  exact fun t i m hc u htu hu => key (u + 1) t i m hc u htu (Nat.lt_succ_self u) hu

/-- Every log that wins an election is complete, even if the term has a leader. -/
theorem Election.complete (hE : Election σ h u c L A) (hI : Inv σ h) (hch : Chained σ Adj h)
    (hov : Overlapping σ Adj) (hc : (t, i, m) ∈ h.commits) (htu : t < u) :
    (h.leaderLog t).take i <+: L := by
  have hC := hch.complete hI hov
  refine hE.holds hI hch hov (fun t i m hc w htw _ hw => hC t i m hc w htw hw) ?_ hc htu
  intro q _ t i m hc htu
  by_cases hn : h.leader u = none
  · exact Or.inl (Or.inl hn)
  · exact Or.inr (hC t i m hc u htu hn)

/-- Beyond the common part of two logs that hold every earlier commit there is
at most one configuration on each side. -/
theorem Election.config_beyond (hE : Election σ h u c L A) (hI : Inv σ h) (hch : Chained σ Adj h)
    {G M : List E} (hM : ∀ t i m, (t, i, m) ∈ h.commits → t < u → (h.leaderLog t).take i <+: M)
    (hmax : ∀ P, P <+: L → P <+: M → P.length ≤ G.length) (hG : G <+: L) :
    config σ L = config σ G ∨ ∃ P e, G <+: P ∧ P ++ [e] <+: L ∧ Adj (config σ G) (config σ L) ∧
      ∃ j k, (σ.term e, j, k) ∈ h.commits := by
  rcases first_config σ hG with hn | ⟨P, e, ce, hGP, hP, he, hcP⟩
  · exact Or.inl (config_of_plain_rest hG hn)
  obtain ⟨hadj, i, m, hi, -⟩ := hch.entry hI hE.coherent hP he
  rcases first_config σ hP with hn | ⟨P', e', ce', hPP, hP', he', -⟩
  · refine Or.inr ⟨P, e, hGP, hP, ?_, i, m, hi⟩
    rwa [config_of_plain_rest hP hn, config_concat_some he, ← hcP]
  · exfalso
    obtain ⟨-, j, k, hj, hk, hcb⟩ := hch.entry hI hE.coherent hP' he'
    have hlt := hE.lt e' (hP'.subset (by simp))
    have hle := hmax _ ((hI.commit_before hj hk).trans ((List.prefix_append _ _).trans hP'))
      (hM _ j k hj hlt)
    rw [hI.commit_length hj] at hle
    have h1 := hcb P e hPP (by simp [he])
    have h2 := hGP.length_le
    omega

/-- An entry beyond the common part is not older than a commit that both logs hold. -/
theorem Election.not_older (hE : Election σ h u c L A) (hI : Inv σ h) {G P M : List E} {e : E}
    {v j k : ℕ} (hG : G <+: L) (hmax : ∀ P, P <+: L → P <+: M → P.length ≤ G.length)
    (hGP : G <+: P) (hP : P ++ [e] <+: L) (hj : (v, j, k) ∈ h.commits)
    (hL : (h.leaderLog v).take j <+: L) (hM : (h.leaderLog v).take j <+: M) : v ≤ σ.term e := by
  have hXG := prefix_of_longer hL hG (hmax _ hL hM)
  obtain ⟨R, z, hRz, -, hz⟩ := hI.commit_take hj
  have hzP : z ∈ P ++ [e] := by
    refine List.mem_append_left _ ((hXG.trans hGP).subset ?_)
    simp [hRz]
  rw [← hz]
  exact ((hE.coherent.of_isPrefix hP).ordered hI.ordered).le_last hzP

/-- Two logs that win elections in one term have configurations with common quorums. -/
theorem Election.meet (hE : Election σ h u c L A) {d : N} {M : List E} {B : Set N}
    (hF : Election σ h u d M B) (hI : Inv σ h) (hch : Chained σ Adj h) (hov : Overlapping σ Adj) :
    (A ∩ B).Nonempty := by
  have hL := fun t i m hc htu => hE.complete (t := t) (i := i) (m := m) hI hch hov hc htu
  have hM := fun t i m hc htu => hF.complete (t := t) (i := i) (m := m) hI hch hov hc htu
  obtain ⟨G, hGL, hGM, hmax⟩ := exists_common_prefix L M
  have hmax' : ∀ P, P <+: M → P <+: L → P.length ≤ G.length := fun P h1 h2 => hmax P h2 h1
  rcases hE.config_beyond hI hch hM hmax hGL with h1 | ⟨P, e, hGP, hP, hadj, j, k, hj⟩
  · rcases hF.config_beyond hI hch hL hmax' hGM with h2 | ⟨Q, x, -, -, hadj, -⟩
    · exact hov.near (Or.inl (h1.trans h2.symm)) hE.quorum hF.quorum
    · rw [← h1] at hadj
      exact hov.near (Or.inr (Or.inl hadj)) hE.quorum hF.quorum
  · rcases hF.config_beyond hI hch hL hmax' hGM with h2 | ⟨Q, x, hGQ, hQ, -, j', k', hj'⟩
    · rw [← h2] at hadj
      exact hov.near (Or.inr (Or.inr hadj)) hE.quorum hF.quorum
    · -- one new configuration on each side: they would be of one term
      exfalso
      have heu := hE.lt e (hP.subset (by simp))
      have hxu := hF.lt x (hQ.subset (by simp))
      have h1 := hE.not_older hI hGL hmax hGP hP hj' (hL _ _ _ hj' hxu) (hM _ _ _ hj' hxu)
      have h2 := hF.not_older hI hGM hmax' hGQ hQ hj (hM _ _ _ hj heu) (hL _ _ _ hj heu)
      have hPl := hE.coherent P e hP
      have hQl := hF.coherent Q x hQ
      rw [le_antisymm h1 h2] at hQl
      have hGPl := hGP.length_le
      have hGQl := hGQ.length_le
      rcases List.prefix_or_prefix_of_prefix hPl hQl with hp | hp
      · have := hmax _ hP (hp.trans hQ)
        rw [List.length_append, List.length_singleton] at this
        omega
      · have := hmax _ (hp.trans hP) hQ
        rw [List.length_append, List.length_singleton] at this
        omega

/-- Election safety: whoever wins a term that has a leader is that leader. -/
theorem Chained.leader_unique (hch : Chained σ Adj h) (hI : Inv σ h) (hov : Overlapping σ Adj)
    {d : N} (hE : Election σ h u c L A) (hd : h.leader u = some d) : c = d := by
  obtain ⟨q, hq, hq'⟩ := hE.meet (hI.election hd) hI hch hov
  exact Option.some.inj ((hE.votes q hq).1.symm.trans ((hI.election hd).votes q hq').1)

end Reconfiguration
end ReplicatedLog.History
