import Mathlib

/-! Reading an ordered collection page by page. A page lists the first keys above a cursor; a
full page with keys behind it ends with the cursor for the next page. -/
namespace Paging

variable {σ π κ ε : Type*} [LinearOrder κ]

/-- The keys above a cursor. -/
def above (after : κ) (keys : List κ) : List κ := keys.filter (fun k => decide (after < k))

theorem mem_above {after k : κ} {keys : List κ} : k ∈ above after keys ↔ k ∈ keys ∧ after < k := by
  simp [above]

theorem above_sorted {keys : List κ} (h : keys.Pairwise (· < ·)) (after : κ) :
    (above after keys).Pairwise (· < ·) := h.filter _

theorem le_getLast {ks : List κ} (h : ks.Pairwise (· < ·)) {last k : κ}
    (hlast : ks.getLast? = some last) (hk : k ∈ ks) : k ≤ last := by
  rcases List.eq_nil_or_concat' ks with rfl | ⟨init, x, rfl⟩
  · cases hlast
  · obtain rfl : x = last := by simpa using hlast
    rcases List.mem_append.mp hk with hinit | hx
    · exact ((List.pairwise_append.mp h).2.2 k hinit x (by simp)).le
    · rw [List.mem_singleton.mp hx]

/-- A service that answers a cursor with a page. -/
structure Pager (σ π κ ε : Type*) where
  fetch : σ → κ → Except ε π
  listed : π → List κ
  next : π → κ

namespace Pager
variable (P : Pager σ π κ ε)

/-- Pages fetched one after another until the cursor is `stop`; the state may be another one
at each page. -/
inductive Follows (stop : κ) : κ → List (σ × π) → Prop
  | last {after : κ} {s : σ} {page : π} (h : P.fetch s after = .ok page)
      (hstop : P.next page = stop) : Follows stop after [(s, page)]
  | more {after : κ} {s : σ} {page : π} {reads : List (σ × π)} (h : P.fetch s after = .ok page)
      (hmore : P.next page ≠ stop) (hrest : Follows stop (P.next page) reads) :
      Follows stop after ((s, page) :: reads)

/-- All keys listed by some pages. -/
def listedBy (reads : List (σ × π)) : List κ := reads.flatMap (fun r => P.listed r.2)

/-- Every page is the beginning of the keys above its cursor. `stop` is below every key, so it
is the cursor to begin with and the sign that nothing follows. -/
structure Serves (keys : σ → List κ) (limit : ℕ) (stop : κ) (Good : σ → Prop) : Prop where
  sorted : ∀ s, (keys s).Pairwise (· < ·)
  stop_lt : ∀ s, Good s → ∀ k ∈ keys s, stop < k
  listed : ∀ s after page, Good s → P.fetch s after = .ok page →
    P.listed page = (above after (keys s)).take limit
  ends : ∀ s after page, Good s → P.fetch s after = .ok page →
    (above after (keys s)).length ≤ limit → P.next page = stop
  goesOn : ∀ s after page, Good s → P.fetch s after = .ok page →
    limit < (above after (keys s)).length → (P.listed page).getLast? = some (P.next page)

variable {P} {keys : σ → List κ} {limit : ℕ} {stop after : κ} {Good : σ → Prop}
  {reads : List (σ × π)}

omit [LinearOrder κ] in
theorem Follows.fetched (h : P.Follows stop after reads) {r : σ × π} (hr : r ∈ reads) :
    ∃ cursor, P.fetch r.1 cursor = .ok r.2 := by
  induction h with
  | last hf _ =>
    rw [List.mem_singleton.mp hr]
    exact ⟨_, hf⟩
  | more hf _ _ ih =>
    rcases List.mem_cons.mp hr with rfl | hr
    · exact ⟨_, hf⟩
    · exact ih hr

omit [LinearOrder κ] in
/-- The last page is the only one with the cursor `stop`. -/
theorem Follows.next_eq_stop (h : P.Follows stop after reads) :
    ∃ init r, reads = init ++ [r] ∧ P.next r.2 = stop ∧ ∀ q ∈ init, P.next q.2 ≠ stop := by
  induction h with
  | last _ hstop => exact ⟨[], _, rfl, hstop, by simp⟩
  | more _ hmore _ ih =>
    obtain ⟨init, r, rfl, hr, hinit⟩ := ih
    refine ⟨_ :: init, r, rfl, hr, ?_⟩
    intro q hq
    rcases List.mem_cons.mp hq with rfl | hq
    · exact hmore
    · exact hinit q hq

omit [LinearOrder κ] in
/-- Another service that answers the cursors met on the way with the same pages. -/
theorem Follows.transfer {Q : Pager σ π κ ε} {O : κ → Prop} (h : P.Follows stop after reads)
    (hafter : O after) (hsame : ∀ r ∈ reads, ∀ cursor, O cursor →
      Q.fetch r.1 cursor = P.fetch r.1 cursor)
    (hnext : ∀ r ∈ reads, ∀ cursor, P.fetch r.1 cursor = .ok r.2 →
      O (P.next r.2) ∧ Q.next r.2 = P.next r.2) : Q.Follows stop after reads := by
  induction h with
  | last hf hstop =>
    refine .last ?_ ?_
    · rw [hsame _ List.mem_cons_self _ hafter, hf]
    · rw [(hnext _ List.mem_cons_self _ hf).2, hstop]
  | more hf hmore _ ih =>
    obtain ⟨hok, heq⟩ := hnext _ List.mem_cons_self _ hf
    refine .more ?_ ?_ ?_
    · rw [hsame _ List.mem_cons_self _ hafter, hf]
    · rwa [heq]
    · rw [heq]
      exact ih hok (fun r hr => hsame r (List.mem_cons_of_mem _ hr))
        (fun r hr => hnext r (List.mem_cons_of_mem _ hr))

namespace Serves
variable (hP : P.Serves keys limit stop Good)
include hP

theorem listed_sorted {s : σ} {page : π} (hs : Good s) (h : P.fetch s after = .ok page) :
    (P.listed page).Pairwise (· < ·) := by
  rw [hP.listed s after page hs h]
  exact (above_sorted (hP.sorted s) after).sublist (List.take_sublist _ _)

theorem mem_listed {s : σ} {page : π} (hs : Good s) (h : P.fetch s after = .ok page) {k : κ}
    (hk : k ∈ P.listed page) : k ∈ keys s ∧ after < k := by
  rw [hP.listed s after page hs h] at hk
  exact mem_above.mp (List.mem_of_mem_take hk)

/-- Every key above the cursor is on this page, or the page ends with a cursor below it. -/
theorem mem_listed_or {s : σ} {page : π} (hs : Good s) (h : P.fetch s after = .ok page) {k : κ}
    (hk : k ∈ keys s) (hafter : after < k) :
    k ∈ P.listed page ∨ P.next page ≠ stop ∧ P.next page < k := by
  have hmem : k ∈ above after (keys s) := mem_above.mpr ⟨hk, hafter⟩
  by_cases hpage : k ∈ P.listed page
  · exact Or.inl hpage
  right
  rw [hP.listed s after page hs h] at hpage
  have hdrop : k ∈ (above after (keys s)).drop limit := by
    rw [← List.take_append_drop limit (above after (keys s))] at hmem
    exact (List.mem_append.mp hmem).resolve_left hpage
  have hlong : limit < (above after (keys s)).length := by
    by_contra hle
    rw [List.drop_eq_nil_of_le (not_lt.mp hle)] at hdrop
    simp at hdrop
  -- the cursor stands on this page, the key behind it
  have hlast := List.mem_of_getLast? (hP.goesOn s after page hs h hlong)
  refine ⟨((hP.stop_lt s hs _ (hP.mem_listed hs h hlast).1).ne'), ?_⟩
  have hsorted := above_sorted (hP.sorted s) after
  rw [← List.take_append_drop limit (above after (keys s))] at hsorted
  rw [hP.listed s after page hs h] at hlast
  exact (List.pairwise_append.mp hsorted).2.2 _ hlast k hdrop

/-- A page that is not the last one ends with its cursor. -/
theorem next_mem {s : σ} {page : π} (hs : Good s) (h : P.fetch s after = .ok page)
    (hmore : P.next page ≠ stop) : (P.listed page).getLast? = some (P.next page) := by
  apply hP.goesOn s after page hs h
  by_contra hle
  exact hmore (hP.ends s after page hs h (not_lt.mp hle))

/-- The cursor of a page is a key of the state, or `stop`. -/
theorem next_eq_or_mem {s : σ} {page : π} (hs : Good s) (h : P.fetch s after = .ok page) :
    P.next page = stop ∨ P.next page ∈ keys s := by
  by_cases hstop : P.next page = stop
  · exact Or.inl hstop
  · right
    exact (hP.mem_listed hs h (List.mem_of_getLast? (hP.next_mem hs h hstop))).1

section Follows
variable (h : P.Follows stop after reads) (hgood : ∀ r ∈ reads, Good r.1)
include h hgood

/-- The keys come in increasing order, over all pages. -/
theorem follows_sorted :
    (P.listedBy reads).Pairwise (· < ·) ∧ ∀ k ∈ P.listedBy reads, after < k := by
  induction h with
  | last hf _ =>
    have hs := hgood _ List.mem_cons_self
    simp only [listedBy, List.flatMap_cons, List.flatMap_nil, List.append_nil]
    exact ⟨hP.listed_sorted hs hf, fun k hk => (hP.mem_listed hs hf hk).2⟩
  | more hf hmore _ ih =>
    have hs := hgood _ List.mem_cons_self
    obtain ⟨hrest, habove⟩ := ih (fun r hr => hgood r (List.mem_cons_of_mem _ hr))
    have hlast := hP.next_mem hs hf hmore
    have hsorted := hP.listed_sorted hs hf
    have hnext := (hP.mem_listed hs hf (List.mem_of_getLast? hlast)).2
    simp only [listedBy, List.flatMap_cons] at hrest habove ⊢
    refine ⟨List.pairwise_append.mpr ⟨hsorted, hrest, ?_⟩, ?_⟩
    · intro a ha b hb
      exact (le_getLast hsorted hlast ha).trans_lt (habove b hb)
    · intro k hk
      rcases List.mem_append.mp hk with hk | hk
      · exact (hP.mem_listed hs hf hk).2
      · exact hnext.trans (habove k hk)

/-- A key that is there whenever a page is read is listed. -/
theorem follows_complete {k : κ} (hk : ∀ r ∈ reads, k ∈ keys r.1) (hafter : after < k) :
    k ∈ P.listedBy reads := by
  induction h with
  | last hf hstop =>
    have hs := hgood _ List.mem_cons_self
    simp only [listedBy, List.flatMap_cons, List.flatMap_nil, List.append_nil]
    exact (hP.mem_listed_or hs hf (hk _ List.mem_cons_self) hafter).resolve_right
      (fun hmore => hmore.1 hstop)
  | more hf _ _ ih =>
    have hs := hgood _ List.mem_cons_self
    simp only [listedBy, List.flatMap_cons, List.mem_append] at ih ⊢
    rcases hP.mem_listed_or hs hf (hk _ List.mem_cons_self) hafter with hpage | hnext
    · exact Or.inl hpage
    · right
      exact ih (fun r hr => hgood r (List.mem_cons_of_mem _ hr))
        (fun r hr => hk r (List.mem_cons_of_mem _ hr)) hnext.2

theorem follows_mem {r : σ × π} (hr : r ∈ reads) {k : κ} (hk : k ∈ P.listed r.2) :
    k ∈ keys r.1 := by
  obtain ⟨cursor, hf⟩ := h.fetched hr
  exact (hP.mem_listed (hgood r hr) hf hk).1

/-- A state that does not change is listed completely. -/
theorem follows_constant {s : σ} (hs : ∀ r ∈ reads, r.1 = s) :
    P.listedBy reads = above after (keys s) := by
  obtain ⟨hsorted, habove⟩ := hP.follows_sorted h hgood
  apply hsorted.eq_of_mem_iff (above_sorted (hP.sorted s) after)
  intro k
  rw [mem_above]
  constructor
  · intro hk
    obtain ⟨r, hr, hkr⟩ := List.mem_flatMap.mp hk
    have hmem := hP.follows_mem h hgood hr hkr
    rw [hs r hr] at hmem
    exact ⟨hmem, habove k hk⟩
  · intro hk
    apply hP.follows_complete h hgood _ hk.2
    intro r hr
    rw [hs r hr]
    exact hk.1

end Follows

/-- From the first cursor to the last, the pages of a state list all its keys. -/
theorem follows_whole (h : P.Follows stop stop reads) (hgood : ∀ r ∈ reads, Good r.1) {s : σ}
    (hs : ∀ r ∈ reads, r.1 = s) : P.listedBy reads = keys s := by
  rw [hP.follows_constant h hgood hs]
  obtain ⟨init, r, rfl, -⟩ := h.next_eq_stop
  have hr : r ∈ init ++ [r] := by simp
  have hgood : Good s := hs r hr ▸ hgood r hr
  apply List.filter_eq_self.mpr
  intro k hk
  exact decide_eq_true (hP.stop_lt s hgood k hk)

/-- Following the cursors in a state that does not change comes to an end. -/
theorem exists_follows {s : σ} (hs : Good s)
    (htotal : ∀ after, ∃ page, P.fetch s after = .ok page) (after : κ) :
    ∃ reads, P.Follows stop after reads ∧ ∀ r ∈ reads, r.1 = s := by
  -- the cursor moves up, so fewer and fewer keys are above it
  induction hn : (above after (keys s)).length using Nat.strong_induction_on generalizing after with
  | _ n ih =>
    obtain ⟨page, hf⟩ := htotal after
    by_cases hstop : P.next page = stop
    · exact ⟨_, Follows.last hf hstop, by simp⟩
    · have hlast := List.mem_of_getLast? (hP.next_mem hs hf hstop)
      obtain ⟨hkey, hup⟩ := hP.mem_listed hs hf hlast
      have hsub : above (P.next page) (keys s) = above (P.next page) (above after (keys s)) := by
        rw [above, above, above, List.filter_filter]
        apply List.filter_congr
        intro k _
        simp only [Bool.and_eq_decide, decide_eq_decide, decide_eq_true_eq]
        exact ⟨fun hlt => ⟨hlt, hup.trans hlt⟩, fun hlt => hlt.1⟩
      have hfewer : (above (P.next page) (keys s)).length < n := by
        rw [hsub, ← hn, above, List.length_filter_lt_length_iff_exists]
        exact ⟨P.next page, mem_above.mpr ⟨hkey, hup⟩, by simp⟩
      obtain ⟨reads, hreads, hsame⟩ := ih _ hfewer (P.next page) rfl
      refine ⟨_, Follows.more hf hstop hreads, ?_⟩
      intro r hr
      rcases List.mem_cons.mp hr with rfl | hr
      · rfl
      · exact hsame r hr

end Serves
end Pager
end Paging
