import BasisDB.KvPages

/-! Pages of namespaces: one pass over the names counts the keys of each namespace, and a page
ends only when a further namespace begins, so no count is cut short. -/
namespace BasisDB.Kv.Browse
open Paging

/-- A page with one row for each namespace among some names, counting how often it occurs. -/
structure Tally (names : List String) (page : List Namespace) : Prop where
  sorted : (page.map Namespace.name).Pairwise (· < ·)
  mem_iff : ∀ n, n ∈ page.map Namespace.name ↔ n ∈ names
  count : ∀ row ∈ page, row.keyCount = names.count row.name

variable {names : List String} {page : List Namespace} {n startAfter : String} {limit : ℕ}

theorem Tally.nil : Tally [] [] := ⟨List.Pairwise.nil, by simp, by simp⟩

/-- The last row is that of the largest name. -/
theorem Tally.last_eq (h : Tally names page) (hn : n ∈ names) (hmax : ∀ m ∈ names, m ≤ n) :
    ∃ init row, page = init ++ [row] ∧ row.name = n := by
  have hmem := (h.mem_iff n).mpr hn
  rcases List.eq_nil_or_concat' page with rfl | ⟨init, row, rfl⟩
  · simp at hmem
  · refine ⟨init, row, rfl, ?_⟩
    have hrow : row.name ∈ names := by
      apply (h.mem_iff _).mp
      simp
    apply le_antisymm (hmax _ hrow)
    apply le_getLast h.sorted _ hmem
    simp

theorem Tally.push_new (h : Tally names page) (hn : n ∉ names) (hmax : ∀ m ∈ names, m ≤ n) :
    Tally (names ++ [n]) (page ++ [⟨n, 1⟩]) := by
  have hlt (m : String) (hm : m ∈ names) : m < n := by
    apply lt_of_le_of_ne (hmax m hm)
    rintro rfl
    exact hn hm
  refine ⟨?_, ?_, ?_⟩
  · rw [List.map_append, List.pairwise_append]
    refine ⟨h.sorted, List.pairwise_singleton _ _, ?_⟩
    intro m hm k hk
    rw [List.mem_singleton.mp hk]
    exact hlt m ((h.mem_iff m).mp hm)
  · intro m
    rw [List.map_append, List.mem_append, List.mem_append, h.mem_iff]
    simp
  · intro row hrow
    rw [List.count_append]
    rcases List.mem_append.mp hrow with hold | hnew
    · have hm : row.name ∈ names := (h.mem_iff _).mp (List.mem_map_of_mem hold)
      have hne : row.name ≠ n := (hlt _ hm).ne
      rw [h.count row hold, List.count_singleton, beq_eq_false_iff_ne.mpr hne.symm]
      rfl
    · rw [List.mem_singleton.mp hnew, List.count_eq_zero_of_not_mem hn]
      simp

theorem Tally.push_last {init : List Namespace} {row : Namespace}
    (h : Tally names (init ++ [row])) :
    Tally (names ++ [row.name]) (init ++ [{ row with keyCount := row.keyCount + 1 }]) := by
  have hnames : (init ++ [{ row with keyCount := row.keyCount + 1 }]).map Namespace.name =
      (init ++ [row]).map Namespace.name := by simp
  refine ⟨by rw [hnames]; exact h.sorted, ?_, ?_⟩
  · intro m
    have hrow : row.name ∈ names := (h.mem_iff _).mp (by simp)
    rw [hnames, h.mem_iff, List.mem_append, List.mem_singleton]
    constructor
    · exact Or.inl
    · intro hm
      rcases hm with hm | rfl
      · exact hm
      · exact hrow
  · intro q hq
    rw [List.count_append]
    rcases List.mem_append.mp hq with hinit | hlast
    · have hsorted := h.sorted
      rw [List.map_append, List.pairwise_append] at hsorted
      have hne : q.name ≠ row.name :=
        (hsorted.2.2 _ (List.mem_map_of_mem hinit) _ (by simp)).ne
      rw [h.count q (List.mem_append_left _ hinit), List.count_singleton,
        beq_eq_false_iff_ne.mpr hne.symm]
      rfl
    · rw [List.mem_singleton.mp hlast, h.count row (by simp)]
      simp

theorem countKey_concat (init : List Namespace) {row : Namespace}
    (h : row.keyCount + 1 < 2 ^ 64) :
    countKey (init ++ [row]) = .ok (init ++ [{ row with keyCount := row.keyCount + 1 }]) := by
  have hlen : (init ++ [row]).length - 1 = init.length := by simp
  have hsucc : checkedSucc row.keyCount = some (row.keyCount + 1) := if_pos h
  rw [countKey, hlen]
  simp [hsucc]

/-- The namespaces that the loop looks at. -/
def scanned (startAfter : String) (bs : List (KvName × KvRecord)) : List String :=
  (bs.map (fun b => b.1.namespace_)).filter (fun n => decide (n ≠ startAfter))

/-- How a page stands to the names behind those it counts: there are none, or the page is full
and the next name is a new one. -/
def EndsAt (limit : ℕ) (names rest : List String) (resp : ListNamespacesResponse) : Prop :=
  (rest = [] ∧ resp.nextStartAfter = "") ∨
  (∃ n tail, rest = n :: tail ∧ n ∉ names) ∧ resp.namespaces.length = limit ∧
    (resp.namespaces.map Namespace.name).getLast? = some resp.nextStartAfter

/-- The loop counts a beginning of the names and ends between two namespaces. -/
theorem namespacesFrom_ok (hlimit : 0 < limit) {bs : List (KvName × KvRecord)}
    (htally : Tally names page) (hpage : page.length ≤ limit)
    (hsorted : (names ++ scanned startAfter bs).Pairwise (· ≤ ·))
    (hcount : ∀ n, (names ++ scanned startAfter bs).count n < 2 ^ 64) :
    ∃ resp counted rest, namespacesFrom startAfter limit page bs = .ok resp ∧
      names ++ scanned startAfter bs = counted ++ rest ∧ Tally counted resp.namespaces ∧
      resp.namespaces.length ≤ limit ∧ EndsAt limit counted rest resp := by
  induction bs generalizing names page with
  | nil =>
    refine ⟨⟨page, ""⟩, names, [], rfl, rfl, htally, hpage, Or.inl ⟨rfl, rfl⟩⟩
  | cons b bs ih =>
    rw [namespacesFrom]
    by_cases hskip : b.1.namespace_ = startAfter
    · have hscan : scanned startAfter (b :: bs) = scanned startAfter bs := by
        rw [scanned, List.map_cons, List.filter_cons_of_neg (by simpa using hskip)]
        rfl
      rw [if_pos hskip]
      rw [hscan] at hsorted hcount ⊢
      exact ih htally hpage hsorted hcount
    · have hscan : scanned startAfter (b :: bs) =
          b.1.namespace_ :: scanned startAfter bs := by
        rw [scanned, List.map_cons, List.filter_cons_of_pos (by simpa using hskip)]
        rfl
      have hmove : names ++ b.1.namespace_ :: scanned startAfter bs =
          (names ++ [b.1.namespace_]) ++ scanned startAfter bs := by simp
      have hmax : ∀ m ∈ names, m ≤ b.1.namespace_ := by
        intro m hm
        rw [hscan] at hsorted
        exact (List.pairwise_append.mp hsorted).2.2 m hm _ List.mem_cons_self
      rw [if_neg hskip]
      rw [hscan] at hsorted hcount ⊢
      by_cases hnew : b.1.namespace_ ∈ names
      · -- one more key of the last namespace
        obtain ⟨init, row, rfl, hrow⟩ := htally.last_eq hnew hmax
        have hfits : row.keyCount + 1 < 2 ^ 64 := by
          have hbound := hcount row.name
          rw [htally.count row (by simp)]
          rw [List.count_append, ← hrow, List.count_cons_self] at hbound
          omega
        have hsame : ¬ (init ++ [row]).getLast?.all
            (fun last => decide (last.name ≠ b.1.namespace_)) = true := by
          simp [hrow]
        rw [if_neg hsame, countKey_concat init hfits, hmove, ← hrow]
        rw [hmove, ← hrow] at hsorted hcount
        exact ih htally.push_last (by simpa using hpage) hsorted hcount
      · have hother : page.getLast?.all
            (fun last => decide (last.name ≠ b.1.namespace_)) = true := by
          rw [Option.all_eq_true]
          intro last hlast
          apply decide_eq_true
          intro heq
          apply hnew
          rw [← heq]
          exact (htally.mem_iff _).mp (List.mem_map_of_mem (List.mem_of_getLast? hlast))
        rw [if_pos hother]
        by_cases hfull : page.length = limit
        · -- the page is full: the new namespace is left for the next one
          rw [if_pos hfull]
          refine ⟨_, names, _, rfl, rfl, htally, hpage, Or.inr ⟨⟨_, _, rfl, hnew⟩, hfull, ?_⟩⟩
          have hlt : limit - 1 < page.length := by omega
          have hlast : page.getLast? = page[limit - 1]? := by
            rw [List.getLast?_eq_getElem?, hfull]
          rw [List.getLast?_map, hlast, List.getElem?_eq_getElem hlt]
          rfl
        · have hpush := htally.push_new hnew hmax
          rw [if_neg hfull, countKey_concat page (by simp), hmove]
          rw [hmove] at hsorted hcount
          apply ih hpush _ hsorted hcount
          rw [List.length_append, List.length_singleton]
          omega

/-- The namespaces of the state that have a key, in order. -/
def occupied (state : KvState) : List String :=
  (state.entries.toList.map (fun b => b.1.namespace_)).dedup

/-- The number of keys of a namespace. -/
def keyCount (state : KvState) (n : String) : ℕ :=
  (state.entries.toList.map (fun b => b.1.namespace_)).count n

/-- Names have a namespace, and no namespace has more keys than a `u64` can count. -/
structure Countable (state : KvState) : Prop where
  nonempty : ∀ name record, state.entries.get name = some record → name.namespace_ ≠ ""
  count_lt : ∀ n, keyCount state n < 2 ^ 64

theorem namespaces_sorted (state : KvState) :
    (state.entries.toList.map (fun b => b.1.namespace_)).Pairwise (· ≤ ·) := by
  rw [List.pairwise_map]
  apply state.entries.sorted.imp
  intro a b hab
  rcases KvName.lt_iff.mp hab with hlt | ⟨heq, -⟩
  · exact hlt.le
  · exact heq.le

/-- Equal neighbours aside, an increasing list is strictly increasing. -/
theorem dedup_sorted {ns : List String} (h : ns.Pairwise (· ≤ ·)) :
    ns.dedup.Pairwise (· < ·) := by
  have hle : ns.dedup.Pairwise (· ≤ ·) := h.sublist (List.dedup_sublist ns)
  apply hle.imp₂ _ ns.nodup_dedup
  intro a b hab hne
  exact lt_of_le_of_ne hab hne

/-- The scan sees exactly the namespaces above the cursor. -/
theorem scanned_rangeFrom (state : KvState) (startAfter : String) :
    scanned startAfter (state.entries.rangeFrom ⟨startAfter, ""⟩) =
      above startAfter (state.entries.toList.map (fun b => b.1.namespace_)) := by
  rw [scanned, above, OrdMap.rangeFrom, List.filter_map, List.filter_map, List.filter_filter]
  congr 1
  apply List.filter_congr
  intro b _
  rw [Bool.eq_iff_iff]
  simp only [Function.comp_apply, Bool.and_eq_true, decide_eq_true_eq, KvName.le_iff]
  constructor
  · intro h
    obtain ⟨hne, hlt | ⟨heq, -⟩⟩ := h
    · exact hlt
    · exact absurd heq.symm hne
  · intro hlt
    exact ⟨hlt.ne', Or.inl hlt⟩

theorem mem_occupied {state : KvState} : n ∈ occupied state ↔ 0 < keyCount state n := by
  rw [occupied, List.mem_dedup, keyCount, List.count_pos_iff]

theorem occupied_sorted (state : KvState) : (occupied state).Pairwise (· < ·) :=
  dedup_sorted (namespaces_sorted state)

/-- A page that ends between two namespaces has a part of the names on it and the rest of them
behind it. -/
theorem EndsAt.lt {counted rest : List String} {resp : ListNamespacesResponse}
    (h : EndsAt limit counted rest resp) (hsorted : (counted ++ rest).Pairwise (· ≤ ·)) {m k : String}
    (hm : m ∈ counted) (hk : k ∈ rest) : m < k := by
  obtain ⟨-, hrest, hcross⟩ := List.pairwise_append.mp hsorted
  rcases h with ⟨rfl, -⟩ | ⟨⟨n, tail, rfl, hnew⟩, -⟩
  · simp at hk
  · have hmn : m < n := by
      apply lt_of_le_of_ne (hcross m hm n List.mem_cons_self)
      rintro rfl
      exact hnew hm
    rcases List.mem_cons.mp hk with rfl | hk
    · exact hmn
    · exact hmn.trans_le ((List.pairwise_cons.mp hrest).1 k hk)

/-- One page of namespaces: the first ones above the cursor, with all their keys counted. -/
theorem namespaces_ok (hlimit : 0 < limit) {state : KvState} (hstate : Countable state)
    (startAfter : String) :
    ∃ resp, namespaces state startAfter limit = .ok resp ∧
      resp.namespaces.map Namespace.name = (above startAfter (occupied state)).take limit ∧
      ((above startAfter (occupied state)).length ≤ limit → resp.nextStartAfter = "") ∧
      (limit < (above startAfter (occupied state)).length →
        (resp.namespaces.map Namespace.name).getLast? = some resp.nextStartAfter) ∧
      ∀ row ∈ resp.namespaces, row.keyCount = keyCount state row.name := by
  have hscan := scanned_rangeFrom state startAfter
  have hsorted : (above startAfter
      (state.entries.toList.map (fun b => b.1.namespace_))).Pairwise (· ≤ ·) :=
    (namespaces_sorted state).filter _
  have hcount : ∀ n, (above startAfter
      (state.entries.toList.map (fun b => b.1.namespace_))).count n < 2 ^ 64 :=
    fun n => (List.filter_sublist.count_le n).trans_lt (hstate.count_lt n)
  rw [← hscan] at hsorted hcount
  obtain ⟨resp, counted, rest, hresp, hsplit, htally, hlen, hends⟩ :=
    namespacesFrom_ok hlimit Tally.nil (Nat.zero_le _) hsorted hcount
  rw [hscan] at hsorted
  rw [List.nil_append, hscan] at hsplit
  rw [hsplit] at hsorted
  -- the namespaces above the cursor: those on the page, then the others
  have hall : above startAfter (occupied state) =
      resp.namespaces.map Namespace.name ++ rest.dedup := by
    have hdedup : rest.dedup.Pairwise (· < ·) :=
      dedup_sorted (List.pairwise_append.mp hsorted).2.1
    apply (above_sorted (occupied_sorted state) startAfter).eq_of_mem_iff
    · refine List.pairwise_append.mpr ⟨htally.sorted, hdedup, ?_⟩
      intro m hm k hk
      exact hends.lt hsorted ((htally.mem_iff m).mp hm) (List.mem_dedup.mp hk)
    · intro k
      rw [List.mem_append, htally.mem_iff, List.mem_dedup, ← List.mem_append, ← hsplit, mem_above,
        mem_above, occupied, List.mem_dedup]
  refine ⟨resp, hresp, ?_, ?_, ?_, ?_⟩
  · rw [hall]
    rcases hends with ⟨rfl, -⟩ | ⟨-, hfull, -⟩
    · rw [List.dedup_nil, List.append_nil, List.take_of_length_le (by rwa [List.length_map])]
    · rw [← hfull, ← List.length_map (f := Namespace.name), List.take_left]
  · intro hshort
    rcases hends with ⟨-, hnext⟩ | ⟨⟨n, tail, rfl, -⟩, hfull, -⟩
    · exact hnext
    · have hmore : 0 < (n :: tail).dedup.length := by
        apply List.length_pos_of_mem
        exact List.mem_dedup.mpr List.mem_cons_self
      rw [hall, List.length_append, List.length_map, hfull] at hshort
      omega
  · intro hlong
    rcases hends with ⟨rfl, -⟩ | ⟨-, -, hlast⟩
    · rw [hall, List.dedup_nil, List.append_nil, List.length_map] at hlong
      omega
    · exact hlast
  · intro row hrow
    have hcounted : row.name ∈ counted := (htally.mem_iff _).mp (List.mem_map_of_mem hrow)
    have habove : row.name ∈ above startAfter (state.entries.toList.map
        (fun b => b.1.namespace_)) := by
      rw [hsplit]
      exact List.mem_append_left _ hcounted
    have hnone : rest.count row.name = 0 := by
      apply List.count_eq_zero_of_not_mem
      intro hrest
      exact lt_irrefl _ (hends.lt hsorted hcounted hrest)
    calc row.keyCount
        = counted.count row.name := htally.count row hrow
      _ = (counted ++ rest).count row.name := by rw [List.count_append, hnone, Nat.add_zero]
      _ = keyCount state row.name := by
          rw [← hsplit]
          exact List.count_filter (decide_eq_true (mem_above.mp habove).2)

/-- Every row that is answered has the number of keys of its namespace. -/
theorem keyCount_of_fetched (hlimit : 0 < limit) {state : KvState} (hstate : Countable state)
    {resp : ListNamespacesResponse} (h : namespaces state startAfter limit = .ok resp) :
    ∀ row ∈ resp.namespaces, row.keyCount = keyCount state row.name := by
  obtain ⟨resp', hresp, -, -, -, hcount⟩ := namespaces_ok hlimit hstate startAfter
  obtain rfl : resp' = resp := Except.ok.inj (hresp.symm.trans h)
  exact hcount

/-- `namespaces` as a service of pages. -/
def namespacePager (limit : ℕ) :
    Pager KvState ListNamespacesResponse String ConnectError where
  fetch state startAfter := namespaces state startAfter limit
  listed page := page.namespaces.map Namespace.name
  next page := page.nextStartAfter

theorem namespacePager_serves (hlimit : 0 < limit) :
    (namespacePager limit).Serves occupied limit "" Countable := by
  have hpage (state : KvState) (startAfter : String) (page : ListNamespacesResponse)
      (hstate : Countable state) (h : (namespacePager limit).fetch state startAfter = .ok page) :
      page.namespaces.map Namespace.name = (above startAfter (occupied state)).take limit ∧
      ((above startAfter (occupied state)).length ≤ limit → page.nextStartAfter = "") ∧
      (limit < (above startAfter (occupied state)).length →
        (page.namespaces.map Namespace.name).getLast? = some page.nextStartAfter) := by
    obtain ⟨resp, hresp, hlisted, hends, hgoes, -⟩ := namespaces_ok hlimit hstate startAfter
    obtain rfl : resp = page := Except.ok.inj (hresp.symm.trans h)
    exact ⟨hlisted, hends, hgoes⟩
  refine ⟨occupied_sorted, ?_, ?_, ?_, ?_⟩
  · intro state hstate n hn
    obtain ⟨b, hb, rfl⟩ := List.mem_map.mp (List.mem_dedup.mp hn)
    exact empty_lt (hstate.nonempty b.1 b.2 ((state.entries.get_eq_some_iff _ _).mpr hb))
  · intro state startAfter page hstate h
    exact (hpage state startAfter page hstate h).1
  · intro state startAfter page hstate h
    exact (hpage state startAfter page hstate h).2.1
  · intro state startAfter page hstate h
    exact (hpage state startAfter page hstate h).2.2

/-- Following the cursor of a namespace listing lists every namespace with a key once, in
order, with the number of its keys. -/
theorem namespace_pages_exact (requested : ℕ) (hlimit : pageLimit requested = .ok limit)
    (state : KvState) (hstate : Countable state) :
    (∃ reads, (namespacePager limit).Follows "" "" reads ∧ ∀ r ∈ reads, r.1 = state) ∧
    ∀ reads, (namespacePager limit).Follows "" "" reads → (∀ r ∈ reads, r.1 = state) →
      let rows := reads.flatMap (fun r => r.2.namespaces)
      (rows.map Namespace.name).Pairwise (· < ·) ∧
      (∀ n, n ∈ rows.map Namespace.name ↔ 0 < keyCount state n) ∧
      ∀ row ∈ rows, row.keyCount = keyCount state row.name := by
  have hpos : 0 < limit := (pageLimit_ok hlimit).1
  have hserves := namespacePager_serves hpos
  constructor
  · apply hserves.exists_follows hstate
    intro startAfter
    obtain ⟨resp, hresp, -⟩ := namespaces_ok hpos hstate startAfter
    exact ⟨resp, hresp⟩
  · intro reads hreads hsame rows
    have hgood : ∀ r ∈ reads, Countable r.1 := fun r hr => hsame r hr ▸ hstate
    have hnames : rows.map Namespace.name = (namespacePager limit).listedBy reads :=
      List.map_flatMap
    have hall := hserves.follows_whole hreads hgood hsame
    refine ⟨?_, ?_, ?_⟩
    · rw [hnames, hall]
      exact occupied_sorted state
    · intro n
      rw [hnames, hall]
      exact mem_occupied
    · intro row hrow
      obtain ⟨r, hr, hrow⟩ := List.mem_flatMap.mp hrow
      obtain ⟨cursor, hfetched⟩ := hreads.fetched hr
      rw [← hsame r hr]
      exact keyCount_of_fetched hpos (hgood r hr) hfetched row hrow

/-- Three namespaces, one of them a beginning of another. -/
def regions : KvState :=
  { KvState.new with
    entries := (((OrdMap.empty.insert ⟨"eu", "b"⟩ ⟨[2], "v2", 2⟩).insert
      ⟨"eu-west", "a"⟩ ⟨[1], "v1", 1⟩).insert ⟨"eu", "a"⟩ ⟨[3], "v3", 3⟩).insert
      ⟨"us", "a"⟩ ⟨[], "v4", 4⟩ }

/-- The first page ends with the last key of its second namespace. -/
def regionPages : List (KvState × ListNamespacesResponse) :=
  [(regions, ⟨[⟨"eu", 2⟩, ⟨"eu-west", 1⟩], "eu-west"⟩), (regions, ⟨[⟨"us", 1⟩], ""⟩)]

theorem regionPages_follows : (namespacePager 2).Follows "" "" regionPages := by
  have hfirst : namespaces regions "" 2 =
      .ok ⟨[⟨"eu", 2⟩, ⟨"eu-west", 1⟩], "eu-west"⟩ := by decide +kernel
  have hsecond : namespaces regions "eu-west" 2 = .ok ⟨[⟨"us", 1⟩], ""⟩ := by decide +kernel
  exact .more hfirst (by decide) (.last hsecond rfl)

theorem regions_countable : Countable regions := by
  refine ⟨?_, ?_⟩
  · intro name record hget
    have hall : ∀ b ∈ regions.entries.toList, b.1.namespace_ ≠ "" := by decide +kernel
    exact hall _ ((regions.entries.get_eq_some_iff _ _).mp hget)
  · intro n
    have hlen : (regions.entries.toList.map (fun b => b.1.namespace_)).length = 4 := by
      decide +kernel
    have hle : keyCount regions n ≤ 4 := hlen ▸ List.count_le_length
    omega

theorem namespace_pages_exact_regionPages :
    ((regionPages.flatMap (fun r => r.2.namespaces)).map Namespace.name).Pairwise (· < ·) ∧
    (⟨"eu", 2⟩ : Namespace) ∈ regionPages.flatMap (fun r => r.2.namespaces) ∧
    keyCount regions "eu" = 2 := by
  obtain ⟨-, hreads⟩ := namespace_pages_exact 2 (pageLimit_self (show 1 ≤ 2 by decide)
    (by decide)) regions regions_countable
  obtain ⟨hsorted, -, hcount⟩ := hreads regionPages regionPages_follows (by simp [regionPages])
  have hrow : (⟨"eu", 2⟩ : Namespace) ∈ regionPages.flatMap (fun r => r.2.namespaces) := by
    simp [regionPages]
  exact ⟨hsorted, hrow, (hcount _ hrow).symm⟩

end BasisDB.Kv.Browse
