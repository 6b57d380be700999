import BasisDB.KvBrowse
import BasisDB.Paging

/-! Pages of the keys of a namespace: the keys with a prefix stand together in the order of
names, so the scan of one page may stop at the first key without it. -/
namespace BasisDB.Kv

theorem KvName.le_iff {a b : KvName} :
    a ≤ b ↔ a.namespace_ < b.namespace_ ∨ a.namespace_ = b.namespace_ ∧ a.key ≤ b.key :=
  Prod.Lex.toLex_le_toLex

theorem KvName.lt_iff {a b : KvName} :
    a < b ↔ a.namespace_ < b.namespace_ ∨ a.namespace_ = b.namespace_ ∧ a.key < b.key :=
  Prod.Lex.toLex_lt_toLex

namespace Browse
open Paging

section Strings

/-- A list between a prefix and an extension of it extends it too. -/
theorem isPrefix_of_between {p a b : List Char} (hpa : ¬ a < p) (hab : ¬ b < a)
    (hpb : p <+: b) : p <+: a := by
  induction p generalizing a b with
  | nil => exact List.nil_prefix
  | cons x p ih =>
    obtain ⟨tail, rfl⟩ := hpb
    cases a with
    | nil => exact absurd (List.nil_lt_cons x p) hpa
    | cons y a =>
      rw [List.cons_append, List.cons_lt_cons_iff] at hab
      rw [List.cons_lt_cons_iff] at hpa
      push Not at hpa hab
      obtain rfl : y = x := le_antisymm hab.1 hpa.1
      rw [List.cons_prefix_cons]
      exact ⟨rfl, ih (hpa.2 rfl).not_gt (hab.2 rfl).not_gt (List.prefix_append p tail)⟩

theorem not_lt_of_isPrefix {p a : List Char} (h : p <+: a) : ¬ a < p := by
  induction p generalizing a with
  | nil => exact List.not_lt_nil a
  | cons x p ih =>
    obtain ⟨tail, rfl⟩ := h
    rw [List.cons_append, List.cons_lt_cons_iff]
    push Not
    exact ⟨le_rfl, fun _ => not_lt.mp (ih (List.prefix_append p tail))⟩

variable {key key' keyPrefix : String}

theorem startsWith_iff : startsWith key keyPrefix = true ↔ keyPrefix.toList <+: key.toList :=
  List.isPrefixOf_iff_prefix

theorem le_of_startsWith (h : startsWith key keyPrefix = true) : keyPrefix ≤ key := by
  rw [← not_lt, String.lt_iff_toList_lt]
  exact not_lt_of_isPrefix (startsWith_iff.mp h)

theorem startsWith_of_between (hlow : keyPrefix ≤ key) (hle : key ≤ key')
    (h : startsWith key' keyPrefix = true) : startsWith key keyPrefix = true := by
  rw [← not_lt, String.lt_iff_toList_lt] at hlow hle
  exact startsWith_iff.mpr (isPrefix_of_between hlow hle (startsWith_iff.mp h))

end Strings

/-- The names that a listing is about. -/
def Matches (namespace_ keyPrefix : String) (name : KvName) : Bool :=
  decide (name.namespace_ = namespace_) && startsWith name.key keyPrefix

/-- The keys of the state with a prefix, in order. -/
def matchingKeys (namespace_ keyPrefix : String) (state : KvState) : List String :=
  (state.entries.toList.filter (fun b => Matches namespace_ keyPrefix b.1)).map (fun b => b.1.key)

/-- The row of a binding. -/
def headOf (b : KvName × KvRecord) : HeadResponse :=
  ⟨b.1.namespace_, b.1.key, b.2.etag, b.2.generation, b.2.body.length⟩

variable {namespace_ keyPrefix startAfter : String} {limit : ℕ}

theorem matches_iff {name : KvName} : Matches namespace_ keyPrefix name = true ↔
    name.namespace_ = namespace_ ∧ startsWith name.key keyPrefix = true := by
  simp [Matches]

theorem mem_matchingKeys {state : KvState} {key : String} :
    key ∈ matchingKeys namespace_ keyPrefix state ↔
      startsWith key keyPrefix = true ∧ (state.entries.get ⟨namespace_, key⟩).isSome = true := by
  rw [matchingKeys, List.mem_map]
  constructor
  · intro h
    obtain ⟨b, hb, rfl⟩ := h
    obtain ⟨hmem, hmatch⟩ := List.mem_filter.mp hb
    obtain ⟨rfl, hstarts⟩ := matches_iff.mp hmatch
    have hget : state.entries.get b.1 = some b.2 := (state.entries.get_eq_some_iff _ _).mpr hmem
    exact ⟨hstarts, by rw [hget]; rfl⟩
  · intro h
    obtain ⟨record, hrecord⟩ := Option.isSome_iff_exists.mp h.2
    refine ⟨(⟨namespace_, key⟩, record), ?_, rfl⟩
    rw [List.mem_filter]
    exact ⟨(state.entries.get_eq_some_iff _ _).mp hrecord, matches_iff.mpr ⟨rfl, h.1⟩⟩

theorem matchingKeys_sorted (namespace_ keyPrefix : String) (state : KvState) :
    (matchingKeys namespace_ keyPrefix state).Pairwise (· < ·) := by
  rw [matchingKeys, List.pairwise_map]
  apply (state.entries.sorted.filter _).imp_of_mem
  intro a b ha hb hab
  have hna := (matches_iff.mp (List.mem_filter.mp ha).2).1
  have hnb := (matches_iff.mp (List.mem_filter.mp hb).2).1
  rw [KvName.lt_iff, hna, hnb] at hab
  exact (hab.resolve_left (lt_irrefl _)).2

/-- The bindings that a page is filled from. -/
def candidates (namespace_ keyPrefix startAfter : String) (bs : List (KvName × KvRecord)) :
    List (KvName × KvRecord) :=
  bs.filter (fun b => Matches namespace_ keyPrefix b.1 && decide (startAfter < b.1.key))

/-- In the scanned range a name that does not match has no match behind it. -/
theorem range_scan (state : KvState) (namespace_ keyPrefix startAfter : String) :
    (state.entries.rangeFrom ⟨namespace_, max keyPrefix startAfter⟩).Pairwise
      (fun a b => Matches namespace_ keyPrefix a.1 = false →
        Matches namespace_ keyPrefix b.1 = false) := by
  apply (state.entries.sorted.filter _).imp_of_mem
  intro a b ha _ hab hno
  by_contra hmatch
  obtain ⟨hnb, hstarts⟩ := matches_iff.mp (Bool.eq_true_of_not_eq_false hmatch)
  have hstart := of_decide_eq_true (List.mem_filter.mp ha).2
  rw [KvName.le_iff] at hstart
  rw [KvName.lt_iff, hnb] at hab
  -- `a` is squeezed between the start of the range and a name of the namespace
  have hna : a.1.namespace_ = namespace_ := by
    rcases hstart with hlt | ⟨heq, -⟩
    · rcases hab with hgt | ⟨heq, -⟩
      · exact absurd hgt hlt.asymm
      · exact heq
    · exact heq.symm
  have hlow : keyPrefix ≤ a.1.key := by
    rcases hstart with hlt | ⟨-, hle⟩
    · exact absurd hna hlt.ne'
    · exact (le_max_left _ _).trans hle
  have hle : a.1.key ≤ b.1.key := by
    rcases hab with hlt | ⟨-, hlt⟩
    · exact absurd hna hlt.ne
    · exact hlt.le
  have hyes : Matches namespace_ keyPrefix a.1 = true :=
    matches_iff.mpr ⟨hna, startsWith_of_between hlow hle hstarts⟩
  rw [hno] at hyes
  cases hyes

/-- Nothing that could go on a page stands below the scanned range. -/
theorem candidates_rangeFrom (state : KvState) :
    candidates namespace_ keyPrefix startAfter
        (state.entries.rangeFrom ⟨namespace_, max keyPrefix startAfter⟩) =
      candidates namespace_ keyPrefix startAfter state.entries.toList := by
  rw [candidates, candidates, OrdMap.rangeFrom, List.filter_filter]
  apply List.filter_congr
  intro b _
  rw [Bool.and_eq_left_iff_imp]
  intro hb
  obtain ⟨hmatch, hafter⟩ := Bool.and_eq_true_iff.mp hb
  obtain ⟨hns, hstarts⟩ := matches_iff.mp hmatch
  apply decide_eq_true
  rw [KvName.le_iff]
  exact Or.inr ⟨hns.symm, max_le (le_of_startsWith hstarts) (of_decide_eq_true hafter).le⟩

theorem candidates_keys (state : KvState) :
    (candidates namespace_ keyPrefix startAfter state.entries.toList).map (fun b => b.1.key) =
      above startAfter (matchingKeys namespace_ keyPrefix state) := by
  rw [candidates, above, matchingKeys, List.filter_map, List.filter_filter]
  congr 1
  apply List.filter_congr
  intro b _
  exact Bool.and_comm _ _

theorem bodyLen_eq {body : List UInt8} {size : ℕ} (h : bodyLen body = .ok size) :
    size = body.length := by
  unfold bodyLen at h
  split_ifs at h
  exact (Except.ok.inj h).symm

/-- A page that had some rows and was filled up from some bindings. -/
structure FilledFrom (limit : ℕ) (page : List HeadResponse) (found : List (KvName × KvRecord))
    (resp : ListResponse) : Prop where
  rows : resp.entries = (page ++ found.map headOf).take limit
  ends : page.length + found.length ≤ limit → resp.nextStartAfter = ""
  goesOn : limit < page.length + found.length →
    (resp.entries.map HeadResponse.key).getLast? = some resp.nextStartAfter

section Filled
variable {page : List HeadResponse} {found : List (KvName × KvRecord)} {b : KvName × KvRecord}
  {resp : ListResponse}

theorem FilledFrom.stop (hpage : page.length ≤ limit) : FilledFrom limit page [] ⟨page, ""⟩ := by
  refine ⟨?_, fun _ => rfl, fun hlong => ?_⟩
  · rw [List.map_nil, List.append_nil, List.take_of_length_le hpage]
  · rw [List.length_nil] at hlong
    omega

theorem FilledFrom.full (hlimit : 0 < limit) (hpage : page.length = limit) :
    FilledFrom limit page (b :: found)
      ⟨page, (page[limit - 1]?.map HeadResponse.key).getD ""⟩ := by
  have hlast : page.getLast? = page[limit - 1]? := by rw [List.getLast?_eq_getElem?, hpage]
  have hlt : limit - 1 < page.length := by omega
  refine ⟨?_, fun hshort => ?_, fun _ => ?_⟩
  · rw [← hpage, List.take_left]
  · rw [List.length_cons] at hshort
    omega
  · rw [List.getLast?_map, hlast, List.getElem?_eq_getElem hlt]
    rfl

theorem FilledFrom.push (h : FilledFrom limit (page ++ [headOf b]) found resp) :
    FilledFrom limit page (b :: found) resp := by
  have hlen : (page ++ [headOf b]).length + found.length = page.length + (b :: found).length := by
    simp only [List.length_append, List.length_cons, List.length_nil]
    omega
  refine ⟨?_, fun hshort => h.ends (by omega), fun hlong => h.goesOn (by omega)⟩
  rw [h.rows, List.append_assoc]
  rfl

end Filled

section Scan
variable {bs : List (KvName × KvRecord)} {page : List HeadResponse} {resp : ListResponse}

theorem candidates_none
    (h : ∀ b ∈ bs, Matches namespace_ keyPrefix b.1 = false) :
    candidates namespace_ keyPrefix startAfter bs = [] := by
  apply List.filter_eq_nil_iff.mpr
  intro b hb
  rw [h b hb, Bool.false_and]
  exact Bool.false_ne_true

/-- What the loop answers when it starts with some rows already on the page. -/
theorem entriesFrom_ok (hlimit : 0 < limit)
    (hscan : bs.Pairwise (fun a b => Matches namespace_ keyPrefix a.1 = false →
      Matches namespace_ keyPrefix b.1 = false)) (hpage : page.length ≤ limit)
    (h : entriesFrom namespace_ keyPrefix startAfter limit page bs = .ok resp) :
    FilledFrom limit page (candidates namespace_ keyPrefix startAfter bs) resp := by
  induction bs generalizing page with
  | nil =>
    rw [← Except.ok.inj h]
    exact FilledFrom.stop hpage
  | cons b rest ih =>
    obtain ⟨hhead, hrest⟩ := List.pairwise_cons.mp hscan
    rw [entriesFrom] at h
    by_cases hmatch : Matches namespace_ keyPrefix b.1 = true
    · obtain ⟨hns, hstarts⟩ := matches_iff.mp hmatch
      have hguard : ¬ (b.1.namespace_ ≠ namespace_ ∨ startsWith b.1.key keyPrefix = false) := by
        rw [hns, hstarts]
        simp
      rw [if_neg hguard] at h
      by_cases hle : b.1.key ≤ startAfter
      · -- listed on an earlier page
        have hskip : candidates namespace_ keyPrefix startAfter (b :: rest) =
            candidates namespace_ keyPrefix startAfter rest := by
          apply List.filter_cons_of_neg
          simp [not_lt.mpr hle]
        rw [if_pos hle] at h
        rw [hskip]
        exact ih hrest hpage h
      · have htake : candidates namespace_ keyPrefix startAfter (b :: rest) =
            b :: candidates namespace_ keyPrefix startAfter rest := by
          apply List.filter_cons_of_pos
          simp [hmatch, not_le.mp hle]
        rw [if_neg hle] at h
        rw [htake]
        by_cases hfull : page.length = limit
        · rw [if_pos hfull] at h
          rw [← Except.ok.inj h]
          exact FilledFrom.full hlimit hfull
        · rw [if_neg hfull] at h
          cases hsize : bodyLen b.2.body with
          | error e =>
            rw [hsize] at h
            cases h
          | ok size =>
            obtain rfl := bodyLen_eq hsize
            rw [hsize] at h
            apply FilledFrom.push
            apply ih hrest _ h
            rw [List.length_append, List.length_singleton]
            omega
    · -- the first name without a match: none follows
      have hno : Matches namespace_ keyPrefix b.1 = false := Bool.eq_false_of_not_eq_true hmatch
      have hguard : b.1.namespace_ ≠ namespace_ ∨ startsWith b.1.key keyPrefix = false := by
        rw [← Bool.not_eq_true]
        rw [matches_iff] at hmatch
        tauto
      have hnone : candidates namespace_ keyPrefix startAfter (b :: rest) = [] := by
        apply candidates_none
        intro c hc
        rcases List.mem_cons.mp hc with rfl | hc
        · exact hno
        · exact hhead c hc hno
      rw [if_pos hguard] at h
      rw [hnone, ← Except.ok.inj h]
      exact FilledFrom.stop hpage

theorem entriesFrom_total (hfits : ∀ b ∈ bs, b.2.body.length < 2 ^ 64)
    (page : List HeadResponse) :
    ∃ resp, entriesFrom namespace_ keyPrefix startAfter limit page bs = .ok resp := by
  induction bs generalizing page with
  | nil => exact ⟨_, rfl⟩
  | cons b rest ih =>
    have hrest : ∀ c ∈ rest, c.2.body.length < 2 ^ 64 := fun c hc =>
      hfits c (List.mem_cons_of_mem _ hc)
    have hsize : bodyLen b.2.body = .ok b.2.body.length := if_pos (hfits b List.mem_cons_self)
    rw [entriesFrom, hsize]
    split_ifs
    · exact ⟨_, rfl⟩
    · exact ih hrest page
    · exact ⟨_, rfl⟩
    · exact ih hrest _

end Scan

/-- Keys are never empty, so the empty string is free to be the first cursor. -/
def KeysNonempty (state : KvState) : Prop :=
  ∀ name record, state.entries.get name = some record → name.key ≠ ""

/-- Value bodies have a length that a `u64` holds, as every slice in memory has. -/
def BodiesFit (state : KvState) : Prop :=
  ∀ name record, state.entries.get name = some record → record.body.length < 2 ^ 64

/-- `entries` as a service of pages. -/
def keyPager (namespace_ keyPrefix : String) (limit : ℕ) :
    Pager KvState ListResponse String ConnectError where
  fetch state startAfter := entries state namespace_ keyPrefix startAfter limit
  listed page := page.entries.map HeadResponse.key
  next page := page.nextStartAfter

theorem entries_ok {state : KvState} {resp : ListResponse} (hlimit : 0 < limit)
    (h : entries state namespace_ keyPrefix startAfter limit = .ok resp) :
    FilledFrom limit [] (candidates namespace_ keyPrefix startAfter state.entries.toList) resp := by
  have hfilled := entriesFrom_ok hlimit (range_scan state namespace_ keyPrefix startAfter)
    (Nat.zero_le _) h
  rwa [candidates_rangeFrom] at hfilled

theorem empty_lt {key : String} (h : key ≠ "") : "" < key := by
  apply lt_of_le_of_ne _ h.symm
  rw [← not_lt, String.lt_iff_toList_lt]
  exact List.not_lt_nil _

theorem keyPager_serves (hlimit : 0 < limit) (namespace_ keyPrefix : String) :
    (keyPager namespace_ keyPrefix limit).Serves (matchingKeys namespace_ keyPrefix) limit ""
      KeysNonempty := by
  have hlen (state : KvState) (startAfter : String) :
      (above startAfter (matchingKeys namespace_ keyPrefix state)).length =
        (candidates namespace_ keyPrefix startAfter state.entries.toList).length := by
    rw [← candidates_keys, List.length_map]
  refine ⟨matchingKeys_sorted namespace_ keyPrefix, ?_, ?_, ?_, ?_⟩
  · intro state hstate key hkey
    obtain ⟨record, hrecord⟩ := Option.isSome_iff_exists.mp (mem_matchingKeys.mp hkey).2
    exact empty_lt (hstate _ record hrecord)
  · intro state startAfter page _ h
    show page.entries.map HeadResponse.key = _
    rw [(entries_ok hlimit h).rows, ← candidates_keys, List.nil_append, ← List.map_take,
      ← List.map_take, List.map_map]
    rfl
  · intro state startAfter page _ h hshort
    apply (entries_ok hlimit h).ends
    rw [hlen] at hshort
    rw [List.length_nil, Nat.zero_add]
    exact hshort
  · intro state startAfter page _ h hlong
    apply (entries_ok hlimit h).goesOn
    rw [hlen] at hlong
    rw [List.length_nil, Nat.zero_add]
    exact hlong

theorem pageLimit_ok {requested : ℕ} (h : pageLimit requested = .ok limit) :
    1 ≤ limit ∧ limit ≤ 100 := by
  unfold pageLimit at h
  split_ifs at h with hzero hle
  · obtain rfl := Except.ok.inj h
    decide
  · obtain rfl := Except.ok.inj h
    omega

/-- The limits from 1 to 100 are taken as they are. -/
theorem pageLimit_self (hlow : 1 ≤ limit) (hhigh : limit ≤ 100) : pageLimit limit = .ok limit := by
  rw [pageLimit, if_neg (by omega), if_pos hhigh]

/-- Every row is that of a matching binding of the state. -/
theorem mem_entries {state : KvState} {resp : ListResponse} (hlimit : 0 < limit)
    (h : entries state namespace_ keyPrefix startAfter limit = .ok resp) {row : HeadResponse}
    (hrow : row ∈ resp.entries) :
    row.namespace_ = namespace_ ∧ startsWith row.key keyPrefix = true ∧
      ∃ record, state.entries.get ⟨namespace_, row.key⟩ = some record ∧
        row = headOf (⟨namespace_, row.key⟩, record) := by
  rw [(entries_ok hlimit h).rows, List.nil_append] at hrow
  obtain ⟨b, hb, rfl⟩ := List.mem_map.mp (List.mem_of_mem_take hrow)
  obtain ⟨hmem, hfilter⟩ := List.mem_filter.mp hb
  obtain ⟨hns, hstarts⟩ := matches_iff.mp (Bool.and_eq_true_iff.mp hfilter).1
  have hname : (⟨namespace_, b.1.key⟩ : KvName) = b.1 := by rw [← hns]
  refine ⟨hns, hstarts, b.2, ?_, ?_⟩
  · show state.entries.get ⟨namespace_, b.1.key⟩ = some b.2
    rw [hname]
    exact (state.entries.get_eq_some_iff _ _).mpr hmem
  · show headOf b = headOf (⟨namespace_, b.1.key⟩, b.2)
    rw [hname]

/-- Following the cursor of a key listing from the empty string to the empty string, over
states that may change between the pages, lists keys in order, only matching ones, and every
key that is always there once; a state that does not change is listed completely. -/
theorem key_pages_partition (requested : ℕ) (namespace_ keyPrefix : String)
    (hlimit : pageLimit requested = .ok limit) :
    (∀ reads, (keyPager namespace_ keyPrefix limit).Follows "" "" reads →
      (∀ r ∈ reads, KeysNonempty r.1) →
      let keys := reads.flatMap (fun r => r.2.entries.map HeadResponse.key)
      keys.Pairwise (· < ·) ∧
      (∀ r ∈ reads, ∀ row ∈ r.2.entries, row.namespace_ = namespace_ ∧
        startsWith row.key keyPrefix = true ∧
        ∃ record, r.1.entries.get ⟨namespace_, row.key⟩ = some record ∧
          row = headOf (⟨namespace_, row.key⟩, record)) ∧
      (∀ key, startsWith key keyPrefix = true →
        (∀ r ∈ reads, (r.1.entries.get ⟨namespace_, key⟩).isSome = true) →
        keys.count key = 1) ∧
      (∀ state, (∀ r ∈ reads, r.1 = state) → keys = matchingKeys namespace_ keyPrefix state) ∧
      ∃ init r, reads = init ++ [r] ∧ r.2.nextStartAfter = "" ∧
        ∀ q ∈ init, q.2.nextStartAfter ≠ "") ∧
    ∀ state, KeysNonempty state → BodiesFit state →
      ∃ reads, (keyPager namespace_ keyPrefix limit).Follows "" "" reads ∧
        ∀ r ∈ reads, r.1 = state := by
  have hpos : 0 < limit := (pageLimit_ok hlimit).1
  have hserves := keyPager_serves hpos namespace_ keyPrefix
  constructor
  · intro reads hreads hkeys keys
    obtain ⟨hsorted, habove⟩ := hserves.follows_sorted hreads hkeys
    refine ⟨hsorted, ?_, ?_, ?_, hreads.next_eq_stop⟩
    · intro r hr row hrow
      obtain ⟨cursor, hfetched⟩ := hreads.fetched hr
      exact mem_entries hpos hfetched hrow
    · intro key hstarts hthere
      have hmem : key ∈ keys := by
        apply hserves.follows_complete hreads hkeys
        · intro r hr
          exact mem_matchingKeys.mpr ⟨hstarts, hthere r hr⟩
        · obtain ⟨init, r, rfl, -⟩ := hreads.next_eq_stop
          have hr : r ∈ init ++ [r] := by simp
          obtain ⟨record, hrecord⟩ := Option.isSome_iff_exists.mp (hthere r hr)
          exact empty_lt (hkeys r hr _ record hrecord)
      exact List.count_eq_one_of_mem hsorted.nodup hmem
    · intro state hsame
      exact hserves.follows_whole hreads hkeys hsame
  · intro state hstate hfits
    apply hserves.exists_follows hstate
    intro startAfter
    apply entriesFrom_total
    intro b hb
    exact hfits b.1 b.2 ((state.entries.get_eq_some_iff _ _).mpr (List.mem_filter.mp hb).1)

/-- A namespace with three users, and the same namespace with one more user. -/
def users : KvState :=
  { KvState.new with
    entries := (((OrdMap.empty.insert ⟨"beta", "user/2"⟩ ⟨[2, 2], "v2", 2⟩).insert
      ⟨"beta", "user/1"⟩ ⟨[1], "v1", 1⟩).insert ⟨"beta", "user/3"⟩ ⟨[3], "v3", 3⟩).insert
      ⟨"beta", "config"⟩ ⟨[], "v4", 4⟩ }

def moreUsers : KvState :=
  { users with entries := users.entries.insert ⟨"beta", "user/0"⟩ ⟨[0], "v5", 5⟩ }

/-- Two pages of users; the fourth user comes between them. -/
def userPages : List (KvState × ListResponse) :=
  [(users, ⟨[⟨"beta", "user/1", "v1", 1, 1⟩, ⟨"beta", "user/2", "v2", 2, 2⟩], "user/2"⟩),
    (moreUsers, ⟨[⟨"beta", "user/3", "v3", 3, 1⟩], ""⟩)]

theorem userPages_follows : (keyPager "beta" "user/" 2).Follows "" "" userPages := by
  have hfirst : entries users "beta" "user/" "" 2 = .ok
      ⟨[⟨"beta", "user/1", "v1", 1, 1⟩, ⟨"beta", "user/2", "v2", 2, 2⟩], "user/2"⟩ := by
    decide +kernel
  have hsecond : entries moreUsers "beta" "user/" "user/2" 2 = .ok
      ⟨[⟨"beta", "user/3", "v3", 3, 1⟩], ""⟩ := by decide +kernel
  exact .more hfirst (by decide) (.last hsecond rfl)

theorem keysNonempty_of_toList {state : KvState}
    (h : ∀ b ∈ state.entries.toList, b.1.key ≠ "") : KeysNonempty state := by
  intro name record hget
  exact h _ ((state.entries.get_eq_some_iff _ _).mp hget)

theorem key_pages_partition_userPages :
    (userPages.flatMap (fun r => r.2.entries.map HeadResponse.key)).Pairwise (· < ·) ∧
    (userPages.flatMap (fun r => r.2.entries.map HeadResponse.key)).count "user/3" = 1 ∧
    ∃ reads, (keyPager "beta" "user/" 2).Follows "" "" reads ∧ ∀ r ∈ reads, r.1 = users := by
  obtain ⟨hreads, hexists⟩ := key_pages_partition 2 "beta" "user/" (pageLimit_self
    (show 1 ≤ 2 by decide) (by decide))
  have husers : KeysNonempty users := by
    apply keysNonempty_of_toList
    decide +kernel
  have hkeys : ∀ r ∈ userPages, KeysNonempty r.1 := by
    intro r hr
    rcases List.mem_cons.mp hr with rfl | hr
    · exact husers
    · rw [List.mem_singleton.mp hr]
      apply keysNonempty_of_toList
      decide +kernel
  obtain ⟨hsorted, -, honce, -, -⟩ := hreads userPages userPages_follows hkeys
  refine ⟨hsorted, honce "user/3" (by decide +kernel) (by decide +kernel), ?_⟩
  apply hexists users husers
  intro name record hget
  have hmem := (users.entries.get_eq_some_iff _ _).mp hget
  have hall : ∀ b ∈ users.entries.toList, b.2.body.length < 2 ^ 64 := by decide +kernel
  exact hall _ hmem

end Browse
end BasisDB.Kv
