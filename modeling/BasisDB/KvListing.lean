import BasisDB.KvGenerations
import BasisDB.KvNamespaces

/-! Listing what the state machine has stored. Every state that commands lead to is one that
the pages are exact for, and the service takes back every cursor it hands out. -/
namespace BasisDB.Kv
open CommandRuns Paging

theorem KvName.new_ok {namespace_ key : String} {name : KvName}
    (h : KvName.new namespace_ key = .ok name) :
    name = ⟨namespace_, key⟩ ∧ namespace_ ≠ "" ∧ namespace_.utf8ByteSize ≤ maxNamespaceBytes ∧
      key ≠ "" ∧ key.utf8ByteSize ≤ maxKeyBytes := by
  unfold KvName.new at h
  split_ifs at h with hempty hlong hkey hkeyLong
  exact ⟨(Except.ok.inj h).symm, hempty, not_lt.mp hlong, hkey, not_lt.mp hkeyLong⟩

/-- A put gets as far as the store only with a permitted name and value. -/
theorem put_permitted {c : KvCommand} {name : KvName} {body : List UInt8} {ifMatch : String}
    {ifNoneMatch : Bool} (h : c.request = some (.put name body ifMatch ifNoneMatch)) :
    KvName.new name.namespace_ name.key = .ok name ∧ body.length ≤ maxValueBytes := by
  obtain ⟨k, n, ns, key, -, hname⟩ := KvCommand.request_put h
  obtain ⟨-, -, hbody, hnew⟩ := putName_ok hname
  obtain ⟨rfl, -⟩ := KvName.new_ok hnew
  exact ⟨hnew, hbody⟩

/-- What the store holds: permitted names and values, no more of them than generations were
given out. -/
structure KvState.Stored (s : KvState) : Prop where
  names : ∀ name record, s.entries.get name = some record →
    KvName.new name.namespace_ name.key = .ok name
  sizes : ∀ name record, s.entries.get name = some record → record.body.length ≤ maxValueBytes
  count : s.entries.toList.length < s.nextGeneration
  generation_lt : s.nextGeneration < 2 ^ 64

namespace KvState
variable {s : KvState}

theorem Stored.apply (h : s.Stored) (hs : s.WellFormed) (c : KvCommand) :
    (s.apply c).1.Stored := by
  rcases store_step hs c with ⟨hent, hgen⟩ | ⟨request, _, hreq, -, -, hchange⟩
  · refine ⟨?_, ?_, ?_, ?_⟩
    · rw [hent]
      exact h.names
    · rw [hent]
      exact h.sizes
    · rw [hent, hgen]
      exact h.count
    · rw [hgen]
      exact h.generation_lt
  rcases hchange with ⟨name, body, _, _, rfl, hsucc, hent, hgen⟩ | ⟨name, _, rfl, hent, hgen⟩
  · obtain ⟨hname, hbody⟩ := put_permitted hreq
    have hlength := s.entries.length_insert_le name
      ⟨body, etagFor s.nextGeneration, s.nextGeneration⟩
    have hcount := h.count
    refine ⟨?_, ?_, ?_, ?_⟩
    · intro name' record hget
      rw [hent, OrdMap.get_insert] at hget
      split_ifs at hget with heq
      · rw [← heq]
        exact hname
      · exact h.names name' record hget
    · intro name' record hget
      rw [hent, OrdMap.get_insert] at hget
      split_ifs at hget with heq
      · rw [← Option.some.inj hget]
        exact hbody
      · exact h.sizes name' record hget
    · rw [hent, hgen]
      omega
    · rw [hgen]
      unfold checkedSucc at hsucc
      split_ifs at hsucc with hlt
      exact hlt
  · have hold (name' : KvName) (record : KvRecord)
        (hget : (s.apply c).1.entries.get name' = some record) :
        s.entries.get name' = some record := by
      rw [hent, OrdMap.get_remove] at hget
      split_ifs at hget
      exact hget
    refine ⟨fun name' record hget => h.names _ _ (hold _ _ hget),
      fun name' record hget => h.sizes _ _ (hold _ _ hget), ?_, ?_⟩
    · rw [hent, hgen]
      exact (s.entries.length_remove_le name).trans_lt h.count
    · rw [hgen]
      exact h.generation_lt

theorem exec_stored (cs : List KvCommand) : (exec KvState.apply .new cs).Stored := by
  have hboth : (exec KvState.apply .new cs).WellFormed ∧ (exec KvState.apply .new cs).Stored := by
    apply exec_invariant (P := fun s => s.WellFormed ∧ s.Stored) KvState.apply
    · intro s c hs
      exact ⟨apply_wellFormed s c hs.1, hs.2.apply hs.1 c⟩
    · refine ⟨new_wellFormed, ?_, ?_, Nat.one_pos, by decide⟩
      · intro name record hget
        cases hget
      · intro name record hget
        cases hget
  exact hboth.2

theorem Stored.keysNonempty (h : s.Stored) : Browse.KeysNonempty s := by
  intro name record hget
  exact (KvName.new_ok (h.names name record hget)).2.2.2.1

theorem Stored.bodiesFit (h : s.Stored) : Browse.BodiesFit s := by
  intro name record hget
  have hsize := h.sizes name record hget
  unfold maxValueBytes at hsize
  omega

theorem Stored.countable (h : s.Stored) : Browse.Countable s := by
  refine ⟨?_, ?_⟩
  · intro name record hget
    exact (KvName.new_ok (h.names name record hget)).2.1
  · intro n
    have hle : Browse.keyCount s n ≤ (s.entries.toList.map (fun b => b.1.namespace_)).length :=
      List.count_le_length
    rw [List.length_map] at hle
    have hcount := h.count
    have hlt := h.generation_lt
    omega

end KvState

namespace Browse
variable {state : KvState} {limit requested : ℕ} {namespace_ keyPrefix : String}

/-- `list` as a service of pages. -/
def listPager (namespace_ keyPrefix : String) (requested : ℕ) :
    Pager KvState ListResponse String ConnectError where
  fetch state startAfter := list state namespace_ keyPrefix startAfter requested
  listed page := page.entries.map HeadResponse.key
  next page := page.nextStartAfter

/-- `list_namespaces` as a service of pages. -/
def listNamespacesPager (requested : ℕ) :
    Pager KvState ListNamespacesResponse String ConnectError where
  fetch state startAfter := listNamespaces state startAfter requested
  listed page := page.namespaces.map Namespace.name
  next page := page.nextStartAfter

/-- The checks of `list` are passed by every cursor of a permitted length. -/
theorem list_eq (hlimit : pageLimit requested = .ok limit)
    (hvalid : validateList namespace_ keyPrefix "" = .ok ()) {startAfter : String}
    (hsize : startAfter.utf8ByteSize ≤ maxKeyBytes) :
    list state namespace_ keyPrefix startAfter requested =
      entries state namespace_ keyPrefix startAfter limit := by
  have hvalid' : validateList namespace_ keyPrefix startAfter = .ok () := by
    unfold validateList at hvalid ⊢
    split_ifs at hvalid with hns hsizes
    rw [if_neg hns, if_neg]
    rintro (hpre | hcursor)
    · exact hsizes (Or.inl hpre)
    · omega
  simp only [list, hlimit, hvalid', bind, Except.bind]

theorem listNamespaces_eq (hlimit : pageLimit requested = .ok limit) {startAfter : String}
    (hsize : startAfter.utf8ByteSize ≤ maxNamespaceBytes) :
    listNamespaces state startAfter requested = namespaces state startAfter limit := by
  have hvalid : validateNamespaceCursor startAfter = .ok () := if_neg (not_lt.mpr hsize)
  simp only [listNamespaces, hlimit, hvalid, bind, Except.bind]

/-- In every state that commands lead to, a client that lists a namespace page by page gets
exactly the matching keys, and is never refused a cursor. -/
theorem list_exact (cs : List KvCommand) (hlimit : pageLimit requested = .ok limit)
    (hvalid : validateList namespace_ keyPrefix "" = .ok ()) :
    ∃ reads, (listPager namespace_ keyPrefix requested).Follows "" "" reads ∧
      (∀ r ∈ reads, r.1 = exec KvState.apply .new cs) ∧
      (listPager namespace_ keyPrefix requested).listedBy reads =
        matchingKeys namespace_ keyPrefix (exec KvState.apply .new cs) := by
  have hstored := KvState.exec_stored cs
  have hserves := keyPager_serves (pageLimit_ok hlimit).1 namespace_ keyPrefix
  have htotal (startAfter : String) : ∃ page, (keyPager namespace_ keyPrefix limit).fetch
      (exec KvState.apply .new cs) startAfter = .ok page := by
    apply entriesFrom_total
    intro b hb
    exact hstored.bodiesFit b.1 b.2 (((exec KvState.apply .new cs).entries.get_eq_some_iff _ _).mpr
      (List.mem_filter.mp hb).1)
  obtain ⟨reads, hreads, hsame⟩ := hserves.exists_follows hstored.keysNonempty htotal ""
  have hgood : ∀ r ∈ reads, KeysNonempty r.1 := fun r hr => hsame r hr ▸ hstored.keysNonempty
  refine ⟨reads, ?_, hsame, hserves.follows_whole hreads hgood hsame⟩
  apply hreads.transfer (O := fun cursor => cursor.utf8ByteSize ≤ maxKeyBytes)
  · exact Nat.zero_le _
  · intro r _ cursor hcursor
    exact list_eq hlimit hvalid hcursor
  · intro r hr cursor hfetch
    refine ⟨?_, rfl⟩
    rcases hserves.next_eq_or_mem (hgood r hr) hfetch with hstop | hmem
    · rw [hstop]
      exact Nat.zero_le _
    · obtain ⟨record, hget⟩ := Option.isSome_iff_exists.mp (mem_matchingKeys.mp hmem).2
      rw [hsame r hr] at hget
      exact (KvName.new_ok (hstored.names _ record hget)).2.2.2.2

/-- Likewise for the namespaces and the number of keys in each. -/
theorem listNamespaces_exact (cs : List KvCommand) (hlimit : pageLimit requested = .ok limit) :
    ∃ reads, (listNamespacesPager requested).Follows "" "" reads ∧
      (∀ r ∈ reads, r.1 = exec KvState.apply .new cs) ∧
      (listNamespacesPager requested).listedBy reads = occupied (exec KvState.apply .new cs) ∧
      ∀ r ∈ reads, ∀ row ∈ r.2.namespaces,
        row.keyCount = keyCount (exec KvState.apply .new cs) row.name := by
  have hstored := KvState.exec_stored cs
  have hpos : 0 < limit := (pageLimit_ok hlimit).1
  have hserves := namespacePager_serves hpos
  have htotal (startAfter : String) : ∃ page, (namespacePager limit).fetch
      (exec KvState.apply .new cs) startAfter = .ok page := by
    obtain ⟨resp, hresp, -⟩ := namespaces_ok hpos hstored.countable startAfter
    exact ⟨resp, hresp⟩
  obtain ⟨reads, hreads, hsame⟩ := hserves.exists_follows hstored.countable htotal ""
  have hgood : ∀ r ∈ reads, Countable r.1 := fun r hr => hsame r hr ▸ hstored.countable
  refine ⟨reads, ?_, hsame, hserves.follows_whole hreads hgood hsame, ?_⟩
  · apply hreads.transfer (O := fun cursor => cursor.utf8ByteSize ≤ maxNamespaceBytes)
    · exact Nat.zero_le _
    · intro r _ cursor hcursor
      exact listNamespaces_eq hlimit hcursor
    · intro r hr cursor hfetch
      refine ⟨?_, rfl⟩
      rcases hserves.next_eq_or_mem (hgood r hr) hfetch with hstop | hmem
      · rw [hstop]
        exact Nat.zero_le _
      · obtain ⟨b, hb, hname⟩ := List.mem_map.mp (List.mem_dedup.mp hmem)
        have hget := (r.1.entries.get_eq_some_iff b.1 b.2).mpr hb
        rw [hsame r hr] at hget
        rw [← hname]
        exact (KvName.new_ok (hstored.names _ _ hget)).2.2.1
  · intro r hr row hrow
    obtain ⟨cursor, hfetched⟩ := hreads.fetched hr
    rw [← hsame r hr]
    exact keyCount_of_fetched hpos (hgood r hr) hfetched row hrow

end Browse
end BasisDB.Kv
