import BasisDB.KvExactlyOnce

/-! Generations and ETags: every successful put gets the next generation, a record carries
the ETag of the put that wrote it, and a conditional mutation goes through exactly when
that put is still the last change of its key. -/
namespace BasisDB.Kv

open CommandRuns

def MutationRequest.name : MutationRequest → KvName
  | .put name .. => name
  | .delete name _ => name

def MutationRequest.ifMatch : MutationRequest → String
  | .put _ _ ifMatch _ => ifMatch
  | .delete _ ifMatch => ifMatch

/-- A mutation that runs: it is neither refused nor answered from its session. -/
def KvState.executesAnew (s : KvState) (c : KvCommand) : Bool :=
  match c.client, c.request with
  | some (clientId, sequence), some _ =>
    (s.sessions.get clientId).any (fun session => decide (session.sequence < sequence))
  | _, _ => false

theorem etagFor_injective : Function.Injective etagFor := by
  intro g g' h
  have hrepr : toString g = toString g' := by
    unfold etagFor at h
    have h₁ := (String.append_left_inj _).mp h
    exact (String.append_right_inj _).mp h₁
  exact Nat.repr_injective hrepr

theorem validatePutPreconditions_ok {ifMatch : String} {ifNoneMatch : Bool} {u : Unit}
    (h : validatePutPreconditions ifMatch ifNoneMatch = .ok u) :
    ifMatch = "" ∨ ifNoneMatch = false := by
  simp only [validatePutPreconditions, bind, Except.bind] at h
  cases hetag : validateEtag ifMatch with
  | error e => simp [hetag] at h
  | ok _ =>
    by_cases hempty : ifMatch = ""
    · exact Or.inl hempty
    · right
      simpa [hetag, hempty] using h

/-- Validation lets a put carry only one of the two preconditions. -/
theorem exclusive_preconditions {c : KvCommand} {name : KvName} {body : List UInt8}
    {ifMatch : String} {ifNoneMatch : Bool}
    (hreq : c.request = some (.put name body ifMatch ifNoneMatch)) :
    ifMatch = "" ∨ ifNoneMatch = false := by
  obtain ⟨k, n, ns, key, -, hname⟩ := KvCommand.request_put hreq
  obtain ⟨-, hpre, -⟩ := putName_ok hname
  exact validatePutPreconditions_ok hpre

theorem checkPutPreconditions_ifMatch {current : Option KvRecord} {ifMatch : String}
    (hmatch : ifMatch ≠ "") : checkPutPreconditions current ifMatch false = .ok () ↔
      ∃ record, current = some record ∧ record.etag = ifMatch := by
  cases current with
  | none => simp [checkPutPreconditions, hmatch]
  | some record =>
    by_cases hetag : record.etag = ifMatch
    · simp [checkPutPreconditions, hmatch, hetag]
    · simp [checkPutPreconditions, hmatch, hetag]

namespace KvState
variable {s t : KvState} {c : KvCommand}

theorem executesAnew_iff : s.executesAnew c = true ↔
    ∃ k n request session, c.client = some (k, n) ∧ c.request = some request ∧
      s.sessions.get k = some session ∧ session.sequence < n := by
  unfold executesAnew
  rcases hc : c.client with _ | ⟨k, n⟩
  · simp
  rcases hreq : c.request with _ | request
  · simp
  · simp [Option.any_eq_true]

/-- The store as far as conditional mutations see it. -/
def SameStore (s t : KvState) : Prop :=
  t.entries = s.entries ∧ t.nextGeneration = s.nextGeneration

/-- What a put does when it runs. -/
def PutOutcome (s : KvState) (name : KvName) (body : List UInt8) (ifMatch : String)
    (ifNoneMatch : Bool) (out : KvState × Except ConnectError KvApplyResult) : Prop :=
  (((∃ rejection, checkPutPreconditions (s.entries.get name) ifMatch ifNoneMatch =
        .error rejection) ∨ checkedSucc s.nextGeneration = none) ∧
      (∃ error, out.2 = .error error) ∧ s.SameStore out.1) ∨
  (checkPutPreconditions (s.entries.get name) ifMatch ifNoneMatch = .ok () ∧
    checkedSucc s.nextGeneration = some (s.nextGeneration + 1) ∧
    out.2 = .ok (.put ⟨name.namespace_, name.key, etagFor s.nextGeneration, s.nextGeneration,
      body.length⟩) ∧
    out.1.entries = s.entries.insert name ⟨body, etagFor s.nextGeneration, s.nextGeneration⟩ ∧
    out.1.nextGeneration = s.nextGeneration + 1)

/-- What a delete does when it runs. -/
def DeleteOutcome (s : KvState) (name : KvName) (ifMatch : String)
    (out : KvState × Except ConnectError KvApplyResult) : Prop :=
  ((ifMatch ≠ "" ∧ (s.entries.get name).all (fun record => ifMatch ≠ record.etag)) ∧
      (∃ error, out.2 = .error error) ∧ s.SameStore out.1) ∨
  (¬ (ifMatch ≠ "" ∧ (s.entries.get name).all (fun record => ifMatch ≠ record.etag)) ∧
    (∃ response, out.2 = .ok (.delete response)) ∧
    out.1.entries = s.entries.remove name ∧ out.1.nextGeneration = s.nextGeneration)

section Record
variable {k n : ℕ} {session : SessionState} {request : MutationRequest} {result : MutationResult}
  {answer : Except ConnectError KvApplyResult}

theorem record_answer (hk : t.sessions.get k = some session) :
    (t.record k n request result answer).2 = answer := by
  rw [record, session_eq hk]

theorem record_entries : (t.record k n request result answer).1.entries = t.entries := by
  unfold record
  cases t.session k <;> rfl

theorem record_nextGeneration :
    (t.record k n request result answer).1.nextGeneration = t.nextGeneration := by
  unfold record
  cases t.session k <;> rfl

end Record

theorem executePut_outcome {k n : ℕ} {session : SessionState} {name : KvName}
    {body : List UInt8} {ifMatch : String} {ifNoneMatch : Bool}
    (hk : s.sessions.get k = some session) (hbody : body.length ≤ maxValueBytes) :
    s.PutOutcome name body ifMatch ifNoneMatch
      (s.executePut k n name body ifMatch ifNoneMatch) := by
  unfold executePut
  rw [bodyLen_ok hbody]
  cases hpre : checkPutPreconditions (s.entries.get name) ifMatch ifNoneMatch with
  | error rejection =>
    exact Or.inl ⟨Or.inl ⟨rejection, hpre⟩, ⟨_, record_answer hk⟩, record_entries,
      record_nextGeneration⟩
  | ok _ =>
    dsimp only [takeGeneration]
    cases hnext : checkedSucc s.nextGeneration with
    | none =>
      exact Or.inl ⟨Or.inr hnext, ⟨_, record_answer hk⟩, record_entries, record_nextGeneration⟩
    | some next =>
      have hsucc : next = s.nextGeneration + 1 := by
        unfold checkedSucc at hnext
        split_ifs at hnext
        exact (Option.some.inj hnext).symm
      subst hsucc
      exact Or.inr ⟨hpre, hnext, record_answer hk, record_entries, record_nextGeneration⟩

theorem executeDelete_outcome {k n : ℕ} {session : SessionState} {name : KvName}
    {ifMatch : String} (hk : s.sessions.get k = some session) :
    s.DeleteOutcome name ifMatch (s.executeDelete k n name ifMatch) := by
  unfold executeDelete
  dsimp only
  by_cases hmatch : ifMatch ≠ "" ∧
      (s.entries.get name).all (fun record => ifMatch ≠ record.etag) = true
  · rw [if_pos hmatch]
    exact Or.inl ⟨hmatch, ⟨_, record_answer hk⟩, record_entries, record_nextGeneration⟩
  · rw [if_neg hmatch]
    exact Or.inr ⟨hmatch, ⟨_, record_answer hk⟩, record_entries, record_nextGeneration⟩

/-- A put that runs. -/
theorem apply_put_outcome {name : KvName} {body : List UInt8} {ifMatch : String}
    {ifNoneMatch : Bool} (hreq : c.request = some (.put name body ifMatch ifNoneMatch))
    (hanew : s.executesAnew c = true) :
    s.PutOutcome name body ifMatch ifNoneMatch (s.apply c) := by
  obtain ⟨k, n, request, session, hc, hreq', hk, hlt⟩ := executesAnew_iff.mp hanew
  obtain rfl : _ = request := Option.some.inj (hreq.symm.trans hreq')
  obtain ⟨-, ⟨name', body', ifMatch', ifNoneMatch', heq, hbody, happly⟩ | ⟨_, _, heq, -⟩⟩ :=
    apply_valid hc hreq
  · cases heq
    rw [happly, cachedPut_eq hk, cachedMutation_fresh _ hlt]
    exact executePut_outcome hk hbody
  · cases heq

/-- A delete that runs. -/
theorem apply_delete_outcome {name : KvName} {ifMatch : String}
    (hreq : c.request = some (.delete name ifMatch)) (hanew : s.executesAnew c = true) :
    s.DeleteOutcome name ifMatch (s.apply c) := by
  obtain ⟨k, n, request, session, hc, hreq', hk, hlt⟩ := executesAnew_iff.mp hanew
  obtain rfl : _ = request := Option.some.inj (hreq.symm.trans hreq')
  obtain ⟨-, ⟨_, _, _, _, heq, -⟩ | ⟨name', ifMatch', heq, happly⟩⟩ := apply_valid hc hreq
  · cases heq
  · cases heq
    rw [happly, cachedDelete_eq hk, cachedMutation_fresh _ hlt]
    exact executeDelete_outcome hk

/-- Everything else leaves the store alone. -/
theorem apply_sameStore (hs : s.WellFormed) (hanew : s.executesAnew c = false) :
    s.SameStore (s.apply c).1 := by
  cases hc : c.client with
  | none =>
    cases c with
    | registerSession =>
      unfold apply takeClientId
      cases checkedSucc s.nextClientId <;> exact ⟨rfl, rfl⟩
    | readBarrier => exact ⟨rfl, rfl⟩
    | put => cases hc
    | delete => cases hc
  | some client =>
    obtain ⟨k, n⟩ := client
    rcases mutation_step hs hc with hsame | ⟨request, session, hreq, hk, hlt, -⟩
    · rw [hsame]
      exact ⟨rfl, rfl⟩
    · rw [executesAnew_iff.mpr ⟨k, n, request, session, hc, hreq, hk, hlt⟩] at hanew
      cases hanew

/-- A successful put got the next generation and wrote its record under it. -/
theorem put_success {name : KvName} {body : List UInt8} {ifMatch : String} {ifNoneMatch : Bool}
    {response : KvApplyResult} (hreq : c.request = some (.put name body ifMatch ifNoneMatch))
    (hanew : s.executesAnew c = true) (hok : (s.apply c).2 = .ok response) :
    checkPutPreconditions (s.entries.get name) ifMatch ifNoneMatch = .ok () ∧
    response = .put ⟨name.namespace_, name.key, etagFor s.nextGeneration, s.nextGeneration,
      body.length⟩ ∧
    (s.apply c).1.entries =
      s.entries.insert name ⟨body, etagFor s.nextGeneration, s.nextGeneration⟩ ∧
    (s.apply c).1.nextGeneration = s.nextGeneration + 1 := by
  rcases apply_put_outcome hreq hanew with ⟨-, ⟨error, herror⟩, -⟩ | ⟨hpre, -, hres, hent, hgen⟩
  · rw [herror] at hok
    cases hok
  · rw [hres] at hok
    exact ⟨hpre, (Except.ok.inj hok).symm, hent, hgen⟩

/-- One step of the store: it stays, or a put binds its key under the next generation, or a
delete removes its key. -/
theorem store_step (hs : s.WellFormed) (c : KvCommand) : s.SameStore (s.apply c).1 ∨
    ∃ request response, c.request = some request ∧ s.executesAnew c = true ∧
      (s.apply c).2 = .ok response ∧
      ((∃ name body ifMatch ifNoneMatch, request = .put name body ifMatch ifNoneMatch ∧
          checkedSucc s.nextGeneration = some (s.nextGeneration + 1) ∧
          (s.apply c).1.entries =
            s.entries.insert name ⟨body, etagFor s.nextGeneration, s.nextGeneration⟩ ∧
          (s.apply c).1.nextGeneration = s.nextGeneration + 1) ∨
        (∃ name ifMatch, request = .delete name ifMatch ∧
          (s.apply c).1.entries = s.entries.remove name ∧
          (s.apply c).1.nextGeneration = s.nextGeneration)) := by
  cases hanew : s.executesAnew c with
  | false => exact Or.inl (apply_sameStore hs hanew)
  | true =>
    obtain ⟨k, n, request, -, -, hreq, -⟩ := executesAnew_iff.mp hanew
    cases request with
    | put name body ifMatch ifNoneMatch =>
      rcases apply_put_outcome hreq hanew with ⟨-, -, hsame⟩ | ⟨-, hsucc, hok, hent, hgen⟩
      · exact Or.inl hsame
      · exact Or.inr ⟨_, _, hreq, rfl, hok,
          Or.inl ⟨name, body, ifMatch, ifNoneMatch, rfl, hsucc, hent, hgen⟩⟩
    | delete name ifMatch =>
      rcases apply_delete_outcome hreq hanew with ⟨-, -, hsame⟩ | ⟨-, ⟨response, hok⟩, hent, hgen⟩
      · exact Or.inl hsame
      · exact Or.inr ⟨_, _, hreq, rfl, hok, Or.inr ⟨name, ifMatch, rfl, hent, hgen⟩⟩

theorem nextGeneration_le (hs : s.WellFormed) (c : KvCommand) :
    s.nextGeneration ≤ (s.apply c).1.nextGeneration := by
  rcases store_step hs c with hsame | ⟨_, _, -, -, -, ⟨_, _, _, _, -, -, -, hgen⟩ | ⟨_, _, -, -, hgen⟩⟩
  · exact hsame.2.ge
  · omega
  · exact hgen.ge

/-- A conditional mutation that runs succeeds exactly when its ETag is the record's. -/
theorem ifMatch_succeeds_iff {request : MutationRequest} (hreq : c.request = some request)
    (hanew : s.executesAnew c = true) (hmatch : request.ifMatch ≠ "")
    (hgen : (checkedSucc s.nextGeneration).isSome) :
    (∃ response, (s.apply c).2 = .ok response) ↔
      ∃ record, s.entries.get request.name = some record ∧ record.etag = request.ifMatch := by
  cases request with
  | put name body ifMatch ifNoneMatch =>
    have hne : ifMatch ≠ "" := hmatch
    obtain rfl : ifNoneMatch = false := (exclusive_preconditions hreq).resolve_left hne
    have hpre : checkPutPreconditions (s.entries.get name) ifMatch false = .ok () ↔ _ :=
      checkPutPreconditions_ifMatch hne
    refine Iff.trans ?_ hpre
    rcases apply_put_outcome hreq hanew with ⟨hfail, ⟨error, herror⟩, -⟩ | ⟨hok, -, hres, -⟩
    · rw [herror]
      rcases hfail with ⟨rejection, hrejection⟩ | hnone
      · simp [hrejection]
      · simp [hnone] at hgen
    · rw [hres]
      exact ⟨fun _ => hok, fun _ => ⟨_, rfl⟩⟩
  | delete name ifMatch =>
    have hne : ifMatch ≠ "" := hmatch
    have hpre : ¬ (ifMatch ≠ "" ∧
        (s.entries.get name).all (fun record => ifMatch ≠ record.etag) = true) ↔
        ∃ record, s.entries.get name = some record ∧ record.etag = ifMatch := by
      cases s.entries.get name with
      | none => simp [hne]
      | some record => simp [hne, @eq_comm _ ifMatch]
    refine Iff.trans ?_ hpre
    rcases apply_delete_outcome hreq hanew with ⟨hfail, ⟨error, herror⟩, -⟩ |
      ⟨hok, ⟨r, hres⟩, -⟩
    · rw [herror]
      refine ⟨fun ⟨r, hr⟩ => ?_, fun h => absurd hfail h⟩
      cases hr
    · rw [hres]
      exact ⟨fun _ => hok, fun _ => ⟨_, rfl⟩⟩

/-- A command that does not succeed in changing a key leaves its record alone. -/
theorem entry_frame (hs : s.WellFormed) (c : KvCommand) (name : KvName) :
    (s.apply c).1.entries.get name = s.entries.get name ∨
    ∃ request response, c.request = some request ∧ request.name = name ∧
      s.executesAnew c = true ∧ (s.apply c).2 = .ok response := by
  rcases store_step hs c with hsame | ⟨request, response, hreq, hanew, hok, hchange⟩
  · left
    rw [hsame.1]
  by_cases hname : request.name = name
  · exact Or.inr ⟨request, response, hreq, hname, hanew, hok⟩
  left
  rcases hchange with ⟨name', _, _, _, rfl, -, hent, -⟩ | ⟨name', _, rfl, hent, -⟩
  · have hne : name' ≠ name := hname
    rw [hent, OrdMap.get_insert_ne _ _ hne]
  · have hne : name' ≠ name := hname
    rw [hent, OrdMap.get_remove, if_neg hne]

end KvState

/-- At position `p` a put on `name` ran and returned `response`. -/
def Wrote (cs : List KvCommand) (p : ℕ) (name : KvName) (response : PutResponse) : Prop :=
  ∃ c body ifMatch ifNoneMatch, cs[p]? = some c ∧
    c.request = some (.put name body ifMatch ifNoneMatch) ∧
    (stateAt cs p).executesAnew c = true ∧
    (results KvState.apply .new cs)[p]? = some (.ok (.put response))

/-- At position `p` a put or a delete on `name` ran and succeeded. -/
def Changed (cs : List KvCommand) (p : ℕ) (name : KvName) : Prop :=
  ∃ c request response, cs[p]? = some c ∧ c.request = some request ∧ request.name = name ∧
    (stateAt cs p).executesAnew c = true ∧
    (results KvState.apply .new cs)[p]? = some (.ok response)

section Runs
variable {cs : List KvCommand} {p q : ℕ} {name : KvName} {response : PutResponse}

theorem stateAt_succ {c : KvCommand} (hc : cs[p]? = some c) :
    stateAt cs (p + 1) = ((stateAt cs p).apply c).1 :=
  exec_take_succ KvState.apply hc

theorem result_at {c : KvCommand} (hc : cs[p]? = some c) :
    (results KvState.apply .new cs)[p]? = some ((stateAt cs p).apply c).2 := by
  rw [results_getElem?, hc]
  rfl

theorem Wrote.spec (h : Wrote cs p name response) :
    response.generation = (stateAt cs p).nextGeneration ∧
    response.etag = etagFor response.generation ∧
    (stateAt cs (p + 1)).nextGeneration = response.generation + 1 ∧
    ∃ record, (stateAt cs (p + 1)).entries.get name = some record ∧
      record.etag = response.etag ∧ record.generation = response.generation := by
  obtain ⟨c, body, ifMatch, ifNoneMatch, hc, hreq, hanew, hres⟩ := h
  rw [result_at hc, Option.some.injEq] at hres
  obtain ⟨-, hresponse, hent, hgen⟩ := KvState.put_success hreq hanew hres
  obtain rfl := KvApplyResult.put.inj hresponse
  rw [stateAt_succ hc]
  refine ⟨rfl, rfl, hgen, ?_⟩
  rw [hent, OrdMap.get_insert_self]
  exact ⟨_, rfl, rfl, rfl⟩

theorem nextGeneration_mono (hpq : p ≤ q) :
    (stateAt cs p).nextGeneration ≤ (stateAt cs q).nextGeneration :=
  exec_between KvState.apply (P := fun s => (stateAt cs p).nextGeneration ≤ s.nextGeneration) hpq
    (fun _ c _ _ _ h => h.trans (KvState.nextGeneration_le (KvState.exec_wellFormed _) c)) le_rfl

/-- The record of the last put stays while nothing changes its key. -/
theorem Wrote.kept (h : Wrote cs p name response) (hpq : p < q)
    (hsame : ∀ j, p < j → j < q → ¬ Changed cs j name) :
    ∃ record, (stateAt cs q).entries.get name = some record ∧ record.etag = response.etag ∧
      record.generation = response.generation := by
  obtain ⟨-, -, -, hrecord⟩ := h.spec
  refine exec_between KvState.apply
    (P := fun s => ∃ record, s.entries.get name = some record ∧ record.etag = response.etag ∧
      record.generation = response.generation) hpq ?_ hrecord
  intro j c hpj hjq hc hj
  rcases KvState.entry_frame (KvState.exec_wellFormed (cs.take j)) c name with hframe |
    ⟨request, result, hreq, hname, hanew, hok⟩
  · rwa [hframe]
  · have hchanged : Changed cs j name :=
      ⟨c, request, result, hc, hreq, hname, hanew, by rw [result_at hc, hok]⟩
    exact absurd hchanged (hsame j hpj hjq)

/-- Every record stands where the last change of its key, a put, wrote it. -/
theorem last_writer {record : KvRecord} (h : (stateAt cs q).entries.get name = some record) :
    ∃ p response, p < q ∧ Wrote cs p name response ∧ record.etag = response.etag ∧
      record.generation = response.generation ∧ ∀ j, p < j → j < q → ¬ Changed cs j name := by
  induction q generalizing record with
  | zero => cases h
  | succ q ih =>
    -- a position where the key does not change passes its writer on
    have hpass (hrecord : (stateAt cs q).entries.get name = some record)
        (hnot : ¬ Changed cs q name) : ∃ p response, p < q + 1 ∧ Wrote cs p name response ∧
          record.etag = response.etag ∧ record.generation = response.generation ∧
          ∀ j, p < j → j < q + 1 → ¬ Changed cs j name := by
      obtain ⟨p, response, hpq, hwrote, hetag, hgen, hsame⟩ := ih hrecord
      refine ⟨p, response, hpq.trans (Nat.lt_succ_self q), hwrote, hetag, hgen, ?_⟩
      intro j hpj hjq
      rcases Nat.lt_succ_iff_lt_or_eq.mp hjq with hlt | rfl
      · exact hsame j hpj hlt
      · exact hnot
    cases hc : cs[q]? with
    | none =>
      have hlen : cs.length ≤ q := List.getElem?_eq_none_iff.mp hc
      apply hpass
      · rwa [stateAt, List.take_of_length_le hlen, ← List.take_of_length_le (Nat.le_succ_of_le hlen)]
      · rintro ⟨c, -, -, hsome, -⟩
        rw [hc] at hsome
        cases hsome
    | some c =>
      rw [stateAt_succ hc] at h
      by_cases hchanged : Changed cs q name
      · obtain ⟨c', request, result, hc', hreq, hname, hanew, hres⟩ := hchanged
        obtain rfl : c = c' := Option.some.inj (hc.symm.trans hc')
        have hok : ((stateAt cs q).apply c).2 = .ok result := by
          rw [result_at hc, Option.some.injEq] at hres
          exact hres
        cases request with
        | put name' body ifMatch ifNoneMatch =>
          obtain rfl : name' = name := hname
          obtain ⟨-, rfl, hent, -⟩ := KvState.put_success hreq hanew hok
          rw [hent, OrdMap.get_insert_self, Option.some.injEq] at h
          subst h
          refine ⟨q, _, Nat.lt_succ_self q, ⟨c, body, ifMatch, ifNoneMatch, hc, hreq, hanew, hres⟩,
            rfl, rfl, ?_⟩
          intro j hqj hjq
          omega
        | delete name' ifMatch =>
          obtain rfl : name' = name := hname
          rcases KvState.apply_delete_outcome hreq hanew with ⟨-, ⟨error, herror⟩, -⟩ |
            ⟨-, -, hent, -⟩
          · rw [herror] at hok
            cases hok
          · rw [hent, OrdMap.get_remove, if_pos rfl] at h
            cases h
      · apply hpass _ hchanged
        rcases KvState.entry_frame (KvState.exec_wellFormed (cs.take q)) c name with hframe |
          ⟨request, result, hreq, hname, hanew, hok⟩
        · rwa [← hframe]
        · exact absurd ⟨c, request, result, hc, hreq, hname, hanew, by rw [result_at hc, hok]⟩
            hchanged

end Runs

/-- Compare-and-set never loses an update: generations only grow, an ETag belongs to one put,
and a conditional mutation succeeds exactly while the put that returned its ETag is the last
change of the key. -/
theorem compare_and_set_loses_no_update (cs : List KvCommand) :
    (∀ p q name name' response response', p < q → Wrote cs p name response →
      Wrote cs q name' response' →
      response.generation < response'.generation ∧ response.etag ≠ response'.etag) ∧
    (∀ name record, (exec KvState.apply .new cs).entries.get name = some record →
      record.etag = etagFor record.generation) ∧
    (∀ q c request, cs[q]? = some c → c.request = some request →
      (stateAt cs q).executesAnew c = true → request.ifMatch ≠ "" →
      (checkedSucc (stateAt cs q).nextGeneration).isSome →
      ((∃ result, (results KvState.apply .new cs)[q]? = some (.ok result)) ↔
        ∃ record p response, (stateAt cs q).entries.get request.name = some record ∧ p < q ∧
          Wrote cs p request.name response ∧ response.etag = request.ifMatch ∧
          record.generation = response.generation ∧
          ∀ j, p < j → j < q → ¬ Changed cs j request.name)) ∧
    (∀ q c name body ifMatch result, cs[q]? = some c →
      c.request = some (.put name body ifMatch true) → (stateAt cs q).executesAnew c = true →
      (results KvState.apply .new cs)[q]? = some (.ok result) →
      (stateAt cs q).entries.get name = none) := by
  refine ⟨?_, ?_, ?_, ?_⟩
  · intro p q name name' response response' hpq hp hq
    have hlt : response.generation < response'.generation := by
      have hmono : (stateAt cs (p + 1)).nextGeneration ≤ (stateAt cs q).nextGeneration :=
        nextGeneration_mono hpq
      obtain ⟨-, -, hnext, -⟩ := hp.spec
      obtain ⟨hgen, -⟩ := hq.spec
      omega
    refine ⟨hlt, ?_⟩
    rw [hp.spec.2.1, hq.spec.2.1]
    exact fun h => hlt.ne (etagFor_injective h)
  · intro name record h
    rw [← List.take_length (l := cs)] at h
    obtain ⟨p, response, -, hwrote, hetag, hgen, -⟩ := last_writer h
    rw [hetag, hgen, hwrote.spec.2.1]
  · intro q c request hc hreq hanew hmatch hgen
    rw [result_at hc]
    simp only [Option.some.injEq]
    rw [KvState.ifMatch_succeeds_iff hreq hanew hmatch hgen]
    constructor
    · rintro ⟨record, hrecord, hetag⟩
      obtain ⟨p, response, hpq, hwrote, hetag', hgen', hsame⟩ := last_writer hrecord
      exact ⟨record, p, response, hrecord, hpq, hwrote, hetag'.symm.trans hetag, hgen', hsame⟩
    · rintro ⟨-, p, response, -, hpq, hwrote, hresponse, -, hsame⟩
      obtain ⟨record, hrecord, hetag, -⟩ := hwrote.kept hpq hsame
      exact ⟨record, hrecord, hetag.trans hresponse⟩
  · intro q c name body ifMatch result hc hreq hanew hres
    rw [result_at hc, Option.some.injEq] at hres
    obtain ⟨hpre, -⟩ := KvState.put_success hreq hanew hres
    cases hget : (stateAt cs q).entries.get name with
    | none => rfl
    | some record =>
      rw [hget] at hpre
      simp [checkPutPreconditions] at hpre

/-- A key that is deleted and written again with its old body: the first put's ETag is stale,
the second put's goes through. -/
def rewrittenKey : List KvCommand :=
  [.registerSession, .put 1 1 "ns" "key" [7] "" true, .delete 1 2 "ns" "key" "",
    .put 1 3 "ns" "key" [7] "" true, .put 1 4 "ns" "key" [8] (etagFor 1) false,
    .put 1 5 "ns" "key" [9] (etagFor 2) false]

theorem compare_and_set_loses_no_update_rewrittenKey :
    (¬ ∃ record p response, (stateAt rewrittenKey 4).entries.get ⟨"ns", "key"⟩ = some record ∧
      p < 4 ∧ Wrote rewrittenKey p ⟨"ns", "key"⟩ response ∧ response.etag = etagFor 1 ∧
      record.generation = response.generation ∧
      ∀ j, p < j → j < 4 → ¬ Changed rewrittenKey j ⟨"ns", "key"⟩) ∧
    ∃ record p response, (stateAt rewrittenKey 5).entries.get ⟨"ns", "key"⟩ = some record ∧
      p < 5 ∧ Wrote rewrittenKey p ⟨"ns", "key"⟩ response ∧ response.etag = etagFor 2 ∧
      record.generation = response.generation ∧
      ∀ j, p < j → j < 5 → ¬ Changed rewrittenKey j ⟨"ns", "key"⟩ := by
  obtain ⟨-, -, hcas, -⟩ := compare_and_set_loses_no_update rewrittenKey
  have hstale := hcas 4 (.put 1 4 "ns" "key" [8] (etagFor 1) false)
    (.put ⟨"ns", "key"⟩ [8] (etagFor 1) false) rfl (by decide +kernel) (by decide +kernel)
    (by decide +kernel) (by decide +kernel)
  have hcurrent := hcas 5 (.put 1 5 "ns" "key" [9] (etagFor 2) false)
    (.put ⟨"ns", "key"⟩ [9] (etagFor 2) false) rfl (by decide +kernel) (by decide +kernel)
    (by decide +kernel) (by decide +kernel)
  constructor
  · refine fun h => ?_
    obtain ⟨result, hresult⟩ := hstale.mpr h
    have hrejected : (results KvState.apply .new rewrittenKey)[4]? =
        some (.error MutationRejection.etagMismatch.connectError) := by
      decide +kernel
    rw [hrejected] at hresult
    cases hresult
  · have haccepted : (results KvState.apply .new rewrittenKey)[5]? =
        some (.ok (.put ⟨"ns", "key", etagFor 3, 3, 1⟩)) := by
      decide +kernel
    exact hcurrent.mp ⟨_, haccepted⟩

end BasisDB.Kv
