import BasisDB.KvGenerations

/-! Failed commands: no command ends in one of the internal errors of the session cache, and a
command that fails leaves everything as it was, up to the rejection in its own session. -/
namespace BasisDB.Kv

open CommandRuns

/-- The errors that report a broken session. -/
def sessionErrors : List ConnectError :=
  [⟨.internal, "session cache is incomplete"⟩, ⟨.internal, "session cache is inconsistent"⟩,
    ⟨.internal, "session result mismatch"⟩]

theorem sessionErrors_internal : ∀ error ∈ sessionErrors, error.code = .internal := by decide

/-- A failure is not an internal one. -/
def External {α : Type} (r : Except ConnectError α) : Prop :=
  ∀ error, r = .error error → error.code ≠ .internal

namespace External
variable {α β : Type}

theorem ok (a : α) : External (.ok a : Except ConnectError α) := by
  intro error h
  cases h

theorem error {e : ConnectError} (h : e.code ≠ .internal) :
    External (.error e : Except ConnectError α) := by
  intro error he
  cases he
  exact h

theorem bind {r : Except ConnectError α} {f : α → Except ConnectError β} (hr : External r)
    (hf : ∀ a, External (f a)) : External (r >>= f) := by
  cases r with
  | error e => exact error (hr e rfl)
  | ok a => exact hf a

end External

/-! Validation fails with the caller's errors only. -/

theorem validateMutationRequest_external (clientId sequence : ℕ) :
    External (validateMutationRequest clientId sequence) := by
  unfold validateMutationRequest
  split_ifs
  · apply External.error
    decide
  · apply External.error
    decide
  · exact External.ok ()

theorem validateEtag_external (etag : String) : External (validateEtag etag) := by
  unfold validateEtag
  split_ifs
  · apply External.error
    decide
  · exact External.ok ()

theorem validatePutPreconditions_external (ifMatch : String) (ifNoneMatch : Bool) :
    External (validatePutPreconditions ifMatch ifNoneMatch) := by
  apply External.bind (validateEtag_external ifMatch)
  intro _
  split_ifs
  · apply External.error
    decide
  · exact External.ok ()

theorem validateValue_external (body : List UInt8) : External (validateValue body) := by
  unfold validateValue
  split_ifs
  · apply External.error
    decide
  · exact External.ok ()

theorem KvName.new_external (namespace_ key : String) : External (KvName.new namespace_ key) := by
  unfold KvName.new
  split_ifs
  · apply External.error
    decide
  · apply External.error
    decide
  · apply External.error
    decide
  · apply External.error
    decide
  · exact External.ok _

theorem putName_external (clientId sequence : ℕ) (namespace_ key : String) (body : List UInt8)
    (ifMatch : String) (ifNoneMatch : Bool) :
    External (putName clientId sequence namespace_ key body ifMatch ifNoneMatch) := by
  apply External.bind (validateMutationRequest_external _ _)
  intro _
  apply External.bind (validatePutPreconditions_external _ _)
  intro _
  apply External.bind (validateValue_external _)
  intro _
  exact KvName.new_external _ _

theorem deleteName_external (clientId sequence : ℕ) (namespace_ key : String)
    (ifMatch : String) : External (deleteName clientId sequence namespace_ key ifMatch) := by
  apply External.bind (validateMutationRequest_external _ _)
  intro _
  apply External.bind (validateEtag_external _)
  intro _
  exact KvName.new_external _ _

theorem MutationResult.answer_external (result : MutationResult) : External result.answer := by
  cases result with
  | put response => exact External.ok _
  | delete response => exact External.ok _
  | rejected rejection =>
    apply External.error
    cases rejection <;> decide

namespace KvState
variable {s : KvState} {c : KvCommand}

theorem apply_invalid_external {k n : ℕ} (s : KvState) (hc : c.client = some (k, n))
    (hreq : c.request = none) : External (s.apply c).2 := by
  cases c with
  | registerSession => cases hc
  | readBarrier => cases hc
  | put k n namespace_ key body ifMatch ifNoneMatch =>
    have hname := putName_external k n namespace_ key body ifMatch ifNoneMatch
    rw [apply, applyPut]
    simp only [KvCommand.request] at hreq
    generalize putName k n namespace_ key body ifMatch ifNoneMatch = name at hreq hname ⊢
    cases name with
    | error error => exact External.error (hname error rfl)
    | ok name => cases hreq
  | delete k n namespace_ key ifMatch =>
    have hname := deleteName_external k n namespace_ key ifMatch
    rw [apply, applyDelete]
    simp only [KvCommand.request] at hreq
    generalize deleteName k n namespace_ key ifMatch = name at hreq hname ⊢
    cases name with
    | error error => exact External.error (hname error rfl)
    | ok name => cases hreq

/-- With well-formed sessions no command fails with an internal error. -/
theorem apply_external (hs : s.WellFormed) (c : KvCommand) : External (s.apply c).2 := by
  rcases hc : c.client with _ | ⟨k, n⟩
  · cases c with
    | registerSession =>
      rw [apply, takeClientId]
      cases checkedSucc s.nextClientId with
      | none =>
        apply External.error
        decide
      | some next => exact External.ok _
    | readBarrier => exact External.ok _
    | put => cases hc
    | delete => cases hc
  rcases hreq : c.request with _ | request
  · exact apply_invalid_external s hc hreq
  rcases hk : s.sessions.get k with _ | session
  · rw [apply_unknown hc hreq hk]
    apply External.error
    decide
  rcases lt_trichotomy n session.sequence with hlt | heq | hgt
  · rw [apply_stale hc hreq hk hlt]
    apply External.error
    decide
  · -- a retry: the session holds a request with a result of its kind
    have hpos := (apply_valid hc hreq).1
    rw [apply_replay hc hreq hk (hs.sessions k session hk) heq]
    rcases hs.sessions k session hk with rfl | ⟨-, cached, result, hcached, hresult, -⟩
    · exact absurd heq hpos.ne'
    · simp only [SessionState.replay, hcached, hresult]
      split_ifs
      · exact result.answer_external
      · apply External.error
        decide
  · obtain ⟨result, -, hanswer, -, -⟩ := apply_fresh hc hreq hk hgt
    rw [hanswer]
    exact result.answer_external

theorem failed_sameStore (hs : s.WellFormed) {error : ConnectError}
    (h : (s.apply c).2 = .error error) : s.SameStore (s.apply c).1 := by
  rcases store_step hs c with hsame | ⟨request, response, -, -, hok, -⟩
  · exact hsame
  · rw [hok] at h
    cases h

/-- A failed command changes nothing, or records its rejection in its own session. -/
theorem failed_apply (hs : s.WellFormed) {error : ConnectError}
    (h : (s.apply c).2 = .error error) :
    (s.apply c).1 = s ∨ ∃ k n request rejection, c.client = some (k, n) ∧
      c.request = some request ∧ error = rejection.connectError ∧
      (s.sessions.get k).isSome = true ∧
      (s.apply c).1 = { s with
        sessions := s.sessions.insert k ⟨n, some request, some (.rejected rejection)⟩ } := by
  rcases hc : c.client with _ | ⟨k, n⟩
  · left
    cases c with
    | registerSession =>
      rw [apply, takeClientId] at h ⊢
      cases hnext : checkedSucc s.nextClientId with
      | none => rfl
      | some next =>
        rw [hnext] at h
        cases h
    | readBarrier => cases h
    | put => cases hc
    | delete => cases hc
  rcases mutation_step hs hc with hsame | ⟨request, session, hreq, hk, -, result, -, hanswer, hid,
    hsessions⟩
  · exact Or.inl hsame
  · right
    obtain ⟨hentries, hgeneration⟩ := failed_sameStore hs h
    rw [h] at hanswer
    cases result with
    | put response => cases hanswer
    | delete response => cases hanswer
    | rejected rejection =>
      refine ⟨k, n, request, rejection, rfl, hreq, Except.error.inj hanswer, by rw [hk]; rfl, ?_⟩
      generalize (s.apply c).1 = t at hentries hgeneration hid hsessions
      cases t
      cases hentries
      cases hgeneration
      cases hid
      cases hsessions
      rfl

end KvState

/-- In every reachable state the sessions are complete, no command reports them broken, and a
failed command leaves entries, generation counter and the set of sessions as they were. -/
theorem kv_apply_atomic (cs : List KvCommand) :
    let s := exec KvState.apply KvState.new cs
    (∀ k session, s.sessions.get k = some session →
      (session.sequence = 0 ∧ session.request = none ∧ session.result = none) ∨
      (0 < session.sequence ∧ ∃ request result, session.request = some request ∧
        session.result = some result ∧ request.Fits result)) ∧
    (∀ c, ∀ error ∈ sessionErrors, (s.apply c).2 ≠ .error error) ∧
    ∀ c error, (s.apply c).2 = .error error →
      (s.apply c).1.entries = s.entries ∧
      (s.apply c).1.nextGeneration = s.nextGeneration ∧
      (∀ k, ((s.apply c).1.sessions.get k).isSome = (s.sessions.get k).isSome) ∧
      ((s.apply c).1 = s ∨ ∃ k n request rejection, c.client = some (k, n) ∧
        c.request = some request ∧ error = rejection.connectError ∧
        (s.sessions.get k).isSome = true ∧
        (s.apply c).1 = { s with
          sessions := s.sessions.insert k ⟨n, some request, some (.rejected rejection)⟩ }) := by
  intro s
  have hs : s.WellFormed := KvState.exec_wellFormed cs
  refine ⟨?_, ?_, ?_⟩
  · intro k session hk
    rcases hs.sessions k session hk with rfl | hused
    · exact Or.inl ⟨rfl, rfl, rfl⟩
    · exact Or.inr hused
  · intro c error hmem hfail
    exact KvState.apply_external hs c error hfail (sessionErrors_internal error hmem)
  · intro c error hfail
    have hfailed := KvState.failed_apply hs hfail
    refine ⟨(KvState.failed_sameStore hs hfail).1, (KvState.failed_sameStore hs hfail).2, ?_, hfailed⟩
    intro j
    rcases hfailed with hsame | ⟨k, n, request, rejection, -, -, -, hk, hafter⟩
    · rw [hsame]
    · rw [hafter, OrdMap.get_insert]
      by_cases hj : k = j
      · subst hj
        rw [if_pos rfl, hk]
        rfl
      · rw [if_neg hj]

end BasisDB.Kv
