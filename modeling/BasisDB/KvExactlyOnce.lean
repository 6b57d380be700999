import BasisDB.KvSessions

/-! Exactly-once execution of mutations over whole command lists. -/
namespace BasisDB.Kv

open CommandRuns

/-- The invariant of reachable states: client ids are handed out in order, and every session
holds the request and the result of its last mutation. -/
structure KvState.WellFormed (s : KvState) : Prop where
  issued : ∀ k session, s.sessions.get k = some session → k < s.nextClientId
  sessions : ∀ k session, s.sessions.get k = some session → session.WellFormed

/-- What one command leaves in a session: the session itself, or the record of a mutation with
a larger sequence. -/
def SessionState.Follows (session : SessionState) (k : ℕ) (c : KvCommand)
    (answer : Except ConnectError KvApplyResult) (session' : SessionState) : Prop :=
  session' = session ∨ ∃ n request result, c.client = some (k, n) ∧ c.request = some request ∧
    session.sequence < n ∧ request.Fits result ∧ answer = result.answer ∧
    session' = ⟨n, some request, some result⟩

namespace KvState
variable {s : KvState}

theorem new_wellFormed : KvState.new.WellFormed :=
  ⟨fun _ _ h => (Option.some_ne_none _ h.symm).elim,
    fun _ _ h => (Option.some_ne_none _ h.symm).elim⟩

theorem registerSession_frame (s : KvState) :
    (s.apply .registerSession).1 = s ∨
    (s.apply .registerSession).1.nextClientId = s.nextClientId + 1 ∧
      (s.apply .registerSession).1.sessions = s.sessions.insert s.nextClientId {} := by
  rw [apply, takeClientId]
  unfold checkedSucc
  split_ifs
  · exact Or.inr ⟨rfl, rfl⟩
  · exact Or.inl rfl

/-- A mutation leaves the state alone or records its result in its own session. -/
theorem mutation_step (hs : s.WellFormed) {c : KvCommand} {k n : ℕ}
    (hc : c.client = some (k, n)) :
    (s.apply c).1 = s ∨ ∃ request session, c.request = some request ∧
      s.sessions.get k = some session ∧ session.sequence < n ∧
      Records s k n request (s.apply c) := by
  cases hreq : c.request with
  | none =>
    obtain ⟨error, happly⟩ := apply_invalid s hc hreq
    exact Or.inl (congrArg Prod.fst happly)
  | some request =>
    cases hk : s.sessions.get k with
    | none => exact Or.inl (congrArg Prod.fst (apply_unknown hc hreq hk))
    | some session =>
      rcases lt_trichotomy n session.sequence with hlt | heq | hgt
      · exact Or.inl (congrArg Prod.fst (apply_stale hc hreq hk hlt))
      · exact Or.inl (congrArg Prod.fst (apply_replay hc hreq hk (hs.sessions k _ hk) heq))
      · exact Or.inr ⟨request, session, rfl, rfl, hgt, apply_fresh hc hreq hk hgt⟩

/-- One command and one session: it stays, and changes only by a fresh mutation of its client. -/
theorem session_step (hs : s.WellFormed) (c : KvCommand) {k : ℕ} {session : SessionState}
    (hk : s.sessions.get k = some session) :
    ∃ session', (s.apply c).1.sessions.get k = some session' ∧
      session.Follows k c (s.apply c).2 session' := by
  have hkeep (h : (s.apply c).1 = s) : ∃ session', (s.apply c).1.sessions.get k = some session' ∧
      session.Follows k c (s.apply c).2 session' := ⟨session, by rw [h, hk], Or.inl rfl⟩
  cases hc : c.client with
  | none =>
    cases c with
    | registerSession =>
      rcases registerSession_frame s with hsame | ⟨-, hinsert⟩
      · exact hkeep hsame
      · refine ⟨session, ?_, Or.inl rfl⟩
        rw [hinsert, OrdMap.get_insert_ne _ _ (hs.issued k session hk).ne', hk]
    | readBarrier => exact hkeep rfl
    | put => cases hc
    | delete => cases hc
  | some client =>
    obtain ⟨j, n⟩ := client
    rcases mutation_step hs hc with hsame | ⟨request, session₀, hreq, hj, hlt, result, hfit,
      hanswer, -, hsessions⟩
    · exact hkeep hsame
    · rw [hsessions]
      by_cases hjk : j = k
      · subst hjk
        obtain rfl : session₀ = session := Option.some.inj (hj.symm.trans hk)
        exact ⟨_, OrdMap.get_insert_self .., Or.inr ⟨n, request, result, hc, hreq, hlt, hfit,
          hanswer, rfl⟩⟩
      · exact ⟨session, (OrdMap.get_insert_ne _ _ hjk).trans hk, Or.inl rfl⟩

theorem apply_wellFormed (s : KvState) (c : KvCommand) (hs : s.WellFormed) :
    (s.apply c).1.WellFormed := by
  -- every way a command changes the sessions binds one of them
  have hbind {t : KvState} {k : ℕ} {session : SessionState} (hk : k < t.nextClientId)
      (hid : s.nextClientId ≤ t.nextClientId) (hwf : session.WellFormed)
      (ht : t.sessions = s.sessions.insert k session) : t.WellFormed := by
    refine ⟨fun j session' hj => ?_, fun j session' hj => ?_⟩
    all_goals
      rw [ht, OrdMap.get_insert] at hj
      split_ifs at hj with hkj
    · exact hkj ▸ hk
    · exact (hs.issued j session' hj).trans_le hid
    · exact Option.some.inj hj ▸ hwf
    · exact hs.sessions j session' hj
  cases hc : c.client with
  | none =>
    cases c with
    | registerSession =>
      rcases registerSession_frame s with hsame | ⟨hid, hinsert⟩
      · exact hsame.symm ▸ hs
      · exact hbind (by omega) (by omega) (Or.inl rfl) hinsert
    | readBarrier => exact hs
    | put => cases hc
    | delete => cases hc
  | some client =>
    obtain ⟨k, n⟩ := client
    rcases mutation_step hs hc with hsame | ⟨request, session, -, hk, hlt, result, hfit, -, hid,
      hinsert⟩
    · exact hsame.symm ▸ hs
    · have hwf : SessionState.WellFormed ⟨n, some request, some result⟩ :=
        Or.inr ⟨Nat.zero_lt_of_lt hlt, request, result, rfl, rfl, hfit⟩
      exact hbind (hid ▸ hs.issued k session hk) hid.ge hwf hinsert

theorem exec_wellFormed (cs : List KvCommand) : (exec apply new cs).WellFormed :=
  exec_invariant apply apply_wellFormed new_wellFormed cs

/-- The session answers the mutation `(k, n, request)` with `answer`. -/
def Holds (s : KvState) (k n : ℕ) (request : MutationRequest)
    (answer : Except ConnectError KvApplyResult) : Prop :=
  ∃ session, s.sessions.get k = some session ∧ session.sequence = n ∧
    session.replay request = answer

/-- The session has moved past the sequence. -/
def Passed (s : KvState) (k n : ℕ) : Prop :=
  ∃ session, s.sessions.get k = some session ∧ n < session.sequence

section Steps
variable (hs : s.WellFormed) {k n : ℕ} {request : MutationRequest}
include hs

/-- An executed mutation leaves its own answer in its session. -/
theorem holds_of_executes {c : KvCommand} {session : SessionState}
    (hc : c.client = some (k, n)) (hreq : c.request = some request)
    (hk : s.sessions.get k = some session) (hle : session.sequence ≤ n) :
    (s.apply c).1.Holds k n request (s.apply c).2 := by
  rcases hle.eq_or_lt with heq | hlt
  · rw [apply_replay hc hreq hk (hs.sessions k session hk) heq.symm]
    exact ⟨session, hk, heq, rfl⟩
  · obtain ⟨result, -, hanswer, -, hsessions⟩ := apply_fresh hc hreq hk hlt
    refine ⟨_, hsessions ▸ OrdMap.get_insert_self .., rfl, ?_⟩
    rw [hanswer]
    exact if_pos rfl

theorem Passed.step (h : s.Passed k n) (c : KvCommand) : (s.apply c).1.Passed k n := by
  obtain ⟨session, hk, hlt⟩ := h
  obtain ⟨session', hk', rfl | ⟨m, _, _, -, -, hm, -, -, rfl⟩⟩ := session_step hs c hk
  · exact ⟨session', hk', hlt⟩
  · exact ⟨_, hk', hlt.trans hm⟩

/-- An answer stays until a mutation of the client with a larger sequence executes. -/
theorem Holds.step {answer : Except ConnectError KvApplyResult}
    (h : s.Holds k n request answer) (c : KvCommand)
    (hc : ∀ m, c.client = some (k, m) → n < m → s.executes c = false) :
    (s.apply c).1.Holds k n request answer := by
  obtain ⟨session, hk, hn, hanswer⟩ := h
  obtain ⟨session', hk', rfl | ⟨m, request', _, hm, hreq, hlt, -⟩⟩ := session_step hs c hk
  · exact ⟨session', hk', hn, hanswer⟩
  · have hexec := executes_iff.mpr ⟨k, m, request', session, hm, hreq, hk, hlt.le⟩
    rw [hc m hm (hn ▸ hlt)] at hexec
    cases hexec

end Steps
end KvState

/-- The state before position `i`. -/
abbrev stateAt (cs : List KvCommand) (i : ℕ) : KvState := exec KvState.apply .new (cs.take i)

/-- Between positions `p` and `q` a mutation of `c`'s client with a larger sequence executes. -/
def Overtaken (cs : List KvCommand) (p q : ℕ) (c : KvCommand) : Prop :=
  ∃ j d k n m, p < j ∧ j < q ∧ cs[j]? = some d ∧ c.client = some (k, n) ∧
    d.client = some (k, m) ∧ n < m ∧ (stateAt cs j).executes d

section Retry
variable {cs : List KvCommand} {p q k n : ℕ} {c : KvCommand} {request : MutationRequest}
  (hc : c.client = some (k, n))
include hc

theorem passed_of_overtaken (h : Overtaken cs p q c) : (stateAt cs q).Passed k n := by
  obtain ⟨j, d, k', n', m, -, hjq, hj, hc', hd, hnm, hexec⟩ := h
  obtain ⟨rfl, rfl⟩ : k = k' ∧ n = n' := by simpa [hc] using hc'
  obtain ⟨k', m', request', session, hd', hreq, hk, hle⟩ := KvState.executes_iff.mp hexec
  obtain ⟨rfl, rfl⟩ : k = k' ∧ m = m' := by simpa [hd] using hd'
  obtain ⟨session', hk', rfl, -⟩ :=
    KvState.holds_of_executes (KvState.exec_wellFormed _) hd hreq hk hle
  refine exec_between KvState.apply (P := fun s => s.Passed k n) hjq
    (fun i d _ _ _ h => h.step (KvState.exec_wellFormed _) d) ?_
  rw [exec_take_succ KvState.apply hj]
  exact ⟨session', hk', hnm⟩

theorem holds_of_not_overtaken {answer : Except ConnectError KvApplyResult} (hpq : p < q)
    (hfirst : (stateAt cs (p + 1)).Holds k n request answer) (hno : ¬ Overtaken cs p q c) :
    (stateAt cs q).Holds k n request answer := by
  refine exec_between KvState.apply (P := fun s => s.Holds k n request answer) hpq
    (fun j d hpj hjq hj h => ?_) hfirst
  refine h.step (KvState.exec_wellFormed _) d (fun m hd hnm => ?_)
  rw [← Bool.not_eq_true]
  exact fun hexec => hno ⟨j, d, k, n, m, hpj, hjq, hj, hc, hd, hnm, hexec⟩

end Retry

/-- What a retry does: nothing to the state, and the answer is the first one or stale. -/
theorem retry_apply {cs : List KvCommand} {p q : ℕ} {c : KvCommand} (hpq : p < q)
    (hp : cs[p]? = some c) (hexec : (stateAt cs p).executes c) :
    (¬ Overtaken cs p q c →
      (stateAt cs q).apply c = (stateAt cs q, ((stateAt cs p).apply c).2)) ∧
    (Overtaken cs p q c → (stateAt cs q).apply c = (stateAt cs q, .error staleSequence)) := by
  obtain ⟨k, n, request, session, hc, hreq, hk, hle⟩ := KvState.executes_iff.mp hexec
  constructor
  · intro hno
    have hfirst := KvState.holds_of_executes (KvState.exec_wellFormed _) hc hreq hk hle
    rw [← exec_take_succ KvState.apply hp] at hfirst
    obtain ⟨session', hk', hn, hanswer⟩ := holds_of_not_overtaken hc hpq hfirst hno
    rw [KvState.apply_replay hc hreq hk' ((KvState.exec_wellFormed _).sessions k _ hk') hn.symm,
      hanswer]
  · intro hover
    obtain ⟨session', hk', hlt⟩ := passed_of_overtaken hc hover
    exact KvState.apply_stale hc hreq hk' hlt

/-- Exactly-once mutations: a mutation that executed and occurs again changes nothing the
second time, and is answered as the first time unless its session has moved on. -/
theorem mutation_exactly_once (cs : List KvCommand) {p q : ℕ} {c : KvCommand} (hpq : p < q)
    (hp : cs[p]? = some c) (hq : cs[q]? = some c) (hexec : (stateAt cs p).executes c) :
    exec KvState.apply .new (cs.eraseIdx q) = exec KvState.apply .new cs ∧
    results KvState.apply .new (cs.eraseIdx q) = (results KvState.apply .new cs).eraseIdx q ∧
    (¬ Overtaken cs p q c →
      (results KvState.apply .new cs)[q]? = (results KvState.apply .new cs)[p]?) ∧
    (Overtaken cs p q c →
      (results KvState.apply .new cs)[q]? = some (.error staleSequence)) := by
  obtain ⟨hagain, hstale⟩ := retry_apply (q := q) hpq hp hexec
  have hsame : ((stateAt cs q).apply c).1 = stateAt cs q := by
    by_cases h : Overtaken cs p q c
    · rw [hstale h]
    · rw [hagain h]
  have hresult {i : ℕ} (hi : cs[i]? = some c) :
      (results KvState.apply .new cs)[i]? = some ((stateAt cs i).apply c).2 := by
    rw [results_getElem?, hi]
    rfl
  refine ⟨exec_eraseIdx hq hsame, results_eraseIdx hq hsame, fun h => ?_, fun h => ?_⟩
  · rw [hresult hq, hresult hp, hagain h]
  · rw [hresult hq, hstale h]

/-- A client whose first put is repeated after its key was written by another client and then
deleted, and once more after the client's second mutation. -/
def retriedPut : List KvCommand :=
  [.registerSession, .registerSession, .put 1 1 "ns" "key" [7] "" true,
    .put 2 1 "ns" "key" [8] "" false, .delete 2 2 "ns" "key" "", .put 1 1 "ns" "key" [7] "" true,
    .delete 1 2 "ns" "other" "", .put 1 1 "ns" "key" [7] "" true]

theorem mutation_exactly_once_retriedPut :
    (results KvState.apply .new retriedPut)[5]? =
      some (.ok (.put ⟨"ns", "key", etagFor 1, 1, 1⟩)) ∧
    (results KvState.apply .new retriedPut)[7]? = some (.error staleSequence) ∧
    results KvState.apply .new (retriedPut.eraseIdx 7) =
      (results KvState.apply .new retriedPut).eraseIdx 7 := by
  have hfirst := mutation_exactly_once retriedPut (p := 2) (q := 5) (by decide) rfl rfl
    (by decide +kernel)
  have hsecond := mutation_exactly_once retriedPut (p := 2) (q := 7) (by decide) rfl rfl
    (by decide +kernel)
  refine ⟨?_, ?_, hsecond.2.1⟩
  · rw [hfirst.2.2.1 ?_]
    · decide +kernel
    · rintro ⟨j, d, k, n, m, hj, hjq, hd, hc, hdc, hnm, -⟩
      obtain ⟨rfl, rfl⟩ : 1 = k ∧ 1 = n := by simpa [KvCommand.client] using hc
      interval_cases j <;> cases hd <;> simp [KvCommand.client] at hdc
  · exact hsecond.2.2.2 ⟨6, .delete 1 2 "ns" "other" "", 1, 1, 2, by decide, by decide, rfl, rfl,
      rfl, by decide, by decide +kernel⟩

end BasisDB.Kv
