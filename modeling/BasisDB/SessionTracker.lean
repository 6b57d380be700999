import BasisDB.OrdMap
import BasisDB.CommandRuns

/-! The session tracker: which requests it lets through, and when none is executed twice. -/
namespace BasisDB.Session

abbrev ClientId := ℕ

/-- The last completed request of a client and its cached response. -/
structure ClientSession (R : Type*) where
  lastSequence : ℕ := 0
  lastResponse : Option R := none

inductive DuplicateCheck (R : Type*) where
  | new
  | duplicate (response : R)
  | stale

structure SessionTracker (R : Type*) where
  sessions : OrdMap ClientId (ClientSession R)
  nextClientId : ℕ

/-- A registration, or a request together with the response its execution would give. -/
inductive Call (R : Type*) where
  | registerClient
  | request (clientId : ClientId) (sequence : ℕ) (response : R)

def Call.registers {R : Type*} : Call R → Bool
  | registerClient => true
  | request _ _ _ => false

inductive Reply (R : Type*) where
  | registered (id : ClientId)
  | executed (response : R)
  | cached (response : R)
  | stale

namespace SessionTracker
variable {R : Type*}

def new : SessionTracker R where
  sessions := OrdMap.empty
  nextClientId := 1

def registerClient (t : SessionTracker R) : SessionTracker R × ClientId :=
  ({ sessions := t.sessions.insert t.nextClientId {}, nextClientId := t.nextClientId + 1 },
    t.nextClientId)

def checkDuplicate (t : SessionTracker R) (clientId : ClientId) (sequence : ℕ) :
    DuplicateCheck R :=
  match t.sessions.get clientId with
  | none => .new
  | some session =>
    match compare sequence session.lastSequence with
    | .gt => .new
    | .eq =>
      match session.lastResponse with
      | some response => .duplicate response
      | none => .new
    | .lt => .stale

def recordCompletion (t : SessionTracker R) (clientId : ClientId) (sequence : ℕ) (response : R) :
    SessionTracker R :=
  -- `entry(client_id).or_default()`
  let sessions := t.sessions.orInsert clientId {}
  let session := (sessions.get clientId).getD {}
  { t with
    sessions :=
      if session.lastSequence < sequence then
        sessions.insert clientId { lastSequence := sequence, lastResponse := some response }
      else sessions }

def lastSequence (t : SessionTracker R) (clientId : ClientId) : Option ℕ :=
  (t.sessions.get clientId).map ClientSession.lastSequence

/-- The tracker embedded in a state machine: a request is executed and its completion recorded
only if the check finds it new. -/
def apply (t : SessionTracker R) : Call R → SessionTracker R × Reply R
  | .registerClient => (t.registerClient.1, .registered t.registerClient.2)
  | .request clientId sequence response =>
    match t.checkDuplicate clientId sequence with
    | .new => (t.recordCompletion clientId sequence response, .executed response)
    | .duplicate cached => (t, .cached cached)
    | .stale => (t, .stale)

/-- The last completed sequence of a client, 0 if there is none. -/
def last (t : SessionTracker R) (c : ClientId) : ℕ := (t.lastSequence c).getD 0

/-- What holds of every tracker, whatever the calls: a completed request has a response. -/
def Formed (t : SessionTracker R) : Prop :=
  ∀ c session, t.sessions.get c = some session → 0 < session.lastSequence →
    session.lastResponse.isSome

variable {t : SessionTracker R} {c c' : ClientId} {s s' : ℕ} {response : R}

theorem new_formed : (new : SessionTracker R).Formed := fun _ _ h => by cases h

/-- Among sequences from 1 on, the new ones are those above the last. -/
theorem checkDuplicate_eq_new_iff (h : t.Formed) (hs : 1 ≤ s) :
    t.checkDuplicate c s = .new ↔ t.last c < s := by
  unfold checkDuplicate last lastSequence
  cases hget : t.sessions.get c with
  | none =>
    have hpos : 0 < s := hs
    simp [hpos]
  | some session =>
    simp only [Option.map_some, Option.getD_some]
    rcases lt_trichotomy s session.lastSequence with hlt | heq | hgt
    · rw [compare_lt_iff_lt.mpr hlt]
      simp only [reduceCtorEq, false_iff, not_lt]
      exact hlt.le
    · -- an exact duplicate has a cached response
      obtain ⟨r, hr⟩ := Option.isSome_iff_exists.mp (h c session hget (by omega))
      rw [compare_eq_iff_eq.mpr heq, hr]
      simp only [reduceCtorEq, false_iff, not_lt]
      exact heq.le
    · rw [compare_gt_iff_gt.mpr hgt]
      simp only [true_iff]
      exact hgt

theorem recordCompletion_get (h : t.last c < s) :
    (t.recordCompletion c s response).sessions.get c' =
      if c = c' then some { lastSequence := s, lastResponse := some response }
      else t.sessions.get c' := by
  have hlast : (((t.sessions.orInsert c {}).get c).getD {}).lastSequence < s := by
    rw [OrdMap.get_orInsert, if_pos rfl, Option.getD_some]
    unfold last lastSequence at h
    cases hget : t.sessions.get c with
    | none =>
      rw [hget] at h
      exact h
    | some session =>
      rw [hget] at h
      exact h
  simp only [recordCompletion]
  rw [if_pos hlast, OrdMap.get_insert]
  split_ifs with hc
  · rfl
  · rw [OrdMap.get_orInsert, if_neg hc]

/-- The tracker after a call. -/
def after (t : SessionTracker R) (call : Call R) : SessionTracker R := (t.apply call).1

theorem after_request_new (h : t.checkDuplicate c s = .new) :
    t.after (.request c s response) = t.recordCompletion c s response := by
  simp only [after, apply, h]

theorem after_request_old (h : t.checkDuplicate c s ≠ .new) :
    t.after (.request c s response) = t := by
  simp only [after, apply]
  cases hcheck : t.checkDuplicate c s with
  | new => exact absurd hcheck h
  | duplicate r => rfl
  | stale => rfl

theorem last_register (t : SessionTracker R) (c : ClientId) :
    (t.after .registerClient).last c = if t.nextClientId = c then 0 else t.last c := by
  simp only [after, apply, registerClient, last, lastSequence, OrdMap.get_insert]
  split_ifs <;> rfl

/-- A request raises the last sequence of its own client to its own, if that is higher. -/
theorem last_request (h : t.Formed) (hs : 1 ≤ s) (c' : ClientId) :
    (t.after (.request c s response)).last c' = if c = c' then max (t.last c) s else t.last c' := by
  by_cases hnew : t.checkDuplicate c s = .new
  · have hlt := (checkDuplicate_eq_new_iff h hs).mp hnew
    rw [after_request_new hnew, last, lastSequence, recordCompletion_get hlt]
    split_ifs with hc
    · exact (max_eq_right hlt.le).symm
    · rfl
  · have hle : s ≤ t.last c := not_lt.mp (mt (checkDuplicate_eq_new_iff h hs).mpr hnew)
    rw [after_request_old hnew]
    split_ifs with hc
    · rw [← hc, max_eq_left hle]
    · rfl

theorem after_formed (h : t.Formed) {call : Call R}
    (hcall : ∀ c s r, call = .request c s r → 1 ≤ s) : (t.after call).Formed := by
  cases call with
  | registerClient =>
    intro c session hget hpos
    simp only [after, apply, registerClient, OrdMap.get_insert] at hget
    split_ifs at hget with hc
    · cases hget
      exact absurd hpos (lt_irrefl 0)
    · exact h c session hget hpos
  | request c s r =>
    by_cases hnew : t.checkDuplicate c s = .new
    · have hlt := (checkDuplicate_eq_new_iff h (hcall c s r rfl)).mp hnew
      rw [after_request_new hnew]
      intro c' session hget hpos
      rw [recordCompletion_get hlt] at hget
      split_ifs at hget with hc
      · cases hget
        rfl
      · exact h c' session hget hpos
    · rw [after_request_old hnew]
      exact h

theorem nextClientId_request :
    (t.after (.request c s response)).nextClientId = t.nextClientId := by
  by_cases hnew : t.checkDuplicate c s = .new
  · rw [after_request_new hnew]
    rfl
  · rw [after_request_old hnew]

theorem nextClientId_after (t : SessionTracker R) (call : Call R) :
    t.nextClientId ≤ (t.after call).nextClientId := by
  cases call with
  | registerClient => exact Nat.le_succ _
  | request c s r => exact nextClientId_request.ge

/-- The tracker after the first `k` calls. -/
def moment (calls : List (Call R)) (k : ℕ) : SessionTracker R :=
  CommandRuns.exec apply new (calls.take k)

/-- Call `k` is a request that is executed. -/
def Executes (calls : List (Call R)) (k : ℕ) (c : ClientId) (s : ℕ) : Prop :=
  ∃ response, calls[k]? = some (.request c s response) ∧
    ((moment calls k).apply (.request c s response)).2 = .executed response

/-- Call `k` registers the client `c`. -/
def Registers (calls : List (Call R)) (k : ℕ) (c : ClientId) : Prop :=
  calls[k]? = some .registerClient ∧
    ((moment calls k).apply .registerClient).2 = .registered c

/-- The executions of each client have increasing sequences, and no two clients are given the
same identifier. -/
def ExecutesOnce (calls : List (Call R)) : Prop :=
  (∀ j k c s s', j < k → Executes calls j c s → Executes calls k c s' → s < s') ∧
  ∀ j k c c', j < k → Registers calls j c → Registers calls k c' → c ≠ c'

/-- Where a registration hands out an identifier that has a session already, no later request
of this client that the tracker takes for new is at or below the sequence of that session. -/
def Unharmed (calls : List (Call R)) : Prop :=
  ∀ j k c s response session, j < k → Registers calls j c →
    (moment calls j).sessions.get c = some session → calls[k]? = some (.request c s response) →
    (moment calls k).checkDuplicate c s = .new → session.lastSequence < s

/-- Clients number their requests from 1 on. -/
def Numbered (calls : List (Call R)) : Prop := ∀ c s response, .request c s response ∈ calls → 1 ≤ s

section Runs
variable {calls : List (Call R)} {j k : ℕ}

theorem moment_succ {call : Call R} (h : calls[k]? = some call) :
    moment calls (k + 1) = (moment calls k).after call := CommandRuns.exec_take_succ apply h

theorem Numbered.at (h : Numbered calls) (hk : calls[k]? = some (.request c s response)) : 1 ≤ s :=
  h c s response (List.mem_of_getElem? hk)

theorem moment_formed (h : Numbered calls) (k : ℕ) : (moment calls k).Formed := by
  refine CommandRuns.exec_between (P := Formed) apply (Nat.zero_le k) ?_ new_formed
  intro n call _ _ hn hf
  refine after_formed hf ?_
  rintro c s r rfl
  exact h.at hn

theorem executes_iff (h : Numbered calls) : Executes calls k c s ↔
    (∃ response, calls[k]? = some (.request c s response)) ∧ (moment calls k).last c < s := by
  constructor
  · rintro ⟨r, hr, hexec⟩
    refine ⟨⟨r, hr⟩, ?_⟩
    rw [← checkDuplicate_eq_new_iff (moment_formed h k) (h.at hr)]
    simp only [apply] at hexec
    cases hcheck : (moment calls k).checkDuplicate c s with
    | new => rfl
    | duplicate cached =>
      rw [hcheck] at hexec
      cases hexec
    | stale =>
      rw [hcheck] at hexec
      cases hexec
  · rintro ⟨⟨r, hr⟩, hlt⟩
    refine ⟨r, hr, ?_⟩
    have hnew := (checkDuplicate_eq_new_iff (moment_formed h k) (h.at hr)).mpr hlt
    simp only [apply, hnew]

/-- Identifiers are handed out in increasing order. -/
theorem registers_lt {c c' : ClientId} (hjk : j < k) (hj : Registers calls j c)
    (hk : Registers calls k c') : c < c' := by
  obtain ⟨hcall, hc⟩ := hj
  have hle : (moment calls (j + 1)).nextClientId ≤ (moment calls k).nextClientId := by
    refine CommandRuns.exec_between
      (P := fun t => (moment calls (j + 1)).nextClientId ≤ t.nextClientId) apply hjk ?_ le_rfl
    intro n call _ _ _ hn
    exact hn.trans (nextClientId_after _ call)
  rw [moment_succ hcall] at hle
  have hcj : (moment calls j).nextClientId = c := Reply.registered.inj hc
  have hck : (moment calls k).nextClientId = c' := Reply.registered.inj hk.2
  rw [← hcj, ← hck]
  exact hle

/-- The last sequence of a client only rises, as long as its identifier is not handed out. -/
theorem last_le_moment (h : Numbered calls) (hjk : j ≤ k)
    (hreg : ∀ n, j ≤ n → n < k → ¬Registers calls n c) :
    (moment calls j).last c ≤ (moment calls k).last c := by
  refine CommandRuns.exec_between (P := fun t => (moment calls j).last c ≤ t.last c) apply hjk ?_
    le_rfl
  intro n call hjn hnk hn hle
  refine hle.trans ?_
  show (moment calls n).last c ≤ ((moment calls n).after call).last c
  cases call with
  | registerClient =>
    have hne : (moment calls n).nextClientId ≠ c :=
      fun heq => hreg n hjn hnk ⟨hn, congrArg Reply.registered heq⟩
    rw [last_register, if_neg hne]
  | request c' s' r =>
    rw [last_request (moment_formed h n) (h.at hn)]
    split_ifs with hc
    · exact hc ▸ le_max_left _ _
    · exact le_rfl

theorem executes_raises (h : Numbered calls) (hexec : Executes calls k c s) :
    (moment calls (k + 1)).last c = s := by
  obtain ⟨⟨r, hr⟩, hlt⟩ := (executes_iff h).mp hexec
  rw [moment_succ hr, last_request (moment_formed h k) (h.at hr), if_pos rfl]
  exact max_eq_right hlt.le

/-- The last sequence of a client was executed. -/
theorem exists_executes (h : Numbered calls) (hk : k ≤ calls.length)
    (hpos : 0 < (moment calls k).last c) :
    ∃ j < k, Executes calls j c ((moment calls k).last c) := by
  induction k with
  | zero => exact absurd hpos (lt_irrefl 0)
  | succ k ih =>
    have hearlier (heq : (moment calls (k + 1)).last c = (moment calls k).last c) :
        ∃ j < k + 1, Executes calls j c ((moment calls (k + 1)).last c) := by
      rw [heq] at hpos ⊢
      obtain ⟨j, hj, hexec⟩ := ih (by omega) hpos
      exact ⟨j, by omega, hexec⟩
    have hcall : calls[k]? = some calls[k] := List.getElem?_eq_getElem (by omega)
    generalize calls[k] = call at hcall
    cases call with
    | registerClient =>
      have hlast := last_register (moment calls k) c
      rw [← moment_succ hcall] at hlast
      split_ifs at hlast with hc
      · omega
      · exact hearlier hlast
    | request c' s' r =>
      by_cases hexec : c' = c ∧ (moment calls k).last c < s'
      · -- executed now
        obtain ⟨rfl, hlt⟩ := hexec
        have hnow : Executes calls k c' s' := (executes_iff h).mpr ⟨⟨r, hcall⟩, hlt⟩
        rw [executes_raises h hnow]
        exact ⟨k, by omega, hnow⟩
      · apply hearlier
        rw [moment_succ hcall, last_request (moment_formed h k) (h.at hcall)]
        split_ifs with hc
        · rw [hc] at hexec ⊢
          exact max_eq_left (not_lt.mp (fun hlt => hexec ⟨rfl, hlt⟩))
        · rfl

theorem exists_session (hpos : 0 < t.last c) :
    ∃ session, t.sessions.get c = some session ∧ session.lastSequence = t.last c := by
  unfold last lastSequence at hpos ⊢
  cases hget : t.sessions.get c with
  | none =>
    rw [hget] at hpos
    exact absurd hpos (lt_irrefl 0)
  | some session => exact ⟨session, rfl, rfl⟩

theorem last_of_session {session : ClientSession R} (hget : t.sessions.get c = some session) :
    t.last c = session.lastSequence := by
  rw [last, lastSequence, hget]
  rfl

/-- With sessions that no registration overwrites to harm, sequences increase. -/
theorem sequences_increase (h : Numbered calls) (hsafe : Unharmed calls) (hjk : j < k)
    (hj : Executes calls j c s) (hk : Executes calls k c s') : s < s' := by
  have hraised := executes_raises h hj
  obtain ⟨⟨r, hr⟩, hlt⟩ := (executes_iff h).mp hk
  by_cases hreg : ∃ n, j + 1 ≤ n ∧ n < k ∧ Registers calls n c
  · obtain ⟨n, hjn, hnk, hn⟩ := hreg
    -- identifiers are handed out once, so the session is whole up to here
    have hle : (moment calls (j + 1)).last c ≤ (moment calls n).last c := by
      refine last_le_moment h hjn ?_
      intro m _ hmn hm
      exact lt_irrefl c (registers_lt hmn hm hn)
    have hone : 1 ≤ s := by
      obtain ⟨r', hr', -⟩ := hj
      exact h.at hr'
    obtain ⟨session, hget, hseq⟩ := exists_session (t := moment calls n) (c := c) (by omega)
    have hnew := (checkDuplicate_eq_new_iff (moment_formed h k) (h.at hr)).mpr hlt
    have habove := hsafe n k c s' r session hnk hn hget hr hnew
    omega
  · have hle : (moment calls (j + 1)).last c ≤ (moment calls k).last c := by
      refine last_le_moment h hjk ?_
      intro n hjn hnk hn
      exact hreg ⟨n, hjn, hnk, hn⟩
    omega

/-- The identifiers handed out are 1, 2, 3 and so on, whatever sessions there are. -/
theorem registers_iff : Registers calls k c ↔
    calls[k]? = some .registerClient ∧ (calls.take k).countP Call.registers + 1 = c := by
  have hnext (n : ℕ) (hn : n ≤ calls.length) :
      (moment calls n).nextClientId = (calls.take n).countP Call.registers + 1 := by
    induction n with
    | zero => rfl
    | succ n ih =>
      have hcall : calls[n]? = some calls[n] := List.getElem?_eq_getElem (by omega)
      rw [moment_succ hcall, List.take_add_one, hcall, List.countP_append]
      cases calls[n] with
      | registerClient => exact congrArg (· + 1) (ih (by omega))
      | request c s response => exact nextClientId_request.trans (ih (by omega))
  refine and_congr_right (fun hcall => ?_)
  rw [← hnext k (List.getElem?_eq_some_iff.mp hcall).1.le]
  exact ⟨Reply.registered.inj, congrArg Reply.registered⟩

/-- The first request of a client after its registration is above those before. -/
def FirstAbove (calls : List (Call R)) : Prop :=
  ∀ i j k c s s' response response', i < j → j < k →
    calls[i]? = some (.request c s response) →
    calls[j]? = some .registerClient → (calls.take j).countP Call.registers + 1 = c →
    calls[k]? = some (.request c s' response') →
    (∀ n, j < n → n < k → ∀ s r, calls[n]? ≠ some (.request c s r)) → s < s'

/-- A request leaves the last sequence of its client no lower than its own. -/
theorem le_last_moment (h : Numbered calls) (hjk : j < k)
    (hj : calls[j]? = some (.request c s response))
    (hreg : ∀ n, j < n → n < k → ¬Registers calls n c) : s ≤ (moment calls k).last c := by
  have hnow : s ≤ (moment calls (j + 1)).last c := by
    rw [moment_succ hj, last_request (moment_formed h j) (h.at hj), if_pos rfl]
    exact le_max_right _ _
  exact hnow.trans (last_le_moment h hjk (fun n hn => hreg n hn))

/-- After its registration a client starts again. -/
theorem last_since_registration (h : Numbered calls) (hjk : j < k) (hj : Registers calls j c)
    (hnone : ∀ n, j < n → n < k → ∀ s r, calls[n]? ≠ some (.request c s r)) :
    (moment calls k).last c = 0 := by
  refine CommandRuns.exec_between (P := fun t => t.last c = 0) apply (Nat.succ_le_of_lt hjk) ?_ ?_
  · intro n call hjn hnk hn hzero
    change ((moment calls n).after call).last c = 0
    cases call with
    | registerClient =>
      rw [last_register]
      split_ifs
      · rfl
      · exact hzero
    | request c' s' r =>
      have hne : c' ≠ c := fun heq => hnone n hjn hnk s' r (heq ▸ hn)
      rw [last_request (moment_formed h n) (h.at hn), if_neg hne]
      exact hzero
  · change (moment calls (j + 1)).last c = 0
    have hgiven : (moment calls j).nextClientId = c := Reply.registered.inj hj.2
    rw [moment_succ hj.1, last_register, if_pos hgiven]

/-- The condition on the calls alone. -/
theorem unharmed_iff (h : Numbered calls) : Unharmed calls ↔ FirstAbove calls := by
  constructor
  · intro hsafe i j k c s s' r r' hij hjk hi hj hc hk hfirst
    have hreg : Registers calls j c := registers_iff.mpr ⟨hj, hc⟩
    -- an identifier is handed out once, so the session had all requests up to the registration
    have hbefore : s ≤ (moment calls j).last c :=
      le_last_moment h hij hi (fun n _ hnj hn => lt_irrefl c (registers_lt hnj hn hreg))
    have hone := h.at hi
    obtain ⟨session, hget, hseq⟩ := exists_session (t := moment calls j) (c := c) (by omega)
    have hnew : (moment calls k).checkDuplicate c s' = .new := by
      rw [checkDuplicate_eq_new_iff (moment_formed h k) (h.at hk),
        last_since_registration h hjk hreg hfirst]
      exact h.at hk
    have habove := hsafe j k c s' r' session hjk hreg hget hk hnew
    omega
  · intro hfirst j k c s r session hjk hreg hget hk hnew
    have hlt := (checkDuplicate_eq_new_iff (moment_formed h k) (h.at hk)).mp hnew
    have hlast := last_of_session hget
    by_cases hpos : 0 < session.lastSequence
    · obtain ⟨hcall, hc⟩ := registers_iff.mp hreg
      have hj : j ≤ calls.length := (List.getElem?_eq_some_iff.mp hcall).1.le
      obtain ⟨i, hij, r₀, hi, -⟩ := exists_executes (c := c) h hj (by omega)
      rw [hlast] at hi
      -- the first request after the registration is this one or an earlier one
      have hexists : ∃ n, j < n ∧ ∃ s r, calls[n]? = some (.request c s r) := ⟨k, hjk, s, r, hk⟩
      classical
      obtain ⟨hjn, s₁, r₁, hn⟩ := Nat.find_spec hexists
      have habove : session.lastSequence < s₁ := by
        refine hfirst i j _ c _ s₁ r₀ r₁ hij hjn hi hcall hc hn ?_
        intro m hjm hmn s₂ r₂ hm
        exact Nat.find_min hexists hmn ⟨hjm, s₂, r₂, hm⟩
      rcases (Nat.find_le (n := k) ⟨hjk, s, r, hk⟩ : Nat.find hexists ≤ k).lt_or_eq with hnk | heq
      · have hle : s₁ ≤ (moment calls k).last c :=
          le_last_moment h hnk hn
            (fun m hnm _ hm => lt_irrefl c (registers_lt (hjn.trans hnm) hreg hm))
        omega
      · rw [heq, hk] at hn
        cases hn
        exact habove
    · have hone := h.at hk
      omega

/-- Every request is executed at most once, and those of one client in increasing order,
exactly when no registration overwrites a session to harm. -/
theorem executes_once_iff (calls : List (Call R)) (h : Numbered calls) :
    ExecutesOnce calls ↔ Unharmed calls := by
  constructor
  · intro honce j k c s r session hjk hreg hget hcall hnew
    have hlt := (checkDuplicate_eq_new_iff (moment_formed h k) (h.at hcall)).mp hnew
    have hlast := last_of_session hget
    by_cases hpos : 0 < session.lastSequence
    · -- the session records an execution, so the request must be above it
      have hj : j ≤ calls.length := (List.getElem?_eq_some_iff.mp hreg.1).1.le
      obtain ⟨i, hij, hexec⟩ := exists_executes (c := c) h hj (by omega)
      rw [hlast] at hexec
      exact honce.1 i k c _ s (by omega) hexec ((executes_iff h).mpr ⟨⟨r, hcall⟩, hlt⟩)
    · have hone := h.at hcall
      omega
  · intro hsafe
    refine ⟨?_, ?_⟩
    · intro j k c s s' hjk hj hk
      exact sequences_increase h hsafe hjk hj hk
    · intro j k c c' hjk hj hk
      exact ne_of_lt (registers_lt hjk hj hk)

/-- A registered client that sends its first request twice. -/
theorem executes_once_registeredClient :
    ¬Executes [.registerClient, .request 1 1 "ok", .request 1 1 "ok"] 2 1 1 := by
  have hnumbered : Numbered [.registerClient, .request 1 1 "ok", .request 1 1 "ok"] := by
    intro c s r hmem
    simp only [List.mem_cons, reduceCtorEq, Call.request.injEq, List.not_mem_nil, or_false,
      false_or] at hmem
    omega
  have honce : ExecutesOnce [.registerClient, .request 1 1 "ok", .request 1 1 "ok"] := by
    refine (executes_once_iff _ hnumbered).mpr ?_
    intro j k c s r session _ hreg hget
    -- the only registration is the first call, where no session exists
    have hj : j < 3 := (List.getElem?_eq_some_iff.mp hreg.1).1
    obtain ⟨hcall, -⟩ := hreg
    interval_cases j
    · cases hget
    · cases hcall
    · cases hcall
  intro hagain
  exact absurd (honce.1 1 2 1 1 1 (by decide) ⟨"ok", rfl, rfl⟩ hagain) (by decide)

/-- A client that was not registered executes its request, a registration then hands out its
identifier and resets its session, and the request is executed again. -/
theorem unregistered_client_repeats :
    ¬ExecutesOnce [.request 1 1 "ok", .registerClient, .request 1 1 "ok"] := by
  rintro ⟨hincrease, -⟩
  exact absurd (hincrease 0 2 1 1 1 (by decide) ⟨"ok", rfl, rfl⟩ ⟨"ok", rfl, rfl⟩) (by decide)

end Runs
end SessionTracker
end BasisDB.Session
