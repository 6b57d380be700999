import BasisDB.LogCoherence

/-! The history of a replicated log under elections: who voted for whom with
which log, who led which term with which log, and which prefixes of a leader's
log were held elsewhere while its term lasted. -/
namespace ReplicatedLog

structure History (N E : Type*) where
  term : N → ℕ
  log : N → List E
  vote : N → ℕ → Option N
  voteLog : N → ℕ → List E
  leader : ℕ → Option N
  electors : ℕ → Set N
  startLog : ℕ → List E
  leaderLog : ℕ → List E
  agreed : N → ℕ → ℕ → Prop
  commits : Set (ℕ × ℕ × ℕ)

namespace History
variable {N E C : Type*} (σ : Scheme N E C)

/-- The state before anything happened. -/
def start : History N E where
  term := fun _ => 0
  log := fun _ => []
  vote := fun _ _ => none
  voteLog := fun _ _ => []
  leader := fun _ => none
  electors := fun _ => ∅
  startLog := fun _ => []
  leaderLog := fun _ => []
  agreed := fun _ _ _ => False
  commits := ∅

/-- The leader of `u` misses part of the first `i` entries of the leader of `t`. -/
def Misses (h : History N E) (t i u : ℕ) : Prop :=
  h.leader u ≠ none ∧ ¬(h.leaderLog t).take i <+: h.leaderLog u

section Updates
variable [DecidableEq N]

def raiseTerm (h : History N E) (n : N) (t : ℕ) : History N E :=
  { h with term := Function.update h.term n t }

def castVote (h : History N E) (n c : N) : History N E :=
  { h with
    vote := Function.update h.vote n (Function.update (h.vote n) (h.term n) (some c))
    voteLog := Function.update h.voteLog n (Function.update (h.voteLog n) (h.term n) (h.log n)) }

def elect (h : History N E) (c : N) (A : Set N) : History N E :=
  { h with
    leader := Function.update h.leader (h.term c) (some c)
    electors := Function.update h.electors (h.term c) A
    startLog := Function.update h.startLog (h.term c) (h.log c)
    leaderLog := Function.update h.leaderLog (h.term c) (h.log c) }

def append (h : History N E) (c : N) (e : E) : History N E :=
  { h with
    log := Function.update h.log c (h.log c ++ [e])
    leaderLog := Function.update h.leaderLog (h.term c) (h.log c ++ [e]) }

def follow (h : History N E) (n : N) (k : ℕ) : History N E :=
  { h with log := Function.update h.log n ((h.leaderLog (h.term n)).take k) }

def agree (h : History N E) (n : N) (i : ℕ) : History N E :=
  { h with agreed := fun m t j => h.agreed m t j ∨ (m = n ∧ t = h.term n ∧ j ≤ i) }

def commit (h : History N E) (t i : ℕ) : History N E :=
  { h with commits := insert (t, i, (h.leaderLog t).length) h.commits }

/-- What may happen next. `G` says which entries a leader may append. A commit
records the length of the leader's log as well: its quorum is one of the
configuration in force there. -/
inductive Step (G : History N E → N → E → Prop) : History N E → History N E → Prop
  | raiseTerm {h} (n : N) (t : ℕ) (ht : h.term n ≤ t) : Step G h (h.raiseTerm n t)
  | castVote {h} (n c : N) (hv : h.vote n (h.term n) = none) : Step G h (h.castVote n c)
  | elect {h} (c : N) (A : Set N) (hl : h.leader (h.term c) = none)
      (hv : ∀ q ∈ A, h.vote q (h.term c) = some c ∧
        UpToDate σ (h.log c) (h.voteLog q (h.term c)))
      (hq : σ.quorum (config σ (h.log c)) A) : Step G h (h.elect c A)
  | append {h} (c : N) (e : E) (hl : h.leader (h.term c) = some c) (he : σ.term e = h.term c)
      (hG : G h c e) : Step G h (h.append c e)
  | follow {h} (n : N) (k : ℕ) (hl : h.leader (h.term n) ≠ none)
      (hk : ¬(h.leaderLog (h.term n)).take k <+: h.log n) : Step G h (h.follow n k)
  | agree {h} (n : N) (i : ℕ) (hl : h.leader (h.term n) ≠ none)
      (hi : i ≤ (h.leaderLog (h.term n)).length)
      (hp : (h.leaderLog (h.term n)).take i <+: h.log n) : Step G h (h.agree n i)
  | commit {h} (t i : ℕ) (hl : h.leader t ≠ none)
      (he : ∃ P e, P ++ [e] <+: h.leaderLog t ∧ P.length + 1 = i ∧ σ.term e = t)
      (hq : ∃ A, σ.quorum (config σ (h.leaderLog t)) A ∧ ∀ q ∈ A, h.agreed q t i) :
      Step G h (h.commit t i)

end Updates

/-- The facts about a history that every step keeps. -/
structure Inv (h : History N E) : Prop where
  coherent : ∀ n, Coherent σ h.leaderLog (h.log n)
  leader_coherent : ∀ t, Coherent σ h.leaderLog (h.leaderLog t)
  vote_coherent : ∀ n t, Coherent σ h.leaderLog (h.voteLog n t)
  ordered : ∀ t, Ordered σ (h.leaderLog t)
  unled : ∀ t, h.leader t = none → h.leaderLog t = []
  reign : ∀ t, ∃ R, h.leaderLog t = h.startLog t ++ R ∧ ∀ e ∈ R, σ.term e = t
  start_lt : ∀ t, ∀ e ∈ h.startLog t, σ.term e < t
  log_le : ∀ n, ∀ e ∈ h.log n, σ.term e ≤ h.term n
  leader_le : ∀ t c, h.leader t = some c → t ≤ h.term c
  leader_log : ∀ t c, h.leader t = some c → h.term c = t → h.log c = h.leaderLog t
  vote_le : ∀ n t c, h.vote n t = some c → t ≤ h.term n
  electors_vote : ∀ t c, h.leader t = some c → ∀ q ∈ h.electors t,
    h.vote q t = some c ∧ UpToDate σ (h.startLog t) (h.voteLog q t)
  electors_quorum : ∀ t, h.leader t ≠ none → σ.quorum (config σ (h.startLog t)) (h.electors t)
  agreed_led : ∀ n t i, h.agreed n t i → h.leader t ≠ none
  agreed_le : ∀ n t i, h.agreed n t i → t ≤ h.term n ∧ i ≤ (h.leaderLog t).length
  agreed_log : ∀ n t i, h.agreed n t i → (h.leaderLog t).take i <+: h.log n ∨
    ∃ u, t < u ∧ u ≤ h.term n ∧ h.Misses t i u
  agreed_vote : ∀ n t i u c, h.agreed n t i → t < u → h.vote n u = some c →
    (h.leaderLog t).take i <+: h.voteLog n u ∨
    ∃ w, t < w ∧ w ≤ u ∧ ((h.leader u = none ∨ n ∈ h.electors u) → w < u) ∧ h.Misses t i w
  commit_led : ∀ t i m, (t, i, m) ∈ h.commits → h.leader t ≠ none
  commit_le : ∀ t i m, (t, i, m) ∈ h.commits → i ≤ m ∧ m ≤ (h.leaderLog t).length
  commit_own : ∀ t i m, (t, i, m) ∈ h.commits →
    ∃ P e, P ++ [e] <+: h.leaderLog t ∧ P.length + 1 = i ∧ σ.term e = t
  commit_quorum : ∀ t i m, (t, i, m) ∈ h.commits →
    ∃ A, σ.quorum (config σ ((h.leaderLog t).take m)) A ∧ ∀ q ∈ A, h.agreed q t i

variable {σ}

theorem start_inv : Inv σ (start : History N E) where
  coherent := fun _ => coherent_nil _
  leader_coherent := fun _ => coherent_nil _
  vote_coherent := fun _ _ => coherent_nil _
  ordered := fun _ => List.Pairwise.nil
  unled := fun _ _ => rfl
  reign := fun _ => ⟨[], rfl, fun e he => absurd he List.not_mem_nil⟩
  start_lt := fun _ e he => absurd he List.not_mem_nil
  log_le := fun _ e he => absurd he List.not_mem_nil
  leader_le := fun _ _ h => absurd h (by simp [start])
  leader_log := fun _ _ _ _ => rfl
  vote_le := fun _ _ _ h => absurd h (by simp [start])
  electors_vote := fun _ _ h => absurd h (by simp [start])
  electors_quorum := fun _ h => absurd rfl h
  agreed_led := fun _ _ _ h => h.elim
  agreed_le := fun _ _ _ h => h.elim
  agreed_log := fun _ _ _ h => h.elim
  agreed_vote := fun _ _ _ _ _ h => h.elim
  commit_led := fun _ _ _ h => absurd h (Set.notMem_empty _)
  commit_le := fun _ _ _ h => absurd h (Set.notMem_empty _)
  commit_own := fun _ _ _ h => absurd h (Set.notMem_empty _)
  commit_quorum := fun _ _ _ h => absurd h (Set.notMem_empty _)

namespace Inv
variable {h : History N E}

theorem terms_le (hI : Inv σ h) (t : ℕ) : ∀ e ∈ h.leaderLog t, σ.term e ≤ t := by
  intro e he
  obtain ⟨R, hR, hRt⟩ := hI.reign t
  rw [hR] at he
  rcases List.mem_append.mp he with he | he
  · exact (hI.start_lt t e he).le
  · exact (hRt e he).le

theorem start_prefix (hI : Inv σ h) (t : ℕ) : h.startLog t <+: h.leaderLog t := by
  obtain ⟨R, hR, -⟩ := hI.reign t
  exact ⟨R, hR.symm⟩

/-- An entry of a coherent log was created by a leader. -/
theorem led_of_prefix (hI : Inv σ h) {L P : List E} {e : E} (hL : Coherent σ h.leaderLog L)
    (hP : P ++ [e] <+: L) : h.leader (σ.term e) ≠ none := by
  intro hn
  have hp := hL P e hP
  rw [hI.unled _ hn] at hp
  exact absurd (List.prefix_nil.mp hp) (by simp)

end Inv
end History
end ReplicatedLog
