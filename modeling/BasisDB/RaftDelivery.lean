import BasisDB.RaftCluster

/-! Delivery in order: every message from a point on is delivered once, in the order in which
the messages were emitted. -/
namespace BasisDB.Raft
namespace Cluster
variable {s : Cluster} {k n : ℕ} {P : Cluster → Prop}

/-- The messages that were not delivered yet, when those before a position were. -/
def pending (s : Cluster) (k : ℕ) : List Message := s.net.drop k

/-- The next deliveries, in order. -/
def deliverInOrder (s : Cluster) (k n : ℕ) : Cluster := s.run ((List.range' k n).map Action.deliver)

/-- Delivery in order leads to a state. -/
def Reaches (P : Cluster → Prop) (s : Cluster) (k : ℕ) : Prop := ∃ n, P (s.deliverInOrder k n)

theorem deliverInOrder_succ (s : Cluster) (k n : ℕ) :
    s.deliverInOrder k (n + 1) = (s.step (.deliver k)).deliverInOrder (k + 1) n := rfl

theorem deliverInOrder_add (s : Cluster) (k n m : ℕ) :
    s.deliverInOrder k (n + m) = (s.deliverInOrder k n).deliverInOrder (k + n) m := by
  have hsplit : List.range' k (n + m) = List.range' k n ++ List.range' (k + n) m := by
    rw [List.range'_append_1]
  rw [deliverInOrder, hsplit, List.map_append, run, List.foldl_append]
  rfl

theorem step_deliver {msg : Message} {rest : List Message} (h : s.pending k = msg :: rest) :
    s.step (.deliver k) = s.deliverMessage msg := by
  have hget : s.net[k]? = some msg := by
    rw [← Nat.add_zero k, ← List.getElem?_drop]
    show (s.pending k)[0]? = some msg
    rw [h]
    rfl
  simp only [step, hget]

/-- A delivery takes the first pending message and puts the answers at the end. -/
theorem pending_deliverMessage {msg : Message} {rest : List Message}
    (h : s.pending k = msg :: rest) : (s.deliverMessage msg).pending (k + 1) =
      rest ++ ((s.nodes msg.receiver).step msg).2.messages := by
  have hlt : k < s.net.length := by
    by_contra hle
    have hnil : s.pending k = [] := List.drop_eq_nil_of_le (by omega)
    rw [hnil] at h
    cases h
  have hrest : s.net.drop (k + 1) = rest := by
    rw [← List.drop_drop]
    show (s.pending k).drop 1 = rest
    rw [h]
    rfl
  show (s.net ++ _).drop (k + 1) = _
  rw [List.drop_append_of_le_length hlt, hrest]

theorem deliverInOrder_nil (h : s.pending k = []) : s.deliverInOrder k n = s := by
  induction n generalizing k with
  | zero => rfl
  | succ n ih =>
    have hle : s.net.length ≤ k := List.drop_eq_nil_iff.mp h
    have hget : s.net[k]? = none := List.getElem?_eq_none hle
    have hstay : s.step (.deliver k) = s := by simp only [step, hget]
    rw [deliverInOrder_succ, hstay]
    apply ih
    exact List.drop_eq_nil_of_le (by omega)

theorem reaches_of_now (h : P s) : Reaches P s k := ⟨0, h⟩

theorem reaches_nil_iff (h : s.pending k = []) : Reaches P s k ↔ P s := by
  constructor
  · rintro ⟨n, hn⟩
    rwa [deliverInOrder_nil h] at hn
  · exact reaches_of_now

/-- Where a state has not come yet, it comes after the next delivery or not at all. -/
theorem reaches_cons_iff {msg : Message} {rest : List Message} (h : s.pending k = msg :: rest)
    (hnot : ¬P s) : Reaches P s k ↔ Reaches P (s.deliverMessage msg) (k + 1) := by
  constructor
  · rintro ⟨n, hn⟩
    cases n with
    | zero => exact absurd hn hnot
    | succ n =>
      rw [deliverInOrder_succ, step_deliver h] at hn
      exact ⟨n, hn⟩
  · rintro ⟨n, hn⟩
    refine ⟨n + 1, ?_⟩
    rw [deliverInOrder_succ, step_deliver h]
    exact hn

/-- Once nothing is pending any more, later deliveries lead nowhere new. -/
theorem reaches_drained (h : (s.deliverInOrder k n).pending (k + n) = []) (hr : Reaches P s k) :
    ∃ m ≤ n, P (s.deliverInOrder k m) := by
  obtain ⟨m, hm⟩ := hr
  rcases Nat.le_total m n with hle | hle
  · exact ⟨m, hle, hm⟩
  · obtain ⟨d, rfl⟩ := Nat.exists_eq_add_of_le hle
    rw [deliverInOrder_add, deliverInOrder_nil h] at hm
    exact ⟨n, le_rfl, hm⟩

end Cluster
end BasisDB.Raft
