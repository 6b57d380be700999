import Mathlib

/-! Little-endian byte strings of a fixed width. -/
namespace LittleEndian

/-- The `w` low bytes of `n`, least significant byte first. -/
def toBytes : ℕ → ℕ → List UInt8
  | 0, _ => []
  | w + 1, n => UInt8.ofNat n :: toBytes w (n / 256)

/-- The number a byte string stands for. -/
def toNat : List UInt8 → ℕ
  | [] => 0
  | b :: bs => b.toNat + 256 * toNat bs

@[simp] theorem length_toBytes (w n : ℕ) : (toBytes w n).length = w := by
  induction w generalizing n with
  | zero => rfl
  | succ w ih => exact congrArg Nat.succ (ih _)

@[simp] theorem take_toBytes (w n : ℕ) : (toBytes w n).take w = toBytes w n :=
  List.take_of_length_le (length_toBytes w n).le

/-- Skipping a field that ends before the position leaves nothing of it. -/
@[simp] theorem drop_toBytes {w i : ℕ} (n : ℕ) (h : w ≤ i) : (toBytes w n).drop i = [] :=
  List.drop_eq_nil_of_le ((length_toBytes w n).le.trans h)

theorem toNat_toBytes (w n : ℕ) : toNat (toBytes w n) = n % 256 ^ w := by
  induction w generalizing n with
  | zero => simp [toBytes, toNat, Nat.mod_one]
  | succ w ih =>
    have hlow : (UInt8.ofNat n).toNat = n % 256 := by
      simp [UInt8.toNat_ofNat']
    calc toNat (toBytes (w + 1) n) = n % 256 + 256 * (n / 256 % 256 ^ w) := by
          rw [toBytes, toNat, hlow, ih]
      _ = n % (256 * 256 ^ w) := (Nat.mod_mul).symm
      _ = n % 256 ^ (w + 1) := by rw [pow_succ, Nat.mul_comm]

/-- A number that fits its width is read back as it was written. -/
theorem toNat_toBytes_of_lt {w n : ℕ} (h : n < 256 ^ w) : toNat (toBytes w n) = n := by
  rw [toNat_toBytes, Nat.mod_eq_of_lt h]

end LittleEndian
