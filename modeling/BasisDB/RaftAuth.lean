import Mathlib

/-! Authentication of Raft peer messages: hexadecimal text, and tags under a shared key. Text is
the list of its bytes. -/
namespace BasisDB.Auth

def signatureBytes : ℕ := 32

def nibble (byte : UInt8) : Option UInt8 :=
  if 48 ≤ byte ∧ byte ≤ 57 then some (byte - 48)
  else if 97 ≤ byte ∧ byte ≤ 102 then some (byte - 97 + 10)
  else if 65 ≤ byte ∧ byte ≤ 70 then some (byte - 65 + 10)
  else none

/-- One output of `decode_hex`, with its checked arithmetic. -/
def decodePair (high low : UInt8) : Option UInt8 := do
  let high ← nibble high
  let low ← nibble low
  if high.toNat * 16 + low.toNat < 256 then some (high * 16 + low) else none

/-- The loop of `decode_hex` over `chunks_exact(2)`. -/
def decodePairs : List UInt8 → Option (List UInt8)
  | high :: low :: rest => do
    let byte ← decodePair high low
    let bytes ← decodePairs rest
    some (byte :: bytes)
  | _ => some []

def decodeHex (n : ℕ) (value : List UInt8) : Option (List UInt8) :=
  if value.length ≠ n * 2 then none else decodePairs value

/-- `HEX`: the digits `0` to `9` and `a` to `f`. -/
def hexDigit (n : UInt8) : UInt8 := if n < 10 then 48 + n else 97 + (n - 10)

def encodeHex (bytes : List UInt8) : List UInt8 :=
  bytes.flatMap (fun byte : UInt8 => [hexDigit (byte >>> 4), hexDigit (byte &&& 0x0f)])

/-- A shared key, as the function that computes its tags. -/
structure RaftKey where
  tag : List UInt8 → List UInt8
  length_tag : ∀ body, (tag body).length = signatureBytes

namespace RaftKey

def signature (key : RaftKey) (body : List UInt8) : List UInt8 := encodeHex (key.tag body)

def verify (key : RaftKey) (body signature : List UInt8) : Bool :=
  match decodeHex signatureBytes signature with
  | none => false
  | some signature => signature = key.tag body

end RaftKey

/-- The digit in lower case. -/
def lowerCase (byte : UInt8) : UInt8 := if 65 ≤ byte ∧ byte ≤ 70 then byte + 32 else byte

theorem nibble_hexDigit : ∀ n : UInt8, n < 16 → nibble (hexDigit n) = some n := by decide +kernel

theorem nibble_lowerCase : ∀ byte, nibble (lowerCase byte) = nibble byte := by decide +kernel

theorem nibble_some : ∀ byte, ∀ n ∈ nibble byte, n < 16 ∧ lowerCase byte = hexDigit n := by
  decide +kernel

/-- The two halves of a byte, and back. -/
theorem halves (high low : Fin 16) :
    (UInt8.ofNat high * 16 + UInt8.ofNat low) >>> 4 = UInt8.ofNat high ∧
      (UInt8.ofNat high * 16 + UInt8.ofNat low) &&& 0x0f = UInt8.ofNat low := by
  revert high low
  decide +kernel

theorem joined : ∀ byte : UInt8, byte >>> 4 < 16 ∧ byte &&& 0x0f < 16 ∧
    (byte >>> 4).toNat * 16 + (byte &&& 0x0f).toNat < 256 ∧
    (byte >>> 4) * 16 + (byte &&& 0x0f) = byte := by
  decide +kernel

/-- A pair of digits stands for the byte whose halves they spell, in either case. -/
theorem decodePair_eq_some {high low byte : UInt8} : decodePair high low = some byte ↔
    lowerCase high = hexDigit (byte >>> 4) ∧ lowerCase low = hexDigit (byte &&& 0x0f) := by
  constructor
  · intro h
    obtain ⟨h₁, hh₁, h⟩ := Option.bind_eq_some_iff.mp h
    obtain ⟨h₂, hh₂, h⟩ := Option.bind_eq_some_iff.mp h
    split_ifs at h
    obtain rfl := Option.some.inj h
    obtain ⟨hlt₁, hdigit₁⟩ := nibble_some high h₁ hh₁
    obtain ⟨hlt₂, hdigit₂⟩ := nibble_some low h₂ hh₂
    have hhalves := halves ⟨h₁.toNat, UInt8.lt_iff_toNat_lt.mp hlt₁⟩
      ⟨h₂.toNat, UInt8.lt_iff_toNat_lt.mp hlt₂⟩
    rw [UInt8.ofNat_toNat, UInt8.ofNat_toNat] at hhalves
    rw [hhalves.1, hhalves.2]
    exact ⟨hdigit₁, hdigit₂⟩
  · rintro ⟨hhigh, hlow⟩
    obtain ⟨hlt₁, hlt₂, hfits, hjoin⟩ := joined byte
    have hn₁ : nibble high = some (byte >>> 4) := by
      rw [← nibble_lowerCase, hhigh, nibble_hexDigit _ hlt₁]
    have hn₂ : nibble low = some (byte &&& 0x0f) := by
      rw [← nibble_lowerCase, hlow, nibble_hexDigit _ hlt₂]
    simp only [decodePair, hn₁, hn₂, Option.bind_eq_bind, Option.bind_some, if_pos hfits, hjoin]

theorem encodeHex_cons (byte : UInt8) (bytes : List UInt8) :
    encodeHex (byte :: bytes) =
      hexDigit (byte >>> 4) :: hexDigit (byte &&& 0x0f) :: encodeHex bytes := rfl

theorem length_encodeHex (bytes : List UInt8) : (encodeHex bytes).length = bytes.length * 2 := by
  induction bytes with
  | nil => rfl
  | cons byte bytes ih =>
    rw [encodeHex_cons, List.length_cons, List.length_cons, ih, List.length_cons]
    omega

theorem decodePairs_eq_some {bytes : List UInt8} : ∀ {value : List UInt8},
    value.length = bytes.length * 2 →
    (decodePairs value = some bytes ↔ value.map lowerCase = encodeHex bytes) := by
  induction bytes with
  | nil =>
    intro value hlen
    obtain rfl := List.eq_nil_of_length_eq_zero hlen
    exact ⟨fun _ => rfl, fun _ => rfl⟩
  | cons byte bytes ih =>
    intro value hlen
    rcases value with _ | ⟨high, _ | ⟨low, rest⟩⟩
    · cases hlen
    · simp only [List.length_cons, List.length_nil] at hlen
      omega
    have hrest : rest.length = bytes.length * 2 := by
      simp only [List.length_cons] at hlen
      omega
    rw [encodeHex_cons, List.map_cons, List.map_cons, List.cons.injEq, List.cons.injEq,
      ← ih hrest, ← and_assoc, ← decodePair_eq_some]
    simp only [decodePairs, Option.bind_eq_bind, Option.bind_eq_some_iff, Option.some.injEq,
      List.cons.injEq]
    constructor
    · rintro ⟨b, hb, bs, hbs, rfl, rfl⟩
      exact ⟨hb, hbs⟩
    · rintro ⟨hb, hbs⟩
      exact ⟨byte, hb, bytes, hbs, rfl, rfl⟩

/-- `decode_hex` reads exactly the texts that spell `n` bytes, in either case. -/
theorem decodeHex_eq_some {n : ℕ} {value bytes : List UInt8} (hlen : bytes.length = n) :
    decodeHex n value = some bytes ↔ value.map lowerCase = encodeHex bytes := by
  unfold decodeHex
  by_cases hvalue : value.length = n * 2
  · rw [if_neg (not_not.mpr hvalue)]
    exact decodePairs_eq_some (by rw [hvalue, hlen])
  · rw [if_pos hvalue]
    refine ⟨nofun, fun h => absurd ?_ hvalue⟩
    rw [← List.length_map lowerCase, h, length_encodeHex, hlen]

/-- A signature is accepted exactly when it spells the tag of the body. -/
theorem RaftKey.verify_iff (key : RaftKey) (body signature : List UInt8) :
    key.verify body signature = true ↔ signature.map lowerCase = key.signature body := by
  rw [RaftKey.signature, ← decodeHex_eq_some (key.length_tag body)]
  unfold verify
  cases hdecode : decodeHex signatureBytes signature with
  | none => exact ⟨nofun, nofun⟩
  | some tag => rw [decide_eq_true_eq, Option.some.injEq]

theorem lowerCase_hexDigit : ∀ n : UInt8, n < 16 → lowerCase (hexDigit n) = hexDigit n := by
  decide +kernel

theorem map_lowerCase_encodeHex (bytes : List UInt8) :
    (encodeHex bytes).map lowerCase = encodeHex bytes := by
  induction bytes with
  | nil => rfl
  | cons byte bytes ih =>
    obtain ⟨hhigh, hlow, -⟩ := joined byte
    rw [encodeHex_cons, List.map_cons, List.map_cons, ih, lowerCase_hexDigit _ hhigh,
      lowerCase_hexDigit _ hlow]

/-- What a key has signed it accepts. -/
theorem RaftKey.verify_signature (key : RaftKey) (body : List UInt8) :
    key.verify body (key.signature body) = true :=
  (key.verify_iff body _).mpr (map_lowerCase_encodeHex _)

end BasisDB.Auth
