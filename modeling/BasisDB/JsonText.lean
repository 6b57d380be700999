import Mathlib

/-! JSON values, and how long their text can get under any writer that is known only by what it
writes: digits for numbers, quoted strings with escapes of at most six bytes, and brackets, commas
and colons without blanks. The text is measured by a weight for each byte, so that one count serves
for its length and for the length of the text that it takes up when it is itself written as an
array of numbers. -/
namespace BasisDB.Json

inductive Value where
  | bool (value : Bool)
  | number (n : ℕ)
  | string (text : String)
  | array (items : List Value)
  | object (fields : List (String × Value))

/-- An array of bytes is written as an array of numbers. -/
def Value.bytes (data : List UInt8) : Value := .array (data.map (fun b => .number b.toNat))

/-- An alternative of a type, with what it holds under its name. -/
def Value.variant (name : String) (v : Value) : Value := .object [(name, v)]

mutual

/-- Every number in the value has at most 64 bits. -/
def Value.Words : Value → Prop
  | .number n => n < 2 ^ 64
  | .array items => itemsWords items
  | .object fields => fieldsWords fields
  | _ => True

def itemsWords : List Value → Prop
  | [] => True
  | v :: vs => v.Words ∧ itemsWords vs

def fieldsWords : List (String × Value) → Prop
  | [] => True
  | (_, v) :: fields => v.Words ∧ fieldsWords fields

end

/-- Texts with commas between them. -/
def commas : List (List UInt8) → List UInt8
  | [] => []
  | [text] => text
  | text :: next :: texts => text ++ 44 :: commas (next :: texts)

/-- A compact JSON writer, by what is known of the texts it writes. -/
structure Writer where
  print : Value → List UInt8
  length_bool : ∀ value, (print (.bool value)).length ≤ 5
  digits : ∀ n, ∀ b ∈ print (.number n), 48 ≤ b ∧ b ≤ 57
  length_number : ∀ n k, 0 < k → n < 10 ^ k → (print (.number n)).length ≤ k
  length_string : ∀ text, (print (.string text)).length ≤ 6 * text.utf8ByteSize + 2
  array : ∀ items, print (.array items) = 91 :: (commas (items.map print) ++ [93])
  object : ∀ fields, print (.object fields) = 123 :: (commas (fields.map (fun field =>
    print (.string field.1) ++ 58 :: print field.2)) ++ [125])

/-- The sum of the weights of all bytes. -/
def weigh (μ : UInt8 → ℕ) (text : List UInt8) : ℕ := (text.map μ).sum

section Weigh
variable {μ : UInt8 → ℕ} {k : ℕ}

@[simp] theorem weigh_nil : weigh μ [] = 0 := rfl

@[simp] theorem weigh_cons (b : UInt8) (text : List UInt8) :
    weigh μ (b :: text) = μ b + weigh μ text := rfl

@[simp] theorem weigh_append (s t : List UInt8) : weigh μ (s ++ t) = weigh μ s + weigh μ t := by
  rw [weigh, weigh, weigh, List.map_append, List.sum_append]

/-- The length of a text is its weight with one for each byte. -/
theorem weigh_one (text : List UInt8) : weigh (fun _ => 1) text = text.length := by
  simp [weigh]

theorem weigh_le {text : List UInt8} (h : ∀ b ∈ text, μ b ≤ k) :
    weigh μ text ≤ k * text.length := by
  induction text with
  | nil => exact Nat.zero_le _
  | cons b text ih =>
    have htext := ih (fun c hc => h c (List.mem_cons_of_mem b hc))
    calc μ b + weigh μ text
        ≤ k + k * text.length := Nat.add_le_add (h b List.mem_cons_self) htext
      _ = k * (text.length + 1) := by ring

/-- Each text comes with at most one comma. -/
theorem weigh_commas (hμ : ∀ b, μ b ≤ k) (texts : List (List UInt8)) :
    weigh μ (commas texts) ≤ texts.length * k + (texts.map (weigh μ)).sum := by
  induction texts using commas.induct with
  | case1 => exact Nat.zero_le _
  | case2 text => simp [commas]
  | case3 text next texts ih =>
    have hcomma := hμ 44
    rw [commas, weigh_append, weigh_cons, List.length_cons, List.map_cons, List.sum_cons,
      Nat.add_one_mul]
    omega

theorem mem_commas {b : UInt8} {texts : List (List UInt8)} (h : b ∈ commas texts) :
    b = 44 ∨ ∃ text ∈ texts, b ∈ text := by
  induction texts using commas.induct with
  | case1 => cases h
  | case2 text => exact Or.inr ⟨text, List.mem_cons_self, h⟩
  | case3 text next texts ih =>
    rw [commas] at h
    rcases List.mem_append.mp h with hb | hb
    · exact Or.inr ⟨text, List.mem_cons_self, hb⟩
    rcases List.mem_cons.mp hb with rfl | hb
    · exact Or.inl rfl
    · obtain hcomma | ⟨text', hmem, hb⟩ := ih hb
      · exact Or.inl hcomma
      · exact Or.inr ⟨text', List.mem_cons_of_mem _ hmem, hb⟩

end Weigh

namespace Writer
variable (writer : Writer)

section Compound
variable {μ : UInt8 → ℕ} {k n : ℕ}

/-- An array weighs what its items do, with a comma for each, and two brackets. -/
theorem weigh_array (hμ : ∀ b, μ b ≤ k) (items : List Value) :
    weigh μ (writer.print (.array items)) ≤
      2 * k + items.length * k + (items.map (fun v => weigh μ (writer.print v))).sum := by
  have hitems := weigh_commas hμ (items.map writer.print)
  have hopen := hμ 91
  have hclose := hμ 93
  rw [List.length_map, List.map_map] at hitems
  rw [writer.array, weigh_cons, weigh_append, weigh_cons, weigh_nil]
  simp only [Function.comp_def] at hitems
  omega

/-- An object weighs what its values do and what its names, of at most `n` bytes each, can. -/
theorem weigh_object (hμ : ∀ b, μ b ≤ k) (fields : List (String × Value))
    (hnames : ∀ field ∈ fields, field.1.utf8ByteSize ≤ n) :
    weigh μ (writer.print (.object fields)) ≤ 2 * k + fields.length * (k * (6 * n + 4)) +
      (fields.map (fun field => weigh μ (writer.print field.2))).sum := by
  have hname (field) (hfield : field ∈ fields) :
      weigh μ (writer.print (.string field.1)) ≤ k * (6 * n + 2) := by
    calc weigh μ (writer.print (.string field.1))
        ≤ k * (writer.print (.string field.1)).length := weigh_le (fun b _ => hμ b)
      _ ≤ k * (6 * field.1.utf8ByteSize + 2) := Nat.mul_le_mul_left k (writer.length_string _)
      _ ≤ k * (6 * n + 2) := by gcongr; exact hnames field hfield
  -- one field: its name, a colon and its value
  have hfields : ((fields.map (fun field => writer.print (.string field.1) ++
        58 :: writer.print field.2)).map (weigh μ)).sum ≤
      fields.length * (k * (6 * n + 3)) +
        (fields.map (fun field => weigh μ (writer.print field.2))).sum := by
    clear hnames
    induction fields with
    | nil => exact Nat.zero_le _
    | cons field fields ih =>
      have hrest := ih (fun field hfield => hname field (List.mem_cons_of_mem _ hfield))
      have hcolon := hμ 58
      have hfirst := hname field List.mem_cons_self
      have hsplit : k * (6 * n + 3) = k * (6 * n + 2) + k := by ring
      rw [List.map_cons, List.map_cons, List.sum_cons, weigh_append, weigh_cons, List.length_cons,
        Nat.add_one_mul, List.map_cons, List.sum_cons]
      omega
  have hcommas := weigh_commas hμ (fields.map (fun field => writer.print (.string field.1) ++
    58 :: writer.print field.2))
  have hopen := hμ 123
  have hclose := hμ 125
  have hsplit : fields.length * (k * (6 * n + 4)) =
      fields.length * k + fields.length * (k * (6 * n + 3)) := by ring
  rw [List.length_map] at hcommas
  rw [writer.object, weigh_cons, weigh_append, weigh_cons, weigh_nil]
  omega

theorem length_array (items : List Value) : (writer.print (.array items)).length ≤
    2 + items.length + (items.map (fun v => (writer.print v).length)).sum := by
  have h := writer.weigh_array (fun _ => le_refl 1) items
  simpa only [weigh_one, mul_one] using h

theorem length_object (fields : List (String × Value))
    (hnames : ∀ field ∈ fields, field.1.utf8ByteSize ≤ n) :
    (writer.print (.object fields)).length ≤ 2 + fields.length * (6 * n + 4) +
      (fields.map (fun field => (writer.print field.2).length)).sum := by
  have h := writer.weigh_object (fun _ => le_refl 1) fields hnames
  simpa only [weigh_one, mul_one, one_mul] using h

theorem length_variant {name : String} (h : name.utf8ByteSize ≤ n) (v : Value) :
    (writer.print (.variant name v)).length ≤ (writer.print v).length + 6 * n + 6 := by
  have hobject := @length_object writer n [(name, v)] (by simpa using h)
  simp only [List.length_singleton, List.map_cons, List.map_nil, List.sum_singleton] at hobject
  rw [Value.variant]
  omega

end Compound

/-- Sixty-four bits have at most twenty decimal digits. -/
theorem length_word {n : ℕ} (h : n < 2 ^ 64) : (writer.print (.number n)).length ≤ 20 :=
  writer.length_number n 20 (by norm_num) (by omega)

end Writer

/-- A number or a truth value. -/
def Value.Flat : Value → Prop
  | .bool _ => True
  | .number _ => True
  | _ => False

namespace Writer
variable (writer : Writer)

theorem length_flat_value {v : Value} (h : v.Flat) (hwords : v.Words) :
    (writer.print v).length ≤ 20 := by
  cases v with
  | bool value => exact (writer.length_bool value).trans (by norm_num)
  | number n => exact writer.length_word hwords
  | string | array | object => exact h.elim

/-- An alternative that holds a record of numbers and truth values. -/
theorem length_flat {n : ℕ} {name : String} {fields : List (String × Value)}
    (hname : name.utf8ByteSize ≤ n) (hnames : ∀ field ∈ fields, field.1.utf8ByteSize ≤ n)
    (hflat : ∀ field ∈ fields, field.2.Flat) (hwords : fieldsWords fields) :
    (writer.print (.variant name (.object fields))).length ≤
      fields.length * (6 * n + 24) + 6 * n + 8 := by
  have hvalues : (fields.map (fun field => (writer.print field.2).length)).sum ≤
      fields.length * 20 := by
    clear hnames
    induction fields with
    | nil => exact Nat.zero_le _
    | cons field fields ih =>
      have hrest := ih (fun f hf => hflat f (List.mem_cons_of_mem _ hf)) hwords.2
      have hfirst := writer.length_flat_value (hflat field List.mem_cons_self) hwords.1
      rw [List.map_cons, List.sum_cons, List.length_cons]
      omega
  have hvariant := writer.length_variant hname (.object fields)
  have hobject := writer.length_object fields hnames
  have hsplit : fields.length * (6 * n + 24) =
      fields.length * (6 * n + 4) + fields.length * 20 := by ring
  omega

/-- What a byte takes up in an array: its digits and the comma before it. -/
def arrayCost (b : UInt8) : ℕ := (writer.print (.number b.toNat)).length + 1

theorem arrayCost_le (b : UInt8) : writer.arrayCost b ≤ 4 := by
  have hb := b.toNat_lt
  have := writer.length_number b.toNat 3 (by omega) (by omega)
  rw [arrayCost]
  omega

theorem arrayCost_le_of_lt {b : UInt8} (h : b < 100) : writer.arrayCost b ≤ 3 := by
  have hb : b.toNat < 10 ^ 2 := h
  have := writer.length_number b.toNat 2 (by omega) hb
  rw [arrayCost]
  omega

/-- The length of an array of bytes is made up of what its bytes cost. -/
theorem length_bytes (data : List UInt8) :
    (writer.print (.bytes data)).length ≤ weigh writer.arrayCost data + 2 := by
  have hcost : weigh writer.arrayCost data = data.length +
      ((data.map (fun b => Value.number b.toNat)).map
        (fun v => (writer.print v).length)).sum := by
    induction data with
    | nil => rfl
    | cons b data ih =>
      rw [weigh_cons, ih, arrayCost, List.map_cons, List.map_cons, List.sum_cons, List.length_cons]
      omega
  have harray := writer.length_array (data.map (fun b => .number b.toNat))
  rw [List.length_map] at harray
  rw [Value.bytes]
  omega

/-- An array of bytes is written in digits, commas and brackets. -/
theorem bytes_lt_hundred (data : List UInt8) : ∀ b ∈ writer.print (.bytes data), b < 100 := by
  intro b hb
  rw [Value.bytes, writer.array] at hb
  rcases List.mem_cons.mp hb with rfl | hb
  · decide
  rcases List.mem_append.mp hb with hb | hb
  · obtain rfl | ⟨text, htext, hb⟩ := mem_commas hb
    · decide
    · obtain ⟨v, hv, rfl⟩ := List.mem_map.mp htext
      obtain ⟨c, -, rfl⟩ := List.mem_map.mp hv
      exact UInt8.lt_of_le_of_lt (writer.digits _ b hb).2 (by decide)
  · obtain rfl := List.mem_singleton.mp hb
    decide

/-- Written into an array once more, an array of bytes takes up at most three bytes for each of
its own. -/
theorem weigh_bytes (data : List UInt8) :
    weigh writer.arrayCost (writer.print (.bytes data)) ≤ 12 * data.length + 6 := by
  have hcost : weigh writer.arrayCost data ≤ 4 * data.length :=
    weigh_le (fun b _ => writer.arrayCost_le b)
  calc weigh writer.arrayCost (writer.print (.bytes data))
      ≤ 3 * (writer.print (.bytes data)).length :=
        weigh_le (fun b hb => writer.arrayCost_le_of_lt (writer.bytes_lt_hundred data b hb))
    _ ≤ 3 * (weigh writer.arrayCost data + 2) := Nat.mul_le_mul_left 3 (writer.length_bytes data)
    _ ≤ 12 * data.length + 6 := by omega

end Writer

theorem words_bytes (data : List UInt8) : (Value.bytes data).Words := by
  induction data with
  | nil => trivial
  | cons b data ih => exact ⟨b.toNat_lt.trans (by norm_num), ih⟩

end BasisDB.Json
