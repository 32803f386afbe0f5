import Mathlib.Data.Int.Basic
import RecordMapper.Number.Integer

/-!
Integers are read back from their decimal text.

The digits of a number are ASCII digits, at least one, and none of them is a leading zero unless
the number is zero (`digits_canonical`), so a reader that refuses leading zeros takes them as well.
`read?_print` is the round trip of a 64-bit integer.
-/

namespace RecordMapper.Integer

/-! ### Digits -/

theorem digits_ne_nil (n : Nat) : digits n ≠ [] :=
  Nat.toDigits_ne_nil

theorem isDigit_of_mem_digits {n : Nat} {c : Char} (mem : c ∈ digits n) : c.isDigit :=
  Nat.isDigit_of_mem_toDigits (by decide) (by decide) mem

theorem all_isDigit_digits (n : Nat) : (digits n).all Char.isDigit := by
  rw [List.all_eq_true]
  intro c mem
  exact isDigit_of_mem_digits mem

/-- The digits of a number denote it. -/
@[simp] theorem ofDigits_digits (n : Nat) : ofDigits (digits n) = n :=
  Nat.ofDigitChars_ten_toDigits

theorem readDigits?_digits (n : Nat) : readDigits? (digits n) = some n := by
  rw [readDigits?, if_pos ⟨digits_ne_nil n, all_isDigit_digits n⟩, ofDigits_digits]

/-- An integer is written with digits behind an optional sign. -/
theorem eq_or_isDigit_of_mem_print {n : Int} {c : Char} (mem : c ∈ print n) :
    c = '-' ∨ c.isDigit = true := by
  unfold print at mem
  split at mem
  · rcases List.mem_cons.1 mem with minus | digit
    · exact .inl minus
    · exact .inr (isDigit_of_mem_digits digit)
  · exact .inr (isDigit_of_mem_digits mem)

/-- A positive number does not start with a zero. -/
theorem head?_digits_of_pos {n : Nat} (positive : 0 < n) : (digits n).head? ≠ some '0' := by
  induction n using Nat.strong_induction_on with
  | h n ih =>
    rw [digits, Nat.toDigits_eq_if (by decide)]
    split
    · rename_i small
      rw [List.head?_cons]
      intro zero
      have value := Nat.toNat_digitChar_of_lt_ten small
      rw [Option.some.inj zero] at value
      have : '0'.toNat = 48 := rfl
      omega
    · rename_i large
      have shorter : (digits (n / 10)).head? ≠ some '0' := ih (n / 10) (by omega) (by omega)
      obtain ⟨c, t, split⟩ := List.exists_cons_of_ne_nil (digits_ne_nil (n / 10))
      rw [split, List.head?_cons] at shorter
      rw [← digits, split, List.cons_append, List.head?_cons]
      exact shorter

/-- A number that starts with a zero consists of that zero. -/
theorem digits_canonical {n : Nat} (zero : (digits n).head? = some '0') :
    (digits n).length = 1 := by
  cases n with
  | zero => rfl
  | succ n => exact absurd zero (head?_digits_of_pos n.succ_pos)

/-! ### Integers of 64 bits -/

/-- The value of a 64-bit integer is in range. -/
theorem ofInt?_toInt (n : Int64) : ofInt? n.toInt = some n := by
  have lower := n.minValue_le_toInt
  have upper := n.toInt_le
  rw [ofInt?, if_pos ⟨lower, upper⟩, Int64.ofInt_toInt]

/-- A text that starts with a digit has no sign. -/
theorem read?_of_isDigit {t : Text} (digit : ∀ c ∈ t.head?, c.isDigit) :
    read? t = (readDigits? t).bind fun n => ofInt? n := by
  unfold read?
  split
  · exact absurd (digit '-' rfl) (by decide)
  · exact absurd (digit '+' rfl) (by decide)
  · rfl

/-- **An integer is read back from its text.** -/
theorem read?_print (n : Int64) : read? (print n.toInt) = some n := by
  unfold print
  split
  · rename_i negative
    rw [read?, readDigits?_digits, Option.bind_some]
    have value : -(n.toInt.natAbs : Int) = n.toInt := by omega
    rw [value, ofInt?_toInt]
  · rename_i natural
    rw [read?_of_isDigit, readDigits?_digits, Option.bind_some]
    · have value : (n.toInt.natAbs : Int) = n.toInt := by omega
      rw [value, ofInt?_toInt]
    · intro c head
      exact isDigit_of_mem_digits (List.mem_of_mem_head? head)

end RecordMapper.Integer
