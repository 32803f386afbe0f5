import Mathlib.Data.List.TakeWhile
import RecordMapper.Number.Layout
import RecordMapper.Proofs.Number.Integer
import RecordMapper.Proofs.Number.Shortest

/-!
Different floats have different texts.

A text with a decimal point tells the value of the decimal that it was written for
(`Layout.pointValue_decimal`), whatever the place of the point, and the value of a shortest decimal
tells the number. What is written without digits or as a lone zero tells the infinities, zero and NaN
apart from these. So **a number that is written without exponents is told by its text**
(`Layout.print_plain_injective`), the sign of a zero included.
-/

namespace RecordMapper.Layout

open Decimal (magnitudeBits isNegative isZero)
open Float.Model (Format UnpackedFloat)

/-! ### Decimal points -/

/-- The value of a text of digits with a point among them, or without one. -/
def pointValue (t : Text) : ℚ :=
  Integer.ofDigits (t.filter (· != '.')) / 10 ^ (t.dropWhile (· != '.')).tail.length

/-- A text of digits only. -/
def IsDigits (t : Text) : Prop :=
  ∀ c ∈ t, c.isDigit = true

theorem IsDigits.append {t u : Text} (first : IsDigits t) (second : IsDigits u) :
    IsDigits (t ++ u) :=
  List.forall_mem_append.2 ⟨first, second⟩

theorem isDigits_digits (n : Nat) : IsDigits (Integer.digits n) :=
  fun _ mem => Integer.isDigit_of_mem_digits mem

theorem isDigits_zeros (n : Nat) : IsDigits (List.replicate n '0') := by
  intro c mem
  rw [List.eq_of_mem_replicate mem]
  rfl

theorem IsDigits.ne_point {t : Text} (digits : IsDigits t) : ∀ c ∈ t, (c != '.') = true := by
  intro c mem
  rw [bne_iff_ne]
  rintro rfl
  exact absurd (digits _ mem) (by decide)

theorem pointValue_digits {t : Text} (digits : IsDigits t) :
    pointValue t = Integer.ofDigits t := by
  rw [pointValue, List.filter_eq_self.2 digits.ne_point,
    List.dropWhile_eq_nil_iff.2 digits.ne_point, List.tail_nil, List.length_nil, pow_zero, div_one]

theorem pointValue_point {front back : Text} (first : IsDigits front) (second : IsDigits back) :
    pointValue (front ++ '.' :: back) = Integer.ofDigits (front ++ back) / 10 ^ back.length := by
  have point : ('.' != '.') = false := rfl
  rw [pointValue, List.filter_append, List.filter_eq_self.2 first.ne_point,
    List.filter_cons_of_neg (by rw [point]; exact Bool.false_ne_true),
    List.filter_eq_self.2 second.ne_point, List.dropWhile_append_of_pos first.ne_point,
    List.dropWhile_cons_of_neg (by rw [point]; exact Bool.false_ne_true), List.tail_cons]

theorem ofDigits_append_zeros (n k : Nat) :
    Integer.ofDigits (Integer.digits n ++ List.replicate k '0') = n * 10 ^ k := by
  rw [Integer.ofDigits, Nat.ofDigitChars_append, Nat.ofDigitChars_replicate_zero,
    ← Integer.ofDigits, Integer.ofDigits_digits, Nat.mul_comm]

theorem ofDigits_zeros_append (n k : Nat) :
    Integer.ofDigits (List.replicate k '0' ++ Integer.digits n) = n := by
  rw [Integer.ofDigits, Nat.ofDigitChars_append, Nat.ofDigitChars_replicate_zero, Nat.mul_zero,
    ← Integer.ofDigits, Integer.ofDigits_digits]

/-- A decimal is written as its digits with zeros behind them, or with a point in front of as many
digits as its exponent says, and zeros in front of its own where it has fewer. -/
theorem decimal_plain_cases (d : Decimal) :
    (∃ k : Nat, d.exponent = k ∧
      plain.decimal d = Integer.digits d.coefficient ++ List.replicate k '0') ∨
    ∃ front back, IsDigits front ∧ IsDigits back ∧
      Integer.ofDigits (front ++ back) = d.coefficient ∧ d.exponent = -(back.length : ℤ) ∧
      plain.decimal d = front ++ '.' :: back := by
  have digits := isDigits_digits d.coefficient
  have written : plain.decimal d = plain.withPoint (Integer.digits d.coefficient) d.exponent := rfl
  rw [written]
  unfold withPoint
  dsimp only
  split
  · rename_i natural
    refine .inl ⟨d.exponent.toNat, (Int.toNat_of_nonneg natural).symm, List.append_nil _⟩
  · rename_i negative
    split
    · rename_i point
      refine .inr ⟨_, _, fun c mem => digits c (List.mem_of_mem_take mem),
        fun c mem => digits c (List.mem_of_mem_drop mem), ?_, ?_, rfl⟩
      · rw [List.take_append_drop, Integer.ofDigits_digits]
      · rw [List.length_drop]
        omega
    · refine .inr ⟨['0'], _, isDigits_zeros 1, (isDigits_zeros _).append digits, ?_, ?_, rfl⟩
      · exact ofDigits_zeros_append _ (_ + 1)
      · rw [List.length_append, List.length_replicate]
        omega

/-- The text of a decimal has its value. -/
theorem pointValue_decimal (d : Decimal) : pointValue (plain.decimal d) = d.value := by
  rw [Decimal.value]
  rcases decimal_plain_cases d with ⟨k, exponent, text⟩ | ⟨front, back, first, second, value,
    exponent, text⟩
  · rw [text, exponent, pointValue_digits ((isDigits_digits _).append (isDigits_zeros _)),
      ofDigits_append_zeros, zpow_natCast]
    push_cast
    rfl
  · rw [text, exponent, pointValue_point first second, value, zpow_neg, zpow_natCast]
    rfl

/-- The text of a decimal has digits, and a point at most. -/
theorem isDigit_or_of_mem_decimal {d : Decimal} {c : Char} (mem : c ∈ plain.decimal d) :
    c.isDigit = true ∨ c = '.' := by
  rcases decimal_plain_cases d with ⟨k, -, text⟩ | ⟨front, back, first, second, -, -, text⟩
  · rw [text] at mem
    exact .inl ((isDigits_digits _).append (isDigits_zeros _) c mem)
  · rw [text, List.mem_append, List.mem_cons] at mem
    rcases mem with mem | point | mem
    · exact .inl (first c mem)
    · exact .inr point
    · exact .inl (second c mem)

/-! ### Floats -/

theorem isZero_iff {x : Float} : isZero x = true ↔ magnitudeBits x = 0 := by
  rw [isZero, beq_iff_eq, Nat.pow_eq, magnitudeBits]

/-- The bits make the float. -/
theorem eq_of_toBits {x y : Float} (bits : x.toBits = y.toBits) : x = y := by
  obtain ⟨m, valid⟩ := x
  obtain ⟨n, valid'⟩ := y
  obtain rfl : m = n := bits
  rfl

/-- A property of infinities and NaN alone says that the exponent is all ones. -/
theorem exponent_of_not_finite {kind : UnpackedFloat → Bool}
    (zero : ∀ sign, kind (.zero sign) = false)
    (finite : ∀ sign mantissa exponent positive,
      kind (.finite sign mantissa exponent positive) = false)
    {b : BitVec Format.binary64.numBits} (holds : kind (UnpackedFloat.unpack .binary64 b) = true) :
    UnpackedFloat.unpackExponent b = -1#_ := by
  by_contra notOnes
  unfold UnpackedFloat.unpack at holds
  dsimp only at holds
  rw [if_neg notOnes] at holds
  by_cases subnormal : UnpackedFloat.unpackExponent b = 0#_
  · rw [if_pos subnormal] at holds
    by_cases zeros : UnpackedFloat.unpackMantissa b = 0#_
    · rw [dif_pos zeros, zero] at holds
      cases holds
    · rw [dif_neg zeros, finite] at holds
      cases holds
  · rw [if_neg subnormal, finite] at holds
    cases holds

theorem fields_of_isInf {b : BitVec Format.binary64.numBits}
    (infinite : (UnpackedFloat.unpack .binary64 b).isInf = true) :
    UnpackedFloat.unpackExponent b = -1#_ ∧ UnpackedFloat.unpackMantissa b = 0#_ := by
  have ones := exponent_of_not_finite (fun _ => rfl) (fun _ _ _ _ => rfl) infinite
  refine ⟨ones, ?_⟩
  by_contra some
  unfold UnpackedFloat.unpack at infinite
  dsimp only at infinite
  rw [if_pos ones, if_neg some] at infinite
  cases infinite

theorem fields_of_isNaN {b : BitVec Format.binary64.numBits}
    (nan : (UnpackedFloat.unpack .binary64 b).isNaN = true) :
    UnpackedFloat.unpackExponent b = -1#_ ∧ UnpackedFloat.unpackMantissa b ≠ 0#_ := by
  have ones := exponent_of_not_finite (fun _ => rfl) (fun _ _ _ _ => rfl) nan
  refine ⟨ones, fun zeros => ?_⟩
  unfold UnpackedFloat.unpack at nan
  dsimp only at nan
  rw [if_pos ones, if_pos zeros] at nan
  cases nan

/-- The bits of an infinity. -/
theorem magnitudeBits_of_isInf {x : Float} (infinite : x.isInf = true) :
    magnitudeBits x = 2047 * 2 ^ 52 := by
  obtain ⟨ones, zeros⟩ := fields_of_isInf infinite
  have exponent := congrArg BitVec.toNat ones
  have mantissa := congrArg BitVec.toNat zeros
  unfold UnpackedFloat.unpackExponent at exponent
  unfold UnpackedFloat.unpackMantissa at mantissa
  rw [BitVec.toNat_cast, BitVec.extractLsb_toNat] at exponent mantissa
  have exponent : x.toBits.toNat >>> 52 % 2 ^ 11 = 2047 := exponent
  have mantissa : x.toBits.toNat >>> 0 % 2 ^ 52 = 0 := mantissa
  rw [Nat.shiftRight_eq_div_pow] at exponent mantissa
  unfold magnitudeBits
  omega

/-- There is one NaN only. -/
theorem eq_of_isNaN {x y : Float} (nan : x.isNaN = true) (nan' : y.isNaN = true) : x = y := by
  obtain ⟨ones, some⟩ := fields_of_isNaN nan
  obtain ⟨ones', some'⟩ := fields_of_isNaN nan'
  have packed := x.toModel.valid.eq_packedNaN ones some
  have packed' := y.toModel.valid.eq_packedNaN ones' some'
  exact eq_of_toBits (UInt64.toBitVec_inj.1 (packed.trans packed'.symm))

/-- The sign and the magnitude make the float. -/
theorem eq_of_magnitudeBits {x y : Float} (sign : isNegative x = isNegative y)
    (magnitude : magnitudeBits x = magnitudeBits y) : x = y := by
  have below := x.toBits.toNat_lt
  have below' := y.toBits.toNat_lt
  unfold isNegative at sign
  rw [decide_eq_decide, Nat.pow_eq] at sign
  unfold magnitudeBits at magnitude
  refine eq_of_toBits (UInt64.toNat_inj.1 ?_)
  omega

/-- The text of a magnitude has no sign. -/
theorem isDigit_or_of_mem_magnitude {x : Float} {c : Char} (mem : c ∈ plain.magnitude x) :
    c.isDigit = true ∨ c ∈ ['.', 'i', 'n', 'f'] := by
  unfold magnitude at mem
  split at mem
  · exact .inr (List.mem_cons_of_mem _ mem)
  · split at mem
    · rw [List.mem_singleton.1 mem]
      exact .inl rfl
    · refine (isDigit_or_of_mem_decimal mem).imp_right fun point => ?_
      rw [point]
      exact List.mem_cons_self ..

theorem not_mem_magnitude {x : Float} {c : Char} (noDigit : c.isDigit = false)
    (other : c ∉ ['.', 'i', 'n', 'f']) : c ∉ plain.magnitude x := by
  intro mem
  rcases isDigit_or_of_mem_magnitude mem with digit | mem
  · exact Bool.false_ne_true (noDigit.symm.trans digit)
  · exact other mem

/-- Only an infinity is written with letters. -/
theorem mem_magnitude_iff {x : Float} : 'i' ∈ plain.magnitude x ↔ x.isInf = true := by
  unfold magnitude
  split
  · rename_i infinite
    exact ⟨fun _ => infinite, fun _ => List.mem_cons_self ..⟩
  · rename_i finite
    refine ⟨fun mem => absurd mem ?_, fun infinite => absurd infinite finite⟩
    split
    · decide
    · exact fun mem => absurd (isDigit_or_of_mem_decimal mem) (by decide)

/-- The text of a finite magnitude has the value of its shortest decimal. -/
theorem pointValue_magnitude {x : Float} (finite : x.isInf = false) :
    pointValue (plain.magnitude x) =
      if magnitudeBits x = 0 then 0 else (Decimal.shortest plain.tie x).value := by
  unfold magnitude
  rw [finite, if_neg Bool.false_ne_true]
  by_cases zero : magnitudeBits x = 0
  · rw [if_pos zero, if_pos (isZero_iff.2 zero)]
    exact pointValue_digits (isDigits_zeros 1)
  · rw [if_neg zero, if_neg (isZero_iff.not.2 zero), pointValue_decimal]

/-- A magnitude is told by its text. -/
theorem magnitudeBits_inj_of_magnitude {x y : Float}
    (same : plain.magnitude x = plain.magnitude y) : magnitudeBits x = magnitudeBits y := by
  have infinity : x.isInf = y.isInf := by
    rw [Bool.eq_iff_iff, ← mem_magnitude_iff, ← mem_magnitude_iff, same]
  cases infinite : x.isInf with
  | true => rw [magnitudeBits_of_isInf infinite, magnitudeBits_of_isInf (infinity ▸ infinite)]
  | false =>
    have value := congrArg pointValue same
    rw [pointValue_magnitude infinite, pointValue_magnitude (infinity ▸ infinite)] at value
    split at value
    · rename_i zero
      split at value
      · rename_i zero'
        rw [zero, zero']
      · rename_i nonzero'
        exact absurd value (Decimal.value_shortest_pos plain.tie nonzero').ne
    · rename_i nonzero
      split at value
      · exact absurd value (Decimal.value_shortest_pos plain.tie nonzero).ne'
      · rename_i nonzero'
        exact Decimal.magnitudeBits_inj_of_value nonzero nonzero' value

/-- Only NaN is written as such. -/
theorem mem_print_iff {x : Float} : 'N' ∈ plain.print x ↔ x.isNaN = true := by
  have number : 'N' ∉ plain.magnitude x := not_mem_magnitude (by decide) (by decide)
  unfold print
  split
  · rename_i nan
    exact ⟨fun _ => nan, fun _ => List.mem_cons_self ..⟩
  · rename_i notNaN
    refine ⟨fun mem => absurd mem ?_, fun nan => absurd nan notNaN⟩
    split
    · exact fun mem => (List.mem_cons.1 mem).elim (by decide) number
    · exact number

/-- Only a negative number is written with a sign. -/
theorem print_of_number {x : Float} (number : x.isNaN = false) :
    ('-' ∈ plain.print x ↔ isNegative x = true) ∧
      (plain.print x).filter (· != '-') = plain.magnitude x := by
  have unsigned : '-' ∉ plain.magnitude x := not_mem_magnitude (by decide) (by decide)
  have kept : (plain.magnitude x).filter (· != '-') = plain.magnitude x := by
    rw [List.filter_eq_self]
    exact fun c mem => bne_iff_ne.2 fun minus => unsigned (minus ▸ mem)
  unfold print
  rw [number, if_neg Bool.false_ne_true]
  split
  · rename_i negative
    exact ⟨⟨fun _ => negative, fun _ => List.mem_cons_self ..⟩, kept⟩
  · rename_i natural
    exact ⟨⟨fun mem => absurd mem unsigned, fun negative => absurd negative natural⟩, kept⟩

/-- **A number is told by its text**, in which no exponents are written. -/
theorem print_plain_injective : Function.Injective plain.print := by
  intro x y same
  have both : x.isNaN = y.isNaN := by
    rw [Bool.eq_iff_iff, ← mem_print_iff, ← mem_print_iff, same]
  cases nan : x.isNaN with
  | true => exact eq_of_isNaN nan (both ▸ nan)
  | false =>
    obtain ⟨sign, magnitude⟩ := print_of_number nan
    obtain ⟨sign', magnitude'⟩ := print_of_number (both ▸ nan)
    refine eq_of_magnitudeBits ?_ (magnitudeBits_inj_of_magnitude ?_)
    · rw [Bool.eq_iff_iff, ← sign, ← sign', same]
    · rw [← magnitude, ← magnitude', same]

end RecordMapper.Layout
