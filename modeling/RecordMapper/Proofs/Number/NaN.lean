import Mathlib.Tactic.Positivity
import RecordMapper.Document.Number

/-!
Where floating-point arithmetic stays within the numbers.

A float that is a number equals itself (`beq_self_of_isNaN_eq_false`). A number times or divided by
a proper one, which is finite and not zero, is a number (`isNaN_mul`, `isNaN_div`): what makes a NaN
of numbers is infinity times zero, zero by zero, and infinity by infinity. The numbers of a document
are scaled by powers of ten up to the largest that is finite, and these are proper
(`Numeral.isProper_powerOfTen`). So **no document denotes a NaN** (`Numeral.cases_of_value?`).
-/

namespace RecordMapper

open Float.Model (Format UnpackedFloat totalExponent)
open Float.Model.UnpackedFloat (Sign Accuracy ExtendedMantissa)

/-- The float is finite and not zero. -/
def isProper : UnpackedFloat → Bool
  | .finite .. => true
  | _ => false

/-! ### Packing -/

theorem isNaN_dite {P : Prop} [Decidable P] {u : P → UnpackedFloat} {v : ¬ P → UnpackedFloat}
    (here : ∀ holds, (u holds).isNaN = false) (there : ∀ fails, (v fails).isNaN = false) :
    (if holds : P then u holds else v holds).isNaN = false := by
  split
  · exact here _
  · exact there _

/-- The bits of an exponent that is not all ones are those of a number. -/
theorem isNaN_unpack_packComponents {sign : Sign} {exponent : BitVec Format.binary64.exponentBits}
    (notOnes : exponent ≠ -1#_) (mantissa : BitVec Format.binary64.mantissaBitsWithoutImplicit) :
    (UnpackedFloat.unpack .binary64
      (UnpackedFloat.packComponents .binary64 sign exponent mantissa)).isNaN = false := by
  unfold UnpackedFloat.unpack
  dsimp only
  rw [UnpackedFloat.unpackExponent_packComponents, if_neg notOnes]
  exact isNaN_dite (fun _ => isNaN_dite (fun _ => rfl) fun _ => rfl) fun _ => rfl

theorem isNaN_unpack_packedInfinity (sign : Sign) :
    (UnpackedFloat.unpack .binary64 (UnpackedFloat.packedInfinity .binary64 sign)).isNaN
      = false := by
  cases sign <;> rfl

/-- A number is packed to the bits of a number: one that is too large becomes infinite. -/
theorem isNaN_unpack_pack {u : UnpackedFloat} (number : u.isNaN = false) :
    (Float.Model.pack u).unpack.isNaN = false := by
  show (UnpackedFloat.unpack .binary64 (UnpackedFloat.pack .binary64 u)).isNaN = false
  cases u with
  | notANumber => cases number
  | infinity sign => exact isNaN_unpack_packedInfinity sign
  | zero sign => exact isNaN_unpack_packComponents (by decide) _
  | finite sign mantissa exponent positive =>
    unfold UnpackedFloat.pack
    dsimp only
    split
    · exact isNaN_unpack_packedInfinity sign
    · rename_i small
      split
      · refine isNaN_unpack_packComponents (fun ones => small ?_) _
        have digits := congrArg BitVec.toNat ones
        rw [BitVec.neg_one_eq_allOnes, BitVec.toNat_allOnes, BitVec.toNat_ofNat] at digits
        have some : 0 < 2 ^ Format.binary64.exponentBits := Nat.two_pow_pos _
        have below := Nat.mod_le (exponent + Format.binary64.exponentBias
          + Format.binary64.mantissaBitsWithoutImplicit).toNat (2 ^ Format.binary64.exponentBits)
        omega
      · exact isNaN_unpack_packComponents (by decide) _

/-- A mantissa of 53 digits is packed to the bits of a proper float, if the exponent is not too
large. -/
theorem isProper_unpack_pack {sign : Sign} {m : Nat} {e : Int} (positive : 0 < m)
    (long : m.log2 = 52) (above : -1074 ≤ e) (below : e ≤ 970) :
    isProper (Float.Model.pack (.finite sign m e positive)).unpack = true := by
  show isProper (UnpackedFloat.unpack .binary64
    (UnpackedFloat.pack .binary64 (.finite sign m e positive))) = true
  have digits : m.log2 + 1 = Format.binary64.mantissaBits := congrArg (· + 1) long
  have biased : (e + Format.binary64.exponentBias
      + Format.binary64.mantissaBitsWithoutImplicit).toNat = (e + 1075).toNat := by
    show (e + (1023 : Nat) + (52 : Nat)).toNat = _
    omega
  have value : (BitVec.ofNat Format.binary64.exponentBits (e + 1075).toNat).toNat
      = (e + 1075).toNat := by
    rw [BitVec.toNat_ofNat]
    refine Nat.mod_eq_of_lt ?_
    show _ < 2 ^ 11
    omega
  have notOnes : BitVec.ofNat Format.binary64.exponentBits (e + 1075).toNat ≠ -1#_ := by
    intro same
    have ones : (e + 1075).toNat = 2047 := value ▸ congrArg BitVec.toNat same
    omega
  have notZero : BitVec.ofNat Format.binary64.exponentBits (e + 1075).toNat ≠ 0#_ := by
    intro same
    have zero : (e + 1075).toNat = 0 := value ▸ congrArg BitVec.toNat same
    omega
  have small : ¬ 2 ^ Format.binary64.exponentBits ≤ (e + 1075).toNat + 1 := by
    show ¬ 2 ^ 11 ≤ _
    omega
  unfold UnpackedFloat.pack UnpackedFloat.unpack
  dsimp only
  rw [biased, if_neg small, if_pos digits, UnpackedFloat.unpackExponent_packComponents,
    if_neg notOnes, if_neg notZero]
  rfl

/-! ### Rounding -/

theorem isNaN_roundWithAccuracy (spec : Format) (sign : Sign) (mantissa : Nat) (exponent : Int)
    (accuracy : Accuracy) :
    (UnpackedFloat.roundWithAccuracy spec sign mantissa exponent accuracy).isNaN = false := by
  unfold UnpackedFloat.roundWithAccuracy
  exact isNaN_dite (fun _ => rfl) fun _ => rfl

theorem isNaN_normalize (spec : Format) (mantissa exponent : Int) (sign : Sign) :
    (UnpackedFloat.normalize spec mantissa exponent sign).isNaN = false := by
  unfold UnpackedFloat.normalize
  split
  · exact isNaN_roundWithAccuracy ..
  · rfl
  · exact isNaN_roundWithAccuracy ..

theorem isNaN_ofScientific (spec : Format) (mantissa : Nat) (exponent : Int) :
    (UnpackedFloat.ofScientific spec mantissa exponent).isNaN = false := by
  unfold UnpackedFloat.ofScientific
  refine isNaN_dite (fun _ => rfl) fun _ => isNaN_dite (fun _ => rfl) fun _ =>
    isNaN_dite (fun _ => rfl) fun _ => isNaN_dite (fun _ => ?_) fun _ => ?_
  · exact isNaN_roundWithAccuracy ..
  · exact isNaN_roundWithAccuracy ..

theorem mantissa_shiftRight (m : ExtendedMantissa) (n : Nat) :
    (m >>> n).mantissa = m.mantissa / 2 ^ n := by
  induction n with
  | zero => exact (Nat.div_one _).symm
  | succ n ih =>
    show (m >>> n).mantissa / 2 = _
    rw [ih, Nat.div_div_eq_div_mul, Nat.pow_succ]

theorem mantissa_ofMantissaAndAccuracy (mantissa : Nat) (accuracy : Accuracy) :
    (ExtendedMantissa.ofMantissaAndAccuracy mantissa accuracy).mantissa = mantissa := by
  rcases accuracy with _ | ⟨_ | _ | _⟩ <;> rfl

theorem roundedMantissa_bounds (m : ExtendedMantissa) :
    m.mantissa ≤ m.roundedMantissa ∧ m.roundedMantissa ≤ m.mantissa + 1 := by
  unfold ExtendedMantissa.roundedMantissa
  rcases m.accuracy with _ | ⟨_ | _ | _⟩ <;> simp only [Accuracy.roundToNearestEven] <;> omega

/-- The first 53 digits of a number that has so many. -/
theorem div_two_pow_log2 {n : Nat} (long : 52 ≤ n.log2) :
    2 ^ 52 ≤ n / 2 ^ (n.log2 - 52) ∧ n / 2 ^ (n.log2 - 52) < 2 ^ 53 := by
  have nonzero : n ≠ 0 := by
    rintro rfl
    simp at long
  have least := Nat.log2_self_le nonzero
  have most := @Nat.lt_log2_self n
  have front : 2 ^ n.log2 = 2 ^ 52 * 2 ^ (n.log2 - 52) := by
    rw [← Nat.pow_add, Nat.add_sub_cancel' long]
  rw [Nat.le_div_iff_mul_le (Nat.two_pow_pos _), Nat.div_lt_iff_lt_mul (Nat.two_pow_pos _)]
  rw [Nat.pow_succ] at most
  omega

/-- A long mantissa is cut to 53 digits, unless the exponent is too small for that. -/
theorem shiftToTargetExponent_of_long {mantissa : Nat} {exponent : Int} (accuracy : Accuracy)
    (long : 52 ≤ mantissa.log2) (normal : -1074 ≤ exponent + (mantissa.log2 - 52)) :
    ∃ cut : ExtendedMantissa, cut.mantissa = mantissa / 2 ^ (mantissa.log2 - 52) ∧
      UnpackedFloat.shiftToTargetExponent .binary64 mantissa exponent accuracy
        = (cut, exponent + (mantissa.log2 - 52)) := by
  have shift : (Format.binary64.targetExponent (totalExponent mantissa exponent)
      - exponent).toNat = mantissa.log2 - 52 := by
    show (max ((mantissa.log2 : Int) + 1 + exponent - 53) (-1074) - exponent).toNat = _
    omega
  refine ⟨ExtendedMantissa.ofMantissaAndAccuracy mantissa accuracy >>> (mantissa.log2 - 52), ?_, ?_⟩
  · rw [mantissa_shiftRight, mantissa_ofMantissaAndAccuracy]
  · unfold UnpackedFloat.shiftToTargetExponent UnpackedFloat.shiftToExponent
    dsimp only
    rw [shift, Int.ofNat_sub long]
    rfl

/-- A long mantissa is rounded to one of 53 digits; one digit that is carried over makes the
exponent larger by one. -/
theorem roundWithAccuracy_of_long (sign : Sign) {mantissa : Nat} {exponent : Int}
    (accuracy : Accuracy) (long : 52 ≤ mantissa.log2)
    (normal : -1074 ≤ exponent + (mantissa.log2 - 52)) :
    ∃ m e, ∃ positive : 0 < m,
      UnpackedFloat.roundWithAccuracy .binary64 sign mantissa exponent accuracy
        = .finite sign m e positive ∧ m.log2 = 52 ∧
      exponent + (mantissa.log2 - 52) ≤ e ∧ e ≤ exponent + (mantissa.log2 - 52) + 1 := by
  obtain ⟨cut, quotient, shifted⟩ := shiftToTargetExponent_of_long accuracy long normal
  obtain ⟨least, most⟩ := div_two_pow_log2 long
  obtain ⟨up, down⟩ := roundedMantissa_bounds cut
  rw [quotient] at up down
  have nonzero : cut.roundedMantissa ≠ 0 := by omega
  have digits : cut.roundedMantissa.log2 = 52 ∨ cut.roundedMantissa.log2 = 53 := by
    by_cases carried : cut.roundedMantissa < 2 ^ 53
    · exact .inl ((Nat.log2_eq_iff nonzero).2 ⟨by omega, carried⟩)
    · exact .inr ((Nat.log2_eq_iff nonzero).2 ⟨by omega, by omega⟩)
  have long' : 52 ≤ cut.roundedMantissa.log2 := by omega
  obtain ⟨final, quotient', shifted'⟩ := @shiftToTargetExponent_of_long _
    (exponent + (mantissa.log2 - 52)) .exact long' (by omega)
  obtain ⟨least', most'⟩ := div_two_pow_log2 long'
  rw [← quotient'] at least' most'
  have positive : 0 < final.mantissa := by omega
  refine ⟨final.mantissa, exponent + (mantissa.log2 - 52) + (cut.roundedMantissa.log2 - 52),
    positive, ?_, (Nat.log2_eq_iff (Nat.ne_of_gt positive)).2 ⟨least', most'⟩, ?_, ?_⟩
  · unfold UnpackedFloat.roundWithAccuracy
    rw [shifted]
    dsimp only
    rw [shifted']
    dsimp only
    rw [dif_neg (Nat.ne_of_gt positive)]
  · omega
  · omega

/-! ### Operations -/

theorem exists_of_isProper {u : UnpackedFloat} (proper : isProper u = true) :
    ∃ sign mantissa exponent, ∃ positive : 0 < mantissa,
      u = .finite sign mantissa exponent positive := by
  cases u with
  | finite => exact ⟨_, _, _, _, rfl⟩
  | _ => cases proper

section Operations

variable {x y : Float}

/-- A number equals itself. -/
theorem beq_self_of_isNaN_eq_false (number : x.isNaN = false) : (x == x) = true := by
  have number : x.toModel.unpack.isNaN = false := number
  show x.toModel.unpack.beq x.toModel.unpack = true
  generalize x.toModel.unpack = u at number ⊢
  cases u with
  | notANumber => cases number
  | infinity sign => cases sign <;> rfl
  | zero => rfl
  | finite sign =>
    unfold UnpackedFloat.beq UnpackedFloat.compare
    cases sign <;> dsimp only <;> simp

theorem isNaN_mul (number : x.isNaN = false) (proper : isProper y.toModel.unpack = true) :
    (x * y).isNaN = false := by
  obtain ⟨sign, mantissa, exponent, positive, unpacked⟩ := exists_of_isProper proper
  have number : x.toModel.unpack.isNaN = false := number
  refine isNaN_unpack_pack ?_
  rw [unpacked]
  generalize x.toModel.unpack = u at number ⊢
  cases u with
  | notANumber => cases number
  | finite => exact isNaN_roundWithAccuracy ..
  | _ => rfl

theorem isNaN_div (number : x.isNaN = false) (proper : isProper y.toModel.unpack = true) :
    (x / y).isNaN = false := by
  obtain ⟨sign, mantissa, exponent, positive, unpacked⟩ := exists_of_isProper proper
  have number : x.toModel.unpack.isNaN = false := number
  refine isNaN_unpack_pack ?_
  rw [unpacked]
  generalize x.toModel.unpack = u at number ⊢
  cases u with
  | notANumber => cases number
  | finite => exact isNaN_roundWithAccuracy ..
  | _ => rfl

theorem isNaN_neg (number : x.isNaN = false) : (-x).isNaN = false := by
  have number : x.toModel.unpack.isNaN = false := number
  refine isNaN_unpack_pack ?_
  generalize x.toModel.unpack = u at number ⊢
  cases u with
  | notANumber => cases number
  | _ => rfl

theorem isNaN_ofNat (n : Nat) : (Float.ofNat n).isNaN = false := by
  show (Float.ofScientific n false 0).isNaN = false
  unfold Float.ofScientific
  split
  · -- a short integer is exact, times one
    have one : isProper (Float.exactlyRepresentablePowersOfTen[0]).toModel.unpack = true := by
      decide +kernel
    exact isNaN_mul (isNaN_unpack_pack (isNaN_normalize ..)) one
  · exact isNaN_unpack_pack (isNaN_ofScientific ..)

end Operations

/-! ### Numbers of documents -/

namespace Numeral

/-- A decimal digit is less than 196 / 59 binary ones. -/
theorem log2_mul_ten_pow (n : Nat) : 59 * ((1 <<< 53) * 10 ^ n).log2 ≤ 59 * 53 + 196 * n := by
  have nonzero : (1 <<< 53) * 10 ^ n ≠ 0 := Nat.mul_ne_zero (by decide) (by positivity)
  have powers : ∀ a b c : Nat, (2 ^ a) ^ b * (2 ^ c) ^ n = 2 ^ (b * a + c * n) := by
    intro a b c
    rw [Nat.pow_add, ← Nat.pow_mul, ← Nat.pow_mul, Nat.mul_comm a]
  refine (Nat.pow_le_pow_iff_right (a := 2) (by decide)).1 ?_
  calc 2 ^ (59 * ((1 <<< 53) * 10 ^ n).log2)
      = (2 ^ ((1 <<< 53) * 10 ^ n).log2) ^ 59 := by rw [← Nat.pow_mul, Nat.mul_comm]
    _ ≤ ((1 <<< 53) * 10 ^ n) ^ 59 := Nat.pow_le_pow_left (Nat.log2_self_le nonzero) 59
    _ = (1 <<< 53) ^ 59 * (10 ^ 59) ^ n := by
      rw [Nat.mul_pow, ← Nat.pow_mul, Nat.mul_comm n, Nat.pow_mul]
    _ ≤ (2 ^ 53) ^ 59 * (2 ^ 196) ^ n :=
      Nat.mul_le_mul_left _ (Nat.pow_le_pow_left (by decide) n)
    _ = 2 ^ (59 * 53 + 196 * n) := powers 53 59 196

/-- The powers of ten that are used are finite and not zero. -/
theorem isProper_powerOfTen {n : Nat} (small : n ≤ 308) :
    isProper (powerOfTen n).toModel.unpack = true := by
  by_cases listed : n ≤ 22
  · have all : ∀ n < 23, isProper (powerOfTen n).toModel.unpack = true := by decide +kernel
    exact all n (Nat.lt_succ_of_le listed)
  by_cases last : n = 308
  · subst last
    decide +kernel
  -- the others are rounded from a long mantissa, and their exponents stay in range
  have scientific : powerOfTen n = ⟨Float.Model.ofScientific 1 n⟩ := by
    unfold powerOfTen Float.ofScientific
    rw [dif_neg (by omega)]
    rfl
  have inRange : (n : Int) ≤ 2 ^ Format.binary64.exponentBits := by
    show (n : Int) ≤ 2048
    omega
  rw [scientific]
  unfold Float.Model.ofScientific UnpackedFloat.ofScientific
  rw [dif_neg Nat.one_ne_zero, if_neg (by omega), if_neg (by omega), if_pos (by omega)]
  show isProper (Float.Model.pack (UnpackedFloat.roundWithAccuracy .binary64 _ ((1 <<< 53) * 10 ^ n)
    (-53 + 0) .exact)).unpack = true
  have nonzero : (1 <<< 53) * 10 ^ n ≠ 0 := Nat.mul_ne_zero (by decide) (by positivity)
  have least : 53 ≤ ((1 <<< 53) * 10 ^ n).log2 := by
    rw [Nat.le_log2 nonzero]
    exact Nat.le_mul_of_pos_right _ (by positivity)
  have most := log2_mul_ten_pow n
  obtain ⟨m, e, positive, rounded, long, above, below⟩ :=
    @roundWithAccuracy_of_long (.positive * .positive) ((1 <<< 53) * 10 ^ n) (-53 + 0) .exact
      (by omega) (by omega)
  rw [rounded]
  exact isProper_unpack_pack positive long (by omega) (by omega)

theorem isNaN_of_scale? {significand : Nat} {exponent : Int} {x : Float}
    (scaled : scale? significand exponent = some x) : x.isNaN = false := by
  have number := isNaN_ofNat significand
  unfold scale? at scaled
  dsimp only at scaled
  split at scaled
  · split at scaled
    · rename_i small
      split at scaled
      · cases scaled
      · cases scaled
        exact isNaN_mul number (isProper_powerOfTen small)
    · split at scaled
      · cases scaled
        exact number
      · cases scaled
  · split at scaled
    · rename_i small
      cases scaled
      exact isNaN_div number (isProper_powerOfTen small)
    · split at scaled
      · rename_i small
        cases scaled
        have first := isNaN_div number (isProper_powerOfTen (Nat.le_refl 308))
        exact isNaN_div first (isProper_powerOfTen (by omega))
      · cases scaled
        rfl

theorem isNaN_of_magnitude? {n : Numeral} {x : Float} (read : n.magnitude? = some x) :
    x.isNaN = false := by
  unfold magnitude? at read
  dsimp only at read
  split at read
  · exact isNaN_of_scale? read
  · split at read
    · exact isNaN_of_scale? read
    · split at read
      · cases read
        rfl
      · cases read

/-- **A number of a document is an integer, or a float that is a number.** -/
theorem cases_of_value? {n : Numeral} {v : Value} (means : n.value? = some v) :
    (∃ k, v = .int k) ∨ ∃ x, v = .float x ∧ x.isNaN = false := by
  unfold value? at means
  split at means
  · cases means
    exact .inl ⟨_, rfl⟩
  · obtain ⟨x, read, rfl⟩ := Option.map_eq_some_iff.1 means
    have number := isNaN_of_magnitude? read
    refine .inr ⟨_, rfl, ?_⟩
    split
    · exact isNaN_neg number
    · exact number

end Numeral

end RecordMapper
