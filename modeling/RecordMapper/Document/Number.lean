import RecordMapper.Document.Basic
import RecordMapper.Number.Integer
import RecordMapper.Value.Basic

/-!
What the numbers of a document mean.

A number without a point and an exponent is an integer if it fits into 64 bits. Any other number is
read quickly rather than exactly: as many of its digits as fit into 64 bits without a sign are taken
as an integer, and that is multiplied or divided by a power of ten in floating-point arithmetic. A
number whose magnitude is too large for that is refused.
-/

namespace RecordMapper.Numeral

/-- Takes digits into a significand as long as it fits into 64 bits, and counts them. -/
def absorb : (significand : Nat) → Text → Nat × Nat
  | significand, [] => (significand, 0)
  | significand, c :: digits =>
    let next := 10 * significand + (c.toNat - '0'.toNat)
    if next < Nat.pow 2 64 then
      let (significand, taken) := absorb next digits
      (significand, taken + 1)
    else (significand, 0)

/-- A power of ten as a floating-point number. -/
def powerOfTen (n : Nat) : Float :=
  Float.ofScientific 1 false n

/-- The significand times a power of ten. -/
def scale? (significand : Nat) (exponent : Int) : Option Float :=
  let x := Float.ofNat significand
  let n := exponent.natAbs
  if 0 ≤ exponent then
    if n ≤ 308 then
      let x := x * powerOfTen n
      if x.isInf then none else some x
    else if significand = 0 then some x
    else none
  else if n ≤ 308 then some (x / powerOfTen n)
  else if n ≤ 616 then some (x / powerOfTen 308 / powerOfTen (n - 308))
  else some 0.0

/-- The significand and the exponent that the digits before and behind the point make. -/
def parts (n : Numeral) : Nat × Int :=
  let (significand, taken) := absorb 0 n.whole
  let exponent : Int := n.whole.length - taken
  let (significand, taken) := absorb significand (n.fraction.getD [])
  (significand, exponent - taken)

/-- The magnitude of a number that is not an integer. An exponent that does not fit into 32 bits
makes it zero or too large. -/
def magnitude? (n : Numeral) : Option Float :=
  let (significand, exponent) := n.parts
  match n.exponent with
  | none => scale? significand exponent
  | some (negative, digits) =>
    let shift := Integer.ofDigits digits
    if shift < Nat.pow 2 31 then
      scale? significand (if negative then exponent - shift else exponent + shift)
    else if significand = 0 ∨ negative then some 0.0
    else none

/-- The integer that a number without a point and an exponent denotes, if it is one of 64 bits. The
negative zero is none. -/
def int? (n : Numeral) : Option Int64 :=
  match n.fraction, n.exponent with
  | none, none =>
    let k := Integer.ofDigits n.whole
    if n.negative then
      if k = 0 then none else Integer.ofInt? (-k)
    else Integer.ofInt? k
  | _, _ => none

/-- The value of a number. -/
def value? (n : Numeral) : Option Value :=
  match n.int? with
  | some k => some (.int k)
  | none => n.magnitude?.map fun x => .float (if n.negative then -x else x)

end RecordMapper.Numeral
