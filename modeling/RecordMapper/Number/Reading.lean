import RecordMapper.Number.Integer

/-!
Reading floating-point numbers from text.

A number has an optional sign and is `inf`, `infinity` or `nan` in any case, or decimal digits with
an optional point among or beside them and an optional exponent. The result is the floating-point
number nearest to the decimal; too large a number is infinite.
-/

namespace RecordMapper.Reading

/-- The number nearest to `coefficient * 10 ^ exponent`, with a sign. -/
def nearest (negative : Bool) (coefficient : Nat) (exponent : Int) : Float :=
  let x := Float.ofScientific coefficient (decide (exponent < 0)) exponent.natAbs
  if negative then -x else x

/-- Reads an exponent: an optional sign and at least one digit. -/
def exponent? : Text → Option Int
  | '-' :: t => (Integer.readDigits? t).map fun n => -(n : Int)
  | '+' :: t => (Integer.readDigits? t).map fun n => (n : Int)
  | t => (Integer.readDigits? t).map fun n => (n : Int)

/-- Reads what follows the digits before and behind the point: nothing, or an exponent. -/
def scaling? : Text → Option Int
  | [] => some 0
  | c :: t => if c = 'e' ∨ c = 'E' then exponent? t else none

/-- Reads a decimal without a sign. -/
def decimal? (negative : Bool) (t : Text) : Option Float :=
  let whole := t.takeWhile Char.isDigit
  let rest := t.dropWhile Char.isDigit
  let (fraction, rest) :=
    match rest with
    | '.' :: rest => (rest.takeWhile Char.isDigit, rest.dropWhile Char.isDigit)
    | _ => ([], rest)
  if whole.isEmpty && fraction.isEmpty then none
  else (scaling? rest).map fun e =>
    nearest negative (Integer.ofDigits (whole ++ fraction)) (e - fraction.length)

/-- Reads a number whose sign has been taken off. -/
def unsigned? (negative : Bool) (t : Text) : Option Float :=
  if Text.sameLetters ['i', 'n', 'f'] t
      || Text.sameLetters ['i', 'n', 'f', 'i', 'n', 'i', 't', 'y'] t then
    some (Float.ofBits (if negative then 0xFFF0000000000000 else 0x7FF0000000000000))
  else if Text.sameLetters ['n', 'a', 'n'] t then some (Float.ofBits 0x7FF8000000000000)
  else decimal? negative t

/-- Reads a floating-point number. -/
def float? : Text → Option Float
  | '-' :: t => unsigned? true t
  | '+' :: t => unsigned? false t
  | t => unsigned? false t

end RecordMapper.Reading
