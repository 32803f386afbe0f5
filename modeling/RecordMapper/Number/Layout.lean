import RecordMapper.Number.Shortest

/-!
Floating-point numbers as text.

A `Layout` holds the decisions of a format: which numbers are written with a plain decimal point,
what follows a whole number, and which of two equally near decimals is taken. `Layout.plain` shows
values to people, `Layout.document` writes them into documents.
-/

namespace RecordMapper

/-- How a format writes floating-point numbers. -/
structure Layout where
  /-- Numbers whose first digit has this weight, as a power of ten, are written with a decimal
  point and without an exponent. -/
  positional : Int → Bool
  /-- What follows the digits of a whole number that is written without an exponent. -/
  whole : Text
  /-- Which of two equally near shortest decimals is taken. -/
  tie : Tie

namespace Layout

/-- No number has an exponent, and a whole number has no decimal point. -/
def plain : Layout where
  positional _ := true
  whole := []
  tie := .up

/-- Numbers from `1e-5` to below `1e16` have no exponent, and a whole number ends in `.0`. -/
def document : Layout where
  positional weight := decide (-5 ≤ weight ∧ weight ≤ 15)
  whole := ['.', '0']
  tie := .even

/-- Digits with a decimal point so that the last one has the given weight. -/
def withPoint (layout : Layout) (digits : Text) (exponent : Int) : Text :=
  let point := (digits.length : Int) + exponent
  if 0 ≤ exponent then digits ++ List.replicate exponent.toNat '0' ++ layout.whole
  else if 0 < point then digits.take point.toNat ++ '.' :: digits.drop point.toNat
  else '0' :: '.' :: (List.replicate (-point).toNat '0' ++ digits)

/-- Digits with a point behind the first one, and an exponent with its sign. -/
def withExponent (digits : Text) (weight : Int) : Text :=
  digits.take 1 ++ (if digits.length ≤ 1 then [] else '.' :: digits.drop 1)
    ++ 'e' :: (if weight < 0 then '-' else '+') :: Integer.digits weight.natAbs

/-- A decimal other than zero. -/
def decimal (layout : Layout) (d : Decimal) : Text :=
  let digits := Integer.digits d.coefficient
  let weight := (digits.length : Int) + d.exponent - 1
  if layout.positional weight then layout.withPoint digits d.exponent
  else withExponent digits weight

/-- The magnitude of a number. -/
def magnitude (layout : Layout) (x : Float) : Text :=
  if x.isInf then ['i', 'n', 'f']
  else if Decimal.isZero x then '0' :: layout.whole
  else layout.decimal (Decimal.shortest layout.tie x)

/-- A number, zero and infinity with their signs. -/
def print (layout : Layout) (x : Float) : Text :=
  if x.isNaN then ['N', 'a', 'N']
  else if Decimal.isNegative x then '-' :: layout.magnitude x
  else layout.magnitude x

end Layout

end RecordMapper
