import RecordMapper.Text.Basic

/-!
Integers of 64 bits as decimal text.

`print` writes the shortest decimal text; `read?` takes an optional sign and ASCII digits, leading
zeros included, and refuses what does not fit into 64 bits.
-/

namespace RecordMapper.Integer

/-- The decimal digits of a natural number, most significant first. -/
def digits (n : Nat) : Text :=
  Nat.toDigits 10 n

/-- An integer in decimal, with a sign only if it is negative. -/
def print (n : Int) : Text :=
  if n < 0 then '-' :: digits n.natAbs else digits n.natAbs

/-- The number that a text of ASCII digits denotes. -/
def ofDigits (t : Text) : Nat :=
  Nat.ofDigitChars 10 t 0

/-- The number denoted by a text of at least one ASCII digit and nothing else. -/
def readDigits? (t : Text) : Option Nat :=
  if t ≠ [] ∧ t.all Char.isDigit then some (ofDigits t) else none

/-- The 64-bit integer of this value, if there is one. -/
def ofInt? (n : Int) : Option Int64 :=
  if Int64.minValue.toInt ≤ n ∧ n ≤ Int64.maxValue.toInt then some (Int64.ofInt n) else none

/-- Reads an optional sign and at least one digit. -/
def read? : Text → Option Int64
  | '-' :: t => (readDigits? t).bind fun n => ofInt? (-n)
  | '+' :: t => (readDigits? t).bind fun n => ofInt? n
  | t => (readDigits? t).bind fun n => ofInt? n

end RecordMapper.Integer
