import RecordMapper.Number.Integer

/-!
The shortest decimal that reads back as a given floating-point number.

A finite number other than zero is `m * 2 ^ q`, and the reals that round to it form an interval
around it, whose ends belong to it if `m` is even. `shortest` looks for a decimal in that interval
on coarser grids first, the multiples of a power of ten, and on each grid tries the two neighbours
of the number. The first grid with a hit has the fewest digits; of two hits the nearer one is
taken, and `Tie` says which at equal distance. All arithmetic is exact.
-/

namespace RecordMapper

/-- The number `coefficient * 10 ^ exponent`. -/
structure Decimal where
  coefficient : Nat
  exponent : Int
  deriving DecidableEq, Repr

/-- Which of two decimals at equal distance is taken. -/
inductive Tie where
  /-- The greater one. -/
  | up
  /-- The one with an even last digit. -/
  | even
  deriving DecidableEq, Repr

namespace Decimal

/-! ### Floating-point numbers in binary -/

/-- The number carries a minus sign. -/
def isNegative (x : Float) : Bool :=
  decide (Nat.pow 2 63 ≤ x.toBits.toNat)

/-- The number is zero, of either sign. -/
def isZero (x : Float) : Bool :=
  x.toBits.toNat % Nat.pow 2 63 == 0

/-- The biased exponent, as stored. -/
def storedExponent (x : Float) : Nat :=
  x.toBits.toNat / Nat.pow 2 52 % Nat.pow 2 11

/-- The `m` of the magnitude `m * 2 ^ q`, with the leading bit that normal numbers do not store. -/
def significand (x : Float) : Nat :=
  let stored := x.toBits.toNat % Nat.pow 2 52
  if storedExponent x = 0 then stored else Nat.pow 2 52 + stored

/-- The `q` of the magnitude `m * 2 ^ q`. -/
def scale (x : Float) : Int :=
  if storedExponent x = 0 then -1074 else (storedExponent x : Int) - 1075

/-! ### The interval and the grids -/

/-- The reals that round to a number, in units of a quarter of its last place: the number itself
is `4 * m`. -/
structure Interval where
  low : Nat
  middle : Nat
  high : Nat
  /-- The ends belong to the interval. -/
  closed : Bool

/-- The interval of a number. Below a power of two the spacing is half as wide. -/
def interval (x : Float) : Interval :=
  let m := significand x
  let narrow := m = Nat.pow 2 52 ∧ 1 < storedExponent x
  { low := if narrow then 4 * m - 1 else 4 * m - 2
    middle := 4 * m
    high := 4 * m + 2
    closed := m % 2 == 0 }

/-- The value lies in the interval. -/
def Interval.holds (i : Interval) (value : Nat) : Bool :=
  if i.closed then decide (i.low ≤ value ∧ value ≤ i.high)
  else decide (i.low < value ∧ value < i.high)

/-- The multiple of `unit` in the interval that is nearest to its middle. -/
def Interval.multiple? (i : Interval) (tie : Tie) (unit : Nat) : Option Nat :=
  let k := i.middle / unit
  match i.holds (k * unit), i.holds ((k + 1) * unit) with
  | true, true =>
    match compare (2 * i.middle) ((2 * k + 1) * unit) with
    | .lt => some k
    | .gt => some (k + 1)
    | .eq => if tie = .even ∧ k % 2 = 0 then some k else some (k + 1)
  | true, false => some k
  | false, true => some (k + 1)
  | false, false => none

/-- The interval with all its values multiplied. -/
def Interval.times (i : Interval) (factor : Nat) : Interval :=
  { i with low := i.low * factor, middle := i.middle * factor, high := i.high * factor }

/-- The decimal on the grid of the multiples of `10 ^ exponent`, if one rounds to the number; `i`
is the interval of the number in units of `2 ^ q`. -/
def onGrid? (tie : Tie) (i : Interval) (q : Int) (exponent : Int) : Option Decimal :=
  let i := i.times (Nat.pow 2 q.toNat * Nat.pow 10 (-exponent).toNat)
  let unit := Nat.pow 2 (-q).toNat * Nat.pow 10 exponent.toNat
  (i.multiple? tie unit).map fun k => ⟨k, exponent⟩

/-- Tries `steps` grids, each ten times finer than the one before. -/
def search (tie : Tie) (i : Interval) (q : Int) : (steps : Nat) → (exponent : Int) → Decimal
  | 0, exponent => ⟨0, exponent⟩
  | steps + 1, exponent =>
    match onGrid? tie i q exponent with
    | some d => d
    | none => search tie i q steps (exponent - 1)

/-- A power of ten above the number: its binary length times a little more than the decimal
logarithm of two. -/
def firstExponent (x : Float) : Int :=
  ((significand x).log2 + 1 + scale x) * 30103 / 100000 + 2

/-- The shortest decimal that reads back as the magnitude of the number, which is finite and not
zero. Seventeen digits always suffice, and the first grid lies at most two above the first digit. -/
def shortest (tie : Tie) (x : Float) : Decimal :=
  search tie (interval x) (scale x - 2) 24 (firstExponent x)

end Decimal

end RecordMapper
