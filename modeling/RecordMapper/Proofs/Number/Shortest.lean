import Mathlib.Algebra.Order.Field.Power
import Mathlib.Data.Rat.Cast.Order
import Mathlib.Tactic.FieldSimp
import Mathlib.Tactic.NormNum.Ineq
import Mathlib.Tactic.NormNum.Pow
import Mathlib.Tactic.Positivity
import Mathlib.Tactic.Ring
import Mathlib.Tactic.SplitIfs
import RecordMapper.Number.Shortest

/-!
A shortest decimal belongs to one floating-point number.

The reals that round to a number are those that its interval covers (`Interval.Covers`), in units of
a quarter of its last place. The search for a shortest decimal ends with one that is covered
(`covers_shortest`): a grid that is finer than half a last place has one, and the last grids that are
tried are so fine, because the first one is too coarse by few digits only
(`ten_zpow_firstExponent_lt`).

The numbers of one sign are numbered by their bits without the sign (`magnitudeBits`). The interval
of each ends halfway to the next one, where that of the next one begins (`low_intervalAt`), and of
two neighbours one has an odd significand and so an interval without its ends. So the intervals are
disjoint, and a decimal is the shortest one of at most one magnitude
(`magnitudeBits_inj_of_value`).
-/

namespace RecordMapper.Decimal

/-- The value of a decimal. -/
def value (d : Decimal) : ℚ :=
  d.coefficient * 10 ^ d.exponent

/-! ### Intervals -/

/-- The interval covers a real, which is given in its units. -/
def Interval.Covers (i : Interval) (r : ℚ) : Prop :=
  if i.closed then i.low ≤ r ∧ r ≤ i.high else i.low < r ∧ r < i.high

theorem Interval.holds_times {i : Interval} {factor : Nat} (positive : 0 < factor) (n : Nat) :
    (i.times factor).holds n = true ↔ i.Covers (n / factor) := by
  have positive : (0 : ℚ) < factor := by exact_mod_cast positive
  unfold holds Covers times
  dsimp only
  split
  · rw [decide_eq_true_iff, le_div_iff₀ positive, div_le_iff₀ positive]
    norm_cast
  · rw [decide_eq_true_iff, lt_div_iff₀ positive, div_lt_iff₀ positive]
    norm_cast

/-- A multiple that is found lies in the interval. -/
theorem Interval.holds_of_multiple? {i : Interval} {tie : Tie} {unit k : Nat}
    (found : i.multiple? tie unit = some k) : i.holds (k * unit) = true := by
  unfold multiple? at found
  dsimp only at found
  split at found
  · rename_i below above
    split at found
    · exact Option.some.inj found ▸ below
    · exact Option.some.inj found ▸ above
    · split at found
      · exact Option.some.inj found ▸ below
      · exact Option.some.inj found ▸ above
  · rename_i below _
    exact Option.some.inj found ▸ below
  · rename_i _ above
    exact Option.some.inj found ▸ above
  · cases found

/-- A multiple of a unit that is less than the upper half of the interval is found. -/
theorem Interval.isSome_multiple? {i : Interval} (tie : Tie) {unit : Nat} (positive : 0 < unit)
    (low : i.low < i.middle) (fine : i.middle + unit < i.high) :
    (i.multiple? tie unit).isSome = true := by
  have next : i.middle < (i.middle / unit + 1) * unit :=
    Nat.lt_mul_of_div_lt (Nat.lt_succ_self _) positive
  have least : i.middle / unit * unit ≤ i.middle := Nat.div_mul_le_self _ _
  rw [Nat.succ_mul] at next
  have above : i.holds ((i.middle / unit + 1) * unit) = true := by
    unfold holds
    rw [Nat.succ_mul]
    split
    · rw [decide_eq_true_iff]
      omega
    · rw [decide_eq_true_iff]
      omega
  unfold multiple?
  dsimp only
  rw [above]
  split
  · split
    · rfl
    · rfl
    · split <;> rfl
  · rfl
  · rfl
  · contradiction

/-! ### Grids -/

theorem zpow_toNat {b : ℚ} (nonzero : b ≠ 0) (n : ℤ) :
    b ^ n.toNat = b ^ (-n).toNat * b ^ n := by
  rw [← zpow_natCast, ← zpow_natCast, ← zpow_add₀ nonzero]
  congr 1
  omega

/-- A multiple of a power of ten, in units of a power of two. -/
theorem grid_value (k : Nat) (q e : ℤ) :
    ((k * (Nat.pow 2 (-q).toNat * Nat.pow 10 e.toNat) : Nat) : ℚ)
        / (Nat.pow 2 q.toNat * Nat.pow 10 (-e).toNat : Nat) = value ⟨k, e⟩ / 2 ^ q := by
  have two : (2 : ℚ) ^ q.toNat = 2 ^ (-q).toNat * 2 ^ q := zpow_toNat two_ne_zero q
  have ten : (10 : ℚ) ^ e.toNat = 10 ^ (-e).toNat * 10 ^ e := zpow_toNat (by norm_num) e
  simp only [Nat.pow_eq, value, Nat.cast_mul, Nat.cast_pow, Nat.cast_ofNat]
  rw [two, ten]
  field_simp

theorem covers_of_onGrid? {tie : Tie} {i : Interval} {q e : ℤ} {d : Decimal}
    (found : onGrid? tie i q e = some d) : i.Covers (d.value / 2 ^ q) := by
  obtain ⟨k, multiple, rfl⟩ := Option.map_eq_some_iff.1 found
  have positive : 0 < Nat.pow 2 q.toNat * Nat.pow 10 (-e).toNat := by
    simp only [Nat.pow_eq]
    positivity
  rw [← grid_value, ← Interval.holds_times positive]
  exact Interval.holds_of_multiple? multiple

/-- A grid that is finer than half a last place has a decimal that rounds to the number. -/
theorem isSome_onGrid? (tie : Tie) {i : Interval} (low : i.low < i.middle)
    (high : i.high = i.middle + 2) {q e : ℤ} (fine : (10 : ℚ) ^ e < 2 * 2 ^ q) :
    (onGrid? tie i q e).isSome = true := by
  have positive : 0 < Nat.pow 2 q.toNat * Nat.pow 10 (-e).toNat := by
    simp only [Nat.pow_eq]
    positivity
  have unit : Nat.pow 2 (-q).toNat * Nat.pow 10 e.toNat
      < 2 * (Nat.pow 2 q.toNat * Nat.pow 10 (-e).toNat) := by
    have scaled : value ⟨1, e⟩ / 2 ^ q < 2 := by
      rw [div_lt_iff₀ (by positivity), value, Nat.cast_one, one_mul]
      exact fine
    rw [← grid_value, Nat.one_mul, div_lt_iff₀ (by exact_mod_cast positive)] at scaled
    exact_mod_cast scaled
  unfold onGrid?
  dsimp only
  rw [Option.isSome_map]
  refine Interval.isSome_multiple? tie ?_ ?_ ?_
  · simp only [Nat.pow_eq]
    positivity
  · exact Nat.mul_lt_mul_of_pos_right low positive
  · simp only [Interval.times, high, Nat.add_mul]
    omega

/-- A search that comes to a fine grid ends with a decimal that rounds to the number. -/
theorem covers_search {tie : Tie} {i : Interval} {q : ℤ} {steps : Nat} {e : ℤ}
    (hit : ∃ n < steps, (onGrid? tie i q (e - n)).isSome = true) :
    i.Covers ((search tie i q steps e).value / 2 ^ q) := by
  induction steps generalizing e with
  | zero =>
    obtain ⟨n, before, -⟩ := hit
    cases before
  | succ steps ih =>
    unfold search
    cases found : onGrid? tie i q e with
    | some d => exact covers_of_onGrid? found
    | none =>
      obtain ⟨n, before, there⟩ := hit
      cases n with
      | zero =>
        rw [Nat.cast_zero, Int.sub_zero, found] at there
        cases there
      | succ n =>
        refine ih ⟨n, Nat.lt_of_succ_lt_succ before, ?_⟩
        rw [show e - 1 - (n : ℤ) = e - ((n + 1 : Nat) : ℤ) by omega]
        exact there

/-! ### The first grid -/

/-- A power of ten is compared with one of two by a fraction near the binary logarithm of ten. -/
theorem ten_zpow_lt_of_le {a c : Nat} {e b : ℤ}
    (near : ((10 : ℚ) ^ a) ^ e ≤ (2 ^ c) ^ e) (less : c * e < a * b) : (10 : ℚ) ^ e < 2 ^ b := by
  refine lt_of_pow_lt_pow_left₀ a (by positivity) ?_
  calc ((10 : ℚ) ^ e) ^ a = (10 ^ a) ^ e := by
        rw [← zpow_natCast, ← zpow_natCast, ← zpow_mul, ← zpow_mul, mul_comm]
    _ ≤ (2 ^ c) ^ e := near
    _ = 2 ^ (c * e : ℤ) := by rw [zpow_mul, zpow_natCast]
    _ < 2 ^ (a * b : ℤ) := zpow_lt_zpow_right₀ one_lt_two less
    _ = (2 ^ b) ^ a := by rw [mul_comm, zpow_mul, zpow_natCast]

theorem ten_zpow_lt_of_nonneg {e b : ℤ} (natural : 0 ≤ e) (less : 196 * e < 59 * b) :
    (10 : ℚ) ^ e < 2 ^ b := by
  have near : (10 : ℚ) ^ 59 ≤ 2 ^ 196 := by norm_num
  exact ten_zpow_lt_of_le (zpow_le_zpow_left₀ natural (by positivity) near) less

theorem ten_zpow_lt_of_nonpos {e b : ℤ} (negative : e ≤ 0) (less : 93 * e < 28 * b) :
    (10 : ℚ) ^ e < 2 ^ b := by
  have near : (2 : ℚ) ^ 93 ≤ 10 ^ 28 := by norm_num
  have inverse : ((2 : ℚ) ^ 93) ^ (-e) ≤ (10 ^ 28) ^ (-e) :=
    zpow_le_zpow_left₀ (by omega) (by positivity) near
  refine ten_zpow_lt_of_le ?_ less
  rw [← inv_le_inv₀ (by positivity) (by positivity), ← zpow_neg, ← zpow_neg]
  exact inverse

theorem significand_lt (x : Float) : significand x < 2 ^ 53 := by
  have stored : x.toBits.toNat % Nat.pow 2 52 < Nat.pow 2 52 := Nat.mod_lt _ (by decide)
  unfold significand
  dsimp only
  simp only [Nat.pow_eq] at stored ⊢
  split <;> omega

/-- The last grid that is tried is finer than half a last place. -/
theorem ten_zpow_firstExponent_lt (x : Float) :
    (10 : ℚ) ^ (firstExponent x - 23) < 2 * 2 ^ (scale x - 2) := by
  have stored : storedExponent x < 2048 := Nat.mod_lt _ (by decide)
  have short : (significand x).log2 ≤ 52 := by
    by_cases zero : significand x = 0
    · rw [zero]
      decide
    · exact Nat.le_of_lt_succ ((Nat.log2_lt zero).2 (significand_lt x))
  have bounds : -1074 ≤ scale x ∧ scale x ≤ 972 := by
    unfold scale
    split <;> omega
  rw [← zpow_one_add₀ two_ne_zero]
  unfold firstExponent
  by_cases natural : 0 ≤ ((significand x).log2 + 1 + scale x) * 30103 / 100000 + 2 - 23
  · exact ten_zpow_lt_of_nonneg natural (by omega)
  · exact ten_zpow_lt_of_nonpos (by omega) (by omega)

/-- **A shortest decimal rounds to its number.** -/
theorem covers_shortest (tie : Tie) {x : Float} (nonzero : significand x ≠ 0) :
    (interval x).Covers ((shortest tie x).value / 2 ^ (scale x - 2)) := by
  refine covers_search ⟨23, by decide, isSome_onGrid? tie ?_ rfl (ten_zpow_firstExponent_lt x)⟩
  unfold interval
  dsimp only
  split <;> omega

/-! ### Neighbours -/

/-- The bits of a number without its sign. -/
def magnitudeBits (x : Float) : Nat :=
  x.toBits.toNat % 2 ^ 63

/-- The significand of the number with these bits. -/
def significandAt (n : Nat) : Nat :=
  if n / 2 ^ 52 = 0 then n % 2 ^ 52 else 2 ^ 52 + n % 2 ^ 52

/-- The scale of the number with these bits. -/
def scaleAt (n : Nat) : ℤ :=
  if n / 2 ^ 52 = 0 then -1074 else (n / 2 ^ 52 : Nat) - 1075

theorem storedExponent_eq (x : Float) : storedExponent x = magnitudeBits x / 2 ^ 52 := by
  unfold storedExponent magnitudeBits
  simp only [Nat.pow_eq]
  omega

theorem significand_eq (x : Float) : significand x = significandAt (magnitudeBits x) := by
  have stored : x.toBits.toNat % Nat.pow 2 52 = magnitudeBits x % 2 ^ 52 := by
    unfold magnitudeBits
    simp only [Nat.pow_eq]
    omega
  unfold significand significandAt
  dsimp only
  rw [storedExponent_eq, stored, Nat.pow_eq]

theorem scale_eq (x : Float) : scale x = scaleAt (magnitudeBits x) := by
  unfold scale scaleAt
  rw [storedExponent_eq]

/-- The interval of the number with these bits. -/
def intervalAt (n : Nat) : Interval :=
  let m := significandAt n
  { low := if m = 2 ^ 52 ∧ 1 < n / 2 ^ 52 then 4 * m - 1 else 4 * m - 2
    middle := 4 * m
    high := 4 * m + 2
    closed := m % 2 == 0 }

theorem interval_eq (x : Float) : interval x = intervalAt (magnitudeBits x) := by
  unfold interval intervalAt
  rw [significand_eq, storedExponent_eq, Nat.pow_eq]

/-- What lies halfway between the numbers with these and the next bits. -/
def halfway (n : Nat) : ℚ :=
  ((intervalAt n).high : ℚ) * 2 ^ (scaleAt n - 2)

/-- From one number to the next the scale stays, or grows at a power of two, below which the
interval is narrow. -/
theorem low_intervalAt_cases (n : Nat) :
    scaleAt (n + 1) = scaleAt n ∧ (intervalAt (n + 1)).low = (intervalAt n).high ∨
      scaleAt (n + 1) = scaleAt n + 1 ∧ 2 * (intervalAt (n + 1)).low = (intervalAt n).high := by
  unfold intervalAt
  dsimp only
  unfold significandAt scaleAt
  by_cases carry : n % 2 ^ 52 + 1 = 2 ^ 52
  · have exponent : (n + 1) / 2 ^ 52 = n / 2 ^ 52 + 1 := by omega
    have stored : (n + 1) % 2 ^ 52 = 0 := by omega
    rw [exponent, stored, if_neg (Nat.succ_ne_zero _), if_neg (Nat.succ_ne_zero _)]
    split_ifs <;> omega
  · have exponent : (n + 1) / 2 ^ 52 = n / 2 ^ 52 := by omega
    have stored : (n + 1) % 2 ^ 52 = n % 2 ^ 52 + 1 := by omega
    rw [exponent, stored]
    split_ifs <;> omega

/-- The interval of a number begins where that of the number before it ends. -/
theorem low_intervalAt (n : Nat) :
    ((intervalAt (n + 1)).low : ℚ) * 2 ^ (scaleAt (n + 1) - 2) = halfway n := by
  unfold halfway
  rcases low_intervalAt_cases n with ⟨same, low⟩ | ⟨next, low⟩
  · rw [same, low]
  · rw [next, ← low, Nat.cast_mul, add_sub_right_comm, zpow_add_one₀ two_ne_zero]
    push_cast
    ring

theorem halfway_lt (n : Nat) : halfway n < halfway (n + 1) := by
  have nonempty : (intervalAt (n + 1)).low < (intervalAt (n + 1)).high := by
    unfold intervalAt
    dsimp only
    split <;> omega
  rw [← low_intervalAt, halfway]
  exact mul_lt_mul_of_pos_right (by exact_mod_cast nonempty) (by positivity)

theorem strictMono_halfway : StrictMono halfway :=
  strictMono_nat_of_lt_succ halfway_lt

/-- Every other number has an interval without its ends. -/
theorem closed_intervalAt (n : Nat) : (intervalAt n).closed = (n % 2 == 0) := by
  unfold intervalAt significandAt
  dsimp only
  congr 1
  split <;> omega

/-- A real that rounds to a number lies halfway between its neighbours or nearer, and nearer if the
number is odd. -/
theorem between_of_covers {n : Nat} {r : ℚ}
    (covers : (intervalAt (n + 1)).Covers (r / 2 ^ (scaleAt (n + 1) - 2))) :
    halfway n ≤ r ∧ r ≤ halfway (n + 1) ∧
      ((n + 1) % 2 = 1 → halfway n < r ∧ r < halfway (n + 1)) := by
  have positive : (0 : ℚ) < 2 ^ (scaleAt (n + 1) - 2) := by positivity
  rw [← low_intervalAt, halfway, ← le_div_iff₀ positive, ← div_le_iff₀ positive,
    ← lt_div_iff₀ positive, ← div_lt_iff₀ positive]
  unfold Interval.Covers at covers
  rw [closed_intervalAt] at covers
  split at covers
  · rename_i even
    exact ⟨covers.1, covers.2, fun odd => absurd (beq_iff_eq.1 even) (by omega)⟩
  · exact ⟨covers.1.le, covers.2.le, fun _ => covers⟩

/-- The intervals of two numbers are disjoint. -/
theorem eq_of_covers {m n : Nat} {r : ℚ}
    (covers : (intervalAt (m + 1)).Covers (r / 2 ^ (scaleAt (m + 1) - 2)))
    (covers' : (intervalAt (n + 1)).Covers (r / 2 ^ (scaleAt (n + 1) - 2))) : m = n := by
  wlog less : m < n generalizing m n
  · rcases Nat.lt_trichotomy m n with before | same | behind
    · exact absurd before less
    · exact same
    · exact (this covers' covers behind).symm
  · exfalso
    obtain ⟨-, above, odd⟩ := between_of_covers covers
    obtain ⟨below, -, odd'⟩ := between_of_covers covers'
    have next : halfway (m + 1) ≤ halfway n := strictMono_halfway.monotone less
    have ends : halfway (m + 1) = halfway n := le_antisymm next (below.trans above)
    obtain rfl : m + 1 = n := strictMono_halfway.injective ends
    -- one of the two neighbours is odd, and does not cover its end
    rcases Nat.mod_two_eq_zero_or_one (m + 1) with even | one
    · exact absurd (odd' (by omega)).1 (not_lt.2 above)
    · exact absurd (odd one).2 (not_lt.2 below)

theorem significand_ne_zero {x : Float} (nonzero : magnitudeBits x ≠ 0) : significand x ≠ 0 := by
  rw [significand_eq]
  unfold significandAt
  split <;> omega

/-- A shortest decimal is not zero. -/
theorem value_shortest_pos (tie : Tie) {x : Float} (nonzero : magnitudeBits x ≠ 0) :
    0 < (shortest tie x).value := by
  have covers := covers_shortest tie (significand_ne_zero nonzero)
  have positive : 0 < (interval x).low := by
    have significand := Nat.pos_of_ne_zero (significand_ne_zero nonzero)
    unfold interval
    dsimp only
    split <;> omega
  have positive : (0 : ℚ) < (interval x).low := by exact_mod_cast positive
  have scaled : 0 < (shortest tie x).value / 2 ^ (scale x - 2) := by
    unfold Interval.Covers at covers
    split at covers
    · exact positive.trans_le covers.1
    · exact positive.trans covers.1
  exact (div_pos_iff_of_pos_right (by positivity)).1 scaled

/-- **A decimal is the shortest one of at most one magnitude.** -/
theorem magnitudeBits_inj_of_value {tie : Tie} {x y : Float} (nonzero : magnitudeBits x ≠ 0)
    (nonzero' : magnitudeBits y ≠ 0) (same : (shortest tie x).value = (shortest tie y).value) :
    magnitudeBits x = magnitudeBits y := by
  have covers := covers_shortest tie (significand_ne_zero nonzero)
  have covers' := covers_shortest tie (significand_ne_zero nonzero')
  rw [interval_eq, scale_eq] at covers covers'
  obtain ⟨m, bits⟩ := Nat.exists_eq_succ_of_ne_zero nonzero
  obtain ⟨n, bits'⟩ := Nat.exists_eq_succ_of_ne_zero nonzero'
  rw [same, bits] at covers
  rw [bits'] at covers'
  rw [bits, bits', eq_of_covers covers covers']

end RecordMapper.Decimal
