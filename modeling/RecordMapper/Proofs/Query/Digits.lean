import RecordMapper.Proofs.Query.Placeholders
import RecordMapper.Proofs.Query.WellFormed

/-!
Numbers in the digits of any script.

A literal is recognized by its form, and digits of any script make a number there. Its value is read
from ASCII digits alone: so **a number is read exactly if its digits are ASCII**
(`Grammar.number_succeeds_iff`), and one in foreign digits is an error, where a text that no rule
applies to is handed on (`Grammar.not_isForeignNumber`).
-/

namespace RecordMapper

open Text

/-! ### Numbers -/

namespace Reading

theorem isAscii_of_all_isDigit {t : Text} (digits : t.all Char.isDigit = true) :
    ∀ c ∈ t, IsAscii c :=
  fun c mem => isAscii_of_isAsciiWord (isAsciiWord_of_isDigit (List.all_eq_true.1 digits c mem))

theorem isAscii_of_readDigits? {t : Text} {n : Nat} (read : Integer.readDigits? t = some n) :
    ∀ c ∈ t, IsAscii c :=
  isAscii_of_all_isDigit (Option.ite_none_right_eq_some.1 read).1.2

theorem isAscii_of_scaling? {t : Text} {e : Int} (read : scaling? t = some e) :
    ∀ c ∈ t, IsAscii c := by
  have exponent : ∀ {t : Text}, exponent? t = some e → ∀ c ∈ t, IsAscii c := by
    intro t read
    unfold exponent? at read
    split at read
    all_goals
      obtain ⟨_, lifted, -⟩ := Option.map_eq_some_iff.1 read
      obtain ⟨n, digits, -⟩ := Option.bind_eq_some_iff.1 lifted
    · exact List.forall_mem_cons.2 ⟨by decide, isAscii_of_readDigits? digits⟩
    · exact List.forall_mem_cons.2 ⟨by decide, isAscii_of_readDigits? digits⟩
    · exact isAscii_of_readDigits? digits
  cases t with
  | nil => exact List.forall_mem_nil _
  | cons c t =>
    obtain ⟨mark, read⟩ := Option.ite_none_right_eq_some.1 read
    refine List.forall_mem_cons.2 ⟨?_, exponent read⟩
    rcases mark with rfl | rfl <;> decide

theorem isAscii_of_decimal? {negative : Bool} {t : Text} {x : Float}
    (read : decimal? negative t = some x) : ∀ c ∈ t, IsAscii c := by
  have taken : ∀ t : Text, ∀ c ∈ t.takeWhile Char.isDigit, IsAscii c :=
    fun t => isAscii_of_all_isDigit (List.all_eq_true.2 fun c => List.mem_takeWhile_imp)
  have split : ∀ t : Text, (∀ c ∈ t.dropWhile Char.isDigit, IsAscii c) → ∀ c ∈ t, IsAscii c := by
    intro t rest
    rw [← List.takeWhile_append_dropWhile (p := Char.isDigit) (l := t)]
    exact List.forall_mem_append.2 ⟨taken t, rest⟩
  refine split t ?_
  unfold decimal? at read
  extract_lets whole rest at read
  change ∀ c ∈ rest, IsAscii c
  clear_value rest
  split at read
  rename_i fraction behind point
  obtain ⟨-, read⟩ := Option.ite_none_left_eq_some.1 read
  obtain ⟨e, scaling, -⟩ := Option.map_eq_some_iff.1 read
  split at point
  · cases point
    exact List.forall_mem_cons.2 ⟨by decide, split _ (isAscii_of_scaling? scaling)⟩
  · cases point
    exact isAscii_of_scaling? scaling

/-- A number that is read is written in ASCII. -/
theorem isAscii_of_float? {t : Text} {x : Float} (read : float? t = some x) :
    ∀ c ∈ t, IsAscii c := by
  have word : ∀ {w t : Text}, (∀ c ∈ w, IsAscii c) → sameLetters w t = true →
      ∀ c ∈ t, IsAscii c :=
    fun ascii same => Span.isAscii_of_forall₂ ascii (sameLetters_iff.1 same)
  have unsigned : ∀ {negative : Bool} {t : Text}, unsigned? negative t = some x →
      ∀ c ∈ t, IsAscii c := by
    intro negative t read
    unfold unsigned? at read
    split at read
    · rename_i infinite
      rcases Bool.or_eq_true_iff.1 infinite with same | same
      · exact word (by simp [IsAscii]) same
      · exact word (by simp [IsAscii]) same
    split at read
    · rename_i same
      exact word (by simp [IsAscii]) same
    · exact isAscii_of_decimal? read
  unfold float? at read
  split at read
  · exact List.forall_mem_cons.2 ⟨by decide, unsigned read⟩
  · exact List.forall_mem_cons.2 ⟨by decide, unsigned read⟩
  · exact unsigned read

end Reading

/-! ### Numbers in foreign digits -/

namespace Form

/-- The text is a number, perhaps with an alias, and not all its digits are ASCII. -/
def IsForeignNumber (t : Text) : Prop :=
  ∃ digits a, literal? t = some (.number digits, a) ∧ ∃ c ∈ digits, ¬ IsAscii c

theorem AreDigits.isDigits {w : Text} (digits : AreDigits w) (ascii : ∀ c ∈ w, IsAscii c) :
    IsDigits w :=
  ⟨digits.1, fun c mem => isDigit_of_isAscii (ascii c mem) ▸ digits.2 c mem⟩

theorem IsNumeral.isUnsigned {number : Text} (numeral : IsNumeral number)
    (ascii : ∀ c ∈ number, IsAscii c) : IsUnsigned number := by
  cases numeral with
  | whole digits => exact .whole (digits.isDigits ascii)
  | fraction digits digits' =>
    obtain ⟨first, others⟩ := List.forall_mem_append.1 ascii
    exact .fraction (digits.isDigits first)
      (digits'.isDigits fun c mem => others c (List.mem_cons_of_mem _ mem))

/-- A number starts with a digit or a minus sign, so it is no field reference. -/
theorem field?_of_number {t digits : Text} {a : Option String}
    (found : literal? t = some (.number digits, a)) : field? t = none := by
  have start : ∀ {number tail : Text}, IsNumeral number → field? (number ++ tail) = none := by
    intro number tail numeral
    have nonempty : number ≠ [] := by
      cases numeral with
      | whole digits => exact digits.1
      | fraction _ _ => simp
    obtain ⟨c, rest, rfl⟩ := List.exists_cons_of_ne_nil nonempty
    refine field?_cons_eq_none ?_ _
    rintro rfl
    rcases numeral.chars _ (List.mem_cons_self ..) with digit | point
    · cases digit
    · cases point
  obtain ⟨tail, -, ⟨sign, number, -, either, numeral, rfl⟩ | ⟨_, _, other, -⟩⟩ :=
    exists_of_literal? found
  · rcases either with rfl | rfl
    · rw [List.nil_append]
      exact start numeral
    · exact field?_cons_eq_none (by decide) _
  · cases other

/-- There is no such number in an ASCII text. -/
theorem not_isForeignNumber_of_isAscii {t : Text} (ascii : ∀ c ∈ t, IsAscii c) :
    ¬ IsForeignNumber t := by
  rintro ⟨digits, a, found, c, mem, other⟩
  obtain ⟨tail, -, ⟨sign, number, same, -, -, rfl⟩ | ⟨_, _, other, -⟩⟩ := exists_of_literal? found
  · cases same
    refine other (ascii c ?_)
    rw [← List.append_assoc]
    exact List.mem_append_left tail mem
  · cases other

end Form

namespace Grammar

open Result

variable {parse : Text → Result Expr} {t : Text}

/-- **The digits of a literal are read exactly if they are ASCII.** -/
theorem number_succeeds_iff {digits : Text} {a : Option String}
    (found : Form.literal? t = some (.number digits, a)) :
    (number digits).Succeeds ↔ ∀ c ∈ digits, IsAscii c := by
  constructor
  · rintro ⟨v, read⟩
    unfold number at read
    split at read
    · rename_i n integer
      obtain ⟨-, integer⟩ := Option.ite_none_left_eq_some.1 integer
      unfold Integer.read? at integer
      split at integer
      all_goals obtain ⟨_, whole, -⟩ := Option.bind_eq_some_iff.1 integer
      · exact List.forall_mem_cons.2 ⟨by decide, Reading.isAscii_of_readDigits? whole⟩
      · exact List.forall_mem_cons.2 ⟨by decide, Reading.isAscii_of_readDigits? whole⟩
      · exact Reading.isAscii_of_readDigits? whole
    · split at read
      · rename_i x float
        exact Reading.isAscii_of_float? float
      · cases read
  · intro ascii
    obtain ⟨tail, -, ⟨sign, number, same, either, numeral, -⟩ | ⟨_, _, other, -⟩⟩ :=
      Form.exists_of_literal? found
    · cases same
      have unsigned := numeral.isUnsigned (List.forall_mem_append.1 ascii).2
      rcases either with rfl | rfl
      · exact exists_number_of_isUnsigned unsigned
      · exact exists_number (t := '-' :: number) (Reading.isSome_unsigned? true unsigned)
    · cases other

theorem scalar?_succeeds (readable : ¬ Form.IsForeignNumber t) : (scalar? none t).Succeeds := by
  unfold scalar?
  split
  · exact ⟨none, rfl⟩
  · rename_i digits a found
    have ascii : ∀ c ∈ digits, IsAscii c := by
      intro c mem
      by_contra other
      exact readable ⟨digits, a, found, c, mem, other⟩
    exact ((number_succeeds_iff found).2 ascii).bind fun v => ⟨_, rfl⟩
  · exact ⟨_, rfl⟩

/-- A number in foreign digits is an error. -/
theorem not_isForeignNumber (read : (expression none parse t).Succeeds) :
    ¬ Form.IsForeignNumber t.trim := by
  rintro ⟨digits, a, found, c, mem, other⟩
  obtain ⟨e, read⟩ := read
  have noField := Form.field?_of_number found
  unfold expression at read
  dsimp only at read
  rw [noField, bound?_none] at read
  split at read
  · cases read
  · obtain ⟨scalar, first, -⟩ := Result.exists_of_bind read
    have substituted : Form.literal? (substitute none t.trim) = some (.number digits, a) := found
    rw [scalar?, substituted] at first
    obtain ⟨v, value, -⟩ := Result.exists_of_bind first
    exact other ((number_succeeds_iff found).1 ⟨v, value⟩ c mem)

end Grammar

end RecordMapper
