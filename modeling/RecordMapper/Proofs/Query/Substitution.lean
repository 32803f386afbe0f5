import RecordMapper.Bindings
import RecordMapper.Proofs.Query.Mentions

/-!
Field references in texts with values put in.

Placeholders are names between percent signs, so none of them overlaps a field reference, and **the
reference still stands in the text once values are put in** (`Bindings.isInfix_substitute`). But
a value that brings quotes along may turn what stands around it into a literal. If values bring none,
the quotes of the text remain what they are, and **a text that mentions a reference does not become
a literal** (`Bindings.outside_substitute`, `Form.literal?_of_outside`).
-/

namespace RecordMapper

open Text

namespace Text

/-! ### Replacing -/

section Replacing

variable {old new : Text}

theorem replaceFrom_skip (x y : Text) :
    replaceFrom old new x.length (x ++ y) = replaceFrom old new 0 y := by
  induction x with
  | nil => rfl
  | cons c x ih => exact ih

/-- An occurrence at the start of the text is replaced. -/
theorem replaceFrom_append_self (nonempty : old ≠ []) (y : Text) :
    replaceFrom old new 0 (old ++ y) = new ++ replaceFrom old new 0 y := by
  obtain ⟨c, tail, rfl⟩ := List.exists_cons_of_ne_nil nonempty
  have found : after? false (c :: tail) (c :: (tail ++ y)) = some y := after?_false_iff.2 rfl
  rw [List.cons_append, replaceFrom, found, Option.isSome_some, if_pos rfl]
  exact congrArg (new ++ ·) (replaceFrom_skip tail y)

/-- A character at which no occurrence starts is kept. -/
theorem replaceFrom_cons {c : Char} {t : Text} (missed : after? false old (c :: t) = none) :
    replaceFrom old new 0 (c :: t) = c :: replaceFrom old new 0 t := by
  rw [replaceFrom, missed]
  rfl

/-- A text in which nothing occurs is kept. -/
theorem replace_of_not_isInfix {t : Text} (absent : ¬ old <:+: t) (new : Text) :
    t.replace old new = t := by
  have kept : replaceFrom old new 0 t = t := by
    induction t with
    | nil => rfl
    | cons c t ih =>
      have missed : after? false old (c :: t) = none := by
        rw [after?_false_eq_none_iff]
        rintro ⟨rest, same⟩
        exact absent ⟨[], rest, by rw [List.nil_append, same]⟩
      rw [replaceFrom_cons missed, ih fun inside => absent (List.infix_cons inside)]
  exact kept

/-- Characters that no occurrence starts with are kept. -/
theorem replaceFrom_of_not_mem {c : Char} {x : Text} (free : c ∉ x) (old y : Text) :
    replaceFrom (c :: old) new 0 (x ++ y) = x ++ replaceFrom (c :: old) new 0 y := by
  induction x with
  | nil => rfl
  | cons d x ih =>
    have differ : c ≠ d := fun same => free (same ▸ List.mem_cons_self ..)
    have missed : after? false (c :: old) (d :: (x ++ y)) = none := by
      rw [after?_false_eq_none_iff]
      rintro ⟨rest, same⟩
      exact differ (List.cons.inj same).1
    rw [List.cons_append, replaceFrom_cons missed, ih fun mem => free (List.mem_cons_of_mem d mem),
      List.cons_append]

/-- No occurrence overlaps a text that starts with a character foreign to it. -/
theorem replaceFrom_append {c : Char} (foreign : c ∉ old) (nonempty : old ≠ []) (x y : Text) :
    replaceFrom old new 0 (x ++ c :: y)
      = replaceFrom old new 0 x ++ replaceFrom old new 0 (c :: y) := by
  induction size : x.length using Nat.strong_induction_on generalizing x with
  | h n ih =>
    subst size
    cases x with
    | nil => rfl
    | cons d x =>
      cases found : after? false old (d :: x) with
      | none =>
        have missed : after? false old (d :: (x ++ c :: y)) = none := by
          rw [after?_false_eq_none_iff] at found ⊢
          rintro ⟨rest, same⟩
          rw [← List.cons_append] at same
          rcases List.append_eq_append_iff.1 same with ⟨more, split, -⟩ | ⟨more, split, tail⟩
          · exact found ⟨more, split.symm⟩
          · cases more with
            | nil =>
              rw [List.append_nil] at split
              exact found ⟨[], by rw [List.append_nil, split]⟩
            | cons e more =>
              obtain ⟨rfl, -⟩ := List.cons.inj tail
              exact foreign (split ▸ by simp)
        rw [List.cons_append, replaceFrom_cons missed, replaceFrom_cons found,
          ih x.length (Nat.lt_succ_self _) x rfl, List.cons_append]
      | some rest =>
        obtain same : d :: x = old ++ rest := after?_false_iff.1 found
        have shorter : rest.length < (d :: x).length := by
          have positive := List.length_pos_iff.2 nonempty
          rw [same, List.length_append]
          omega
        rw [same, List.append_assoc, replaceFrom_append_self nonempty,
          replaceFrom_append_self nonempty, ih rest.length shorter rest rfl, List.append_assoc]

end Replacing

/-! ### Literals -/

/-- The text holds no quote and no backslash, and is not empty. -/
def IsUnquoted (t : Text) : Prop :=
  t ≠ [] ∧ ∀ c ∈ t, c ≠ '"' ∧ c ≠ '\\'

theorem IsName.isUnquoted {t : Text} (name : IsName t) : IsUnquoted t := by
  refine ⟨name.1, fun c mem => ⟨?_, ?_⟩⟩
  all_goals
    rintro rfl
    cases name.2 _ mem

theorem after_of_ne {m : Mode} (inside : m ≠ .plain) {c : Char} (other : c ≠ '"' ∧ c ≠ '\\') :
    m.after c = .quoted := by
  cases m with
  | plain => exact absurd rfl inside
  | quoted => simp [Mode.after, other]
  | escaped => rfl

theorem isSome_literalFrom?_cons {m : Mode} {c : Char} {t : Text} (inside : m.after c ≠ .plain) :
    (literalFrom? m (c :: t)).isSome = (literalFrom? (m.after c) t).isSome := by
  rw [literalFrom?, if_neg inside, Option.isSome_map]

/-- A literal goes on behind a text without quotes and backslashes. -/
theorem isSome_literalFrom?_append {m : Mode} (inside : m ≠ .plain) {x : Text}
    (unquoted : IsUnquoted x) (y : Text) :
    (literalFrom? m (x ++ y)).isSome = (literalFrom? .quoted y).isSome := by
  obtain ⟨nonempty, free⟩ := unquoted
  induction x generalizing m with
  | nil => exact absurd rfl nonempty
  | cons c x ih =>
    have next := after_of_ne inside (free c (List.mem_cons_self ..))
    rw [List.cons_append, isSome_literalFrom?_cons (by rw [next]; decide), next]
    cases x with
    | nil => rfl
    | cons d x =>
      exact ih (by decide) (List.cons_ne_nil d x) fun e mem => free e (List.mem_cons_of_mem c mem)

/-- A literal that is closed is closed with unquoted texts replaced in it. -/
theorem isSome_literalFrom?_replaceFrom {old new : Text} (old_unquoted : IsUnquoted old)
    (new_unquoted : IsUnquoted new) {m : Mode} (inside : m ≠ .plain) {t : Text}
    (closed : (literalFrom? m t).isSome = true) :
    (literalFrom? m (replaceFrom old new 0 t)).isSome = true := by
  induction size : t.length using Nat.strong_induction_on generalizing m t with
  | h n ih =>
    subst size
    cases t with
    | nil => cases closed
    | cons c t =>
      cases found : after? false old (c :: t) with
      | none =>
        rw [replaceFrom_cons found]
        by_cases closes : m.after c = .plain
        · rw [literalFrom?, if_pos closes]
          rfl
        · rw [isSome_literalFrom?_cons closes] at closed ⊢
          exact ih t.length (Nat.lt_succ_self _) closes closed rfl
      | some rest =>
        obtain same : c :: t = old ++ rest := after?_false_iff.1 found
        have shorter : rest.length < (c :: t).length := by
          have positive := List.length_pos_iff.2 old_unquoted.1
          rw [same, List.length_append]
          omega
        rw [same, isSome_literalFrom?_append inside old_unquoted] at closed
        rw [same, replaceFrom_append_self old_unquoted.1,
          isSome_literalFrom?_append inside new_unquoted]
        exact ih rest.length shorter (by decide) closed rfl

theorem literalFrom?_append {m : Mode} {x contents rest : Text}
    (found : literalFrom? m x = some (contents, rest)) (y : Text) :
    literalFrom? m (x ++ y) = some (contents, rest ++ y) := by
  induction x generalizing m contents with
  | nil => cases found
  | cons c x ih =>
    rw [List.cons_append]
    rw [literalFrom?] at found ⊢
    split at found
    · rename_i closes
      obtain ⟨rfl, rfl⟩ := Prod.mk.inj (Option.some.inj found)
      rw [if_pos closes]
    · rename_i open_
      have prepended : prependFound c (literalFrom? (m.after c) x) = some (contents, rest) := found
      obtain ⟨contents', later, rfl⟩ := exists_of_prependFound prepended
      rw [if_neg open_, ih later]
      rfl

end Text

/-! ### References outside the literal at the start -/

namespace Qualified

variable {r : Qualified} {t : Text}

/-- The reference stands in the text, and not in a literal that the text starts with. -/
def Outside (r : Qualified) (t : Text) : Prop :=
  ∃ front back, t = front ++ (r.text ++ back)
    ∧ ∀ x, front = '"' :: x → (literal? x).isSome = true

theorem MentionedIn.outside (mentioned : r.MentionedIn t) : r.Outside t := by
  obtain ⟨front, back, rfl, plain⟩ := mentioned
  refine ⟨front, back, rfl, ?_⟩
  rintro x rfl
  cases closed : literal? x with
  | some _ => rfl
  | none =>
    have unclosed : Unclosed .quoted (x ++ []) := ⟨by decide, by rwa [List.append_nil]⟩
    exact absurd plain unclosed.across.1

/-- The placeholder of a word does not overlap a reference. -/
theorem replace_split {name : String} (word : IsName name.toList) (new front back : Text) :
    (front ++ (r.text ++ back)).replace (Bindings.placeholder name) new
      = replaceFrom (Bindings.placeholder name) new 0 front
        ++ (r.text ++ replaceFrom (Bindings.placeholder name) new 0 back) := by
  have sign : IsNeutral ['%'] := isNeutral_of_checked rfl
  have neutral : IsNeutral (Bindings.placeholder name) :=
    sign.append (word.isNeutral.append sign)
  have kept : replaceFrom (Bindings.placeholder name) new 0 (r.text ++ back)
      = r.text ++ replaceFrom (Bindings.placeholder name) new 0 back :=
    replaceFrom_of_not_mem (r.not_mem_text rfl (by decide)) _ back
  rw [← kept]
  exact replaceFrom_append neutral.unopened (List.cons_ne_nil _ _) front _

theorem isInfix_replace (inside : r.text <:+: t) {name : String} (word : IsName name.toList)
    (new : Text) : r.text <:+: t.replace (Bindings.placeholder name) new := by
  obtain ⟨front, back, rfl⟩ := inside
  rw [List.append_assoc, replace_split word]
  exact ⟨_, _, List.append_assoc ..⟩

/-- A reference stays outside the literal at the start if values without quotes are put in. -/
theorem Outside.replace (outside : r.Outside t) {name : String} (word : IsName name.toList)
    {new : Text} (unquoted : IsUnquoted new) :
    r.Outside (t.replace (Bindings.placeholder name) new) := by
  obtain ⟨front, back, rfl, closed⟩ := outside
  have old_unquoted : IsUnquoted (Bindings.placeholder name) := by
    refine ⟨List.cons_ne_nil _ _, ?_⟩
    have sign : ∀ c ∈ ['%'], c ≠ '"' ∧ c ≠ '\\' := List.forall_mem_singleton.2 (by decide)
    exact List.forall_mem_cons.2 ⟨by decide, List.forall_mem_append.2 ⟨word.isUnquoted.2, sign⟩⟩
  refine ⟨_, _, replace_split word new front back, fun x start => ?_⟩
  cases front with
  | nil => cases start
  | cons c front =>
    cases found : after? false (Bindings.placeholder name) (c :: front) with
    | none =>
      rw [replaceFrom_cons found] at start
      obtain ⟨rfl, rfl⟩ := List.cons.inj start
      exact isSome_literalFrom?_replaceFrom old_unquoted unquoted (by decide) (closed front rfl)
    | some rest =>
      obtain same : c :: front = Bindings.placeholder name ++ rest := after?_false_iff.1 found
      obtain ⟨d, tail, rfl⟩ := List.exists_cons_of_ne_nil unquoted.1
      rw [same, replaceFrom_append_self old_unquoted.1] at start
      exact absurd (List.cons.inj start).1 (unquoted.2 d (List.mem_cons_self ..)).1

end Qualified

/-! ### Literals -/

namespace Form

theorem IsNumeral.isNeutral {number : Text} (numeral : IsNumeral number) : IsNeutral number :=
  isNeutral_of (p := fun c => Text.isDigit c || c == '.')
    (fun c mem => by simpa using numeral.chars c mem) rfl

/-- A number in front of the end of an expression is neutral. -/
theorem isNeutral_of_number {sign number tail : Text} {a : Option String}
    (either : sign = [] ∨ sign = ['-']) (numeral : IsNumeral number)
    (ending : ending? tail = some a) : IsNeutral (sign ++ (number ++ tail)) := by
  have behind := numeral.isNeutral.append (isNeutral_of_ending? ending)
  rcases either with rfl | rfl
  · exact behind
  · exact behind.cons (by decide)

variable {r : Qualified} {t : Text}

/-- **A text is no literal** if a reference stands in it behind the literal it starts with. -/
theorem literal?_of_outside (outside : r.Outside t) : literal? t = none := by
  cases found : literal? t with
  | none => rfl
  | some l =>
    exfalso
    obtain ⟨front, back, same, closed⟩ := outside
    obtain ⟨rest, ending, ⟨sign, number, -, either, numeral, rfl⟩ | ⟨contents, behind, -, rfl, read⟩⟩ :=
      exists_of_literal? found
    · have neutral := isNeutral_of_number either numeral ending
      exact neutral.unopened (same ▸ by simp [Qualified.text])
    · have neutral := isNeutral_of_ending? ending
      cases front with
      | nil => cases (List.cons.inj same).1
      | cons c front =>
        obtain ⟨rfl, rfl⟩ := List.cons.inj same
        obtain ⟨⟨contents', rest'⟩, closed⟩ := Option.isSome_iff_exists.1 (closed front rfl)
        have whole := literalFrom?_append closed (r.text ++ back)
        obtain ⟨-, rfl⟩ := Prod.mk.inj (Option.some.inj (read.symm.trans whole))
        exact neutral.unopened (by simp [Qualified.text])

/-- A reference in a literal stands in the contents of a string. -/
theorem isInfix_of_literal? {l : Literal} {a : Option String} (found : literal? t = some (l, a))
    (inside : r.text <:+: t) : ∃ contents, l = .string contents ∧ r.text <:+: contents := by
  obtain ⟨rest, ending, ⟨sign, number, -, either, numeral, rfl⟩ | ⟨contents, behind, rfl, rfl, read⟩⟩ :=
    exists_of_literal? found
  · exact absurd (isNeutral_of_number either numeral ending)
      (Qualified.not_isNeutral_of_isInfix inside)
  · have neutral := isNeutral_of_ending? ending
    obtain ⟨rfl, -⟩ := exists_of_literalFrom? (by decide) read
    have behind : r.text <:+: contents ++ '"' :: rest := by
      rcases Qualified.isInfix_cut (x := []) inside r.quote_not_mem_text with nothing | behind
      · exact absurd (List.forall_mem_nil _) (Qualified.not_isNeutral_of_isInfix nothing)
      · exact behind
    rcases Qualified.isInfix_cut behind r.quote_not_mem_text with inside | tail
    · exact ⟨contents, rfl, inside⟩
    · exact absurd neutral (Qualified.not_isNeutral_of_isInfix tail)

theorem unescape_cons {c : Char} (other : c ≠ '\\') (t : Text) :
    unescape (c :: t) = c :: unescape t := by
  simp [unescape, other]

theorem unescape_append {x : Text} (plain : '\\' ∉ x) (y : Text) :
    unescape (x ++ y) = x ++ unescape y := by
  induction x with
  | nil => rfl
  | cons c x ih =>
    have other : c ≠ '\\' := fun same => plain (same ▸ List.mem_cons_self ..)
    rw [List.cons_append, unescape_cons other, ih fun mem => plain (List.mem_cons_of_mem c mem),
      List.cons_append]

/-- Unescaping leaves references as they are: at most the brace of one is escaped. -/
theorem isInfix_unescape (inside : r.text <:+: t) : r.text <:+: unescape t := by
  obtain ⟨front, back, rfl⟩ := inside
  have plain : '\\' ∉ r.text := r.not_mem_text rfl (by decide)
  rw [List.append_assoc]
  induction size : front.length using Nat.strong_induction_on generalizing front with
  | h n ih =>
    subst size
    have later : ∀ {c : Char} {z : Text}, r.text <:+: z → r.text <:+: c :: z :=
      fun inside => inside.trans (List.suffix_cons _ _).isInfix
    cases front with
    | nil =>
      exact ⟨[], unescape back, by rw [List.nil_append, List.nil_append, unescape_append plain]⟩
    | cons c front =>
      by_cases backslash : c = '\\'
      · subst backslash
        cases front with
        | nil =>
          have escaped : unescape ('\\' :: (r.text ++ back)) = r.text ++ unescape back :=
            unescape_append plain back
          exact ⟨[], unescape back, by rw [List.nil_append, List.singleton_append, escaped]⟩
        | cons d front =>
          have shorter : front.length < ('\\' :: d :: front).length := by
            simp only [List.length_cons]
            omega
          exact later (ih front.length shorter front rfl)
      · rw [List.cons_append, unescape_cons backslash]
        exact later (ih front.length (Nat.lt_succ_self _) front rfl)

end Form

/-! ### Substitution -/

namespace Bindings

/-- The names are words. -/
def IsNamed (b : Bindings) : Prop :=
  ∀ pair ∈ b.values, IsName pair.1.toList

/-- What the values put in holds neither quotes nor backslashes, and is not empty. -/
def IsUnquoted (b : Bindings) : Prop :=
  ∀ pair ∈ b.values, Text.IsUnquoted pair.2.literal

variable {b : Bindings} (named : b.IsNamed) {r : Qualified} {t : Text}
include named

/-- **References are kept where values are put in.** -/
theorem isInfix_substitute (inside : r.text <:+: t) : r.text <:+: b.substitute t := by
  obtain ⟨values⟩ := b
  induction values generalizing t with
  | nil => exact inside
  | cons pair values ih =>
    have replaced := Qualified.isInfix_replace inside (named pair (List.mem_cons_self ..))
      pair.2.literal
    exact ih replaced fun other mem => named other (List.mem_cons_of_mem pair mem)

/-- **Values without quotes put no reference into a literal.** -/
theorem outside_substitute (unquoted : b.IsUnquoted) (outside : r.Outside t) :
    r.Outside (b.substitute t) := by
  obtain ⟨values⟩ := b
  induction values generalizing t with
  | nil => exact outside
  | cons pair values ih =>
    have replaced := outside.replace (named pair (List.mem_cons_self ..))
      (unquoted pair (List.mem_cons_self ..))
    exact ih replaced (fun other mem => named other (List.mem_cons_of_mem pair mem))
      fun other mem => unquoted other (List.mem_cons_of_mem pair mem)

end Bindings

end RecordMapper
