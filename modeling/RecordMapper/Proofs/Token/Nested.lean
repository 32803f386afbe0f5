import RecordMapper.Proofs.Text.Nested
import RecordMapper.Proofs.Token.SpacedRun

/-!
What closes a span around well-nested text.

The searches for the close of parentheses and of a case distinction are thorough scans: both skip
literals, and each counts the spans of its own kind. So **parentheses are closed behind the
well-nested text in them** (`Span.IsParenthesized.close?_nested`), **and a case distinction behind
its well-nested body** (`Span.IsCase.close?_nested`).
-/

namespace RecordMapper.Span

open Text

/-- The search for the close of a span; `inParens` and `inCase` say what parentheses and case
distinctions do to its depth. -/
def seekScan (s : Span) (inParens inCase : Nat → Nat) : Scan (Option (Text × Text)) where
  read depth before t := seek? s depth 0 false before t
  prepend := prependFound
  inParens := inParens
  inBraces depth := depth
  inCase := inCase

section Search

variable {s : Span} (plain : s.IsPlain) {inParens inCase : Nat → Nat}
include plain

/-- A character with which no delimiter starts is passed. -/
theorem IsPlain.seeks_other {c : Char} (unquoted : c ≠ '"') {before : Option Char} {rest : Text}
    (closing : s.standing? s.closing before (c :: rest) = none)
    (opening : s.standing? s.opening before (c :: rest) = none) (depth : Nat) :
    (s.seekScan inParens inCase).Reads depth before [c] depth rest := by
  have step := plain.seek?_other unquoted closing depth
  rw [opening, if_neg (by simp)] at step
  exact step

theorem IsPlain.seeks_literal (depth : Nat) (before : Option Char) {contents : Text} (rest : Text)
    (closed : literal? (contents ++ ['"']) = some (contents, [])) :
    (s.seekScan inParens inCase).Reads depth before ('"' :: (contents ++ ['"'])) depth rest := by
  have found := plain.seek?_literal closed depth before rest
  rw [Scan.Reads, ← List.cons_append, lastFrom_concat]
  simpa [seekScan] using found

/-- A delimiter that opens another span is passed as a whole. -/
theorem IsPlain.seeks_opening {c : Char} (word : Text) (unquoted : c ≠ '"')
    {before : Option Char} {rest : Text} (differ : s.opening ≠ s.closing)
    (closing : s.standing? s.closing before (c :: (word ++ rest)) = none)
    (opening : s.standing? s.opening before (c :: (word ++ rest)) = some rest)
    (length : s.opening.length - 1 = word.length) (depth : Nat) :
    (s.seekScan inParens inCase).Reads depth before (c :: word) (depth + 1) rest := by
  have step := plain.seek?_other unquoted closing depth
  rw [opening, if_pos ⟨differ, rfl⟩, length, seek?_skip] at step
  exact step

/-- So is one that closes such a span. -/
theorem IsPlain.seeks_closing {c : Char} (word : Text) (unquoted : c ≠ '"')
    {before : Option Char} {rest : Text}
    (closing : s.standing? s.closing before (c :: (word ++ rest)) = some rest)
    (length : s.closing.length - 1 = word.length) (depth : Nat) :
    (s.seekScan inParens inCase).Reads (depth + 1) before (c :: word) depth rest := by
  have step := (plain.seek?_closing unquoted closing).2 depth
  rw [length, seek?_skip] at step
  exact step

/-- **A span is closed behind what its search passes over.** -/
theorem IsPlain.close?_of_reads {c : Char} {inner t rest : Text} (unquoted : c ≠ '"')
    (passed : (s.seekScan inParens inCase).Reads 0 none inner 0 (c :: t))
    (closing : s.standing? s.closing (lastFrom none inner) (c :: t) = some rest) :
    s.close? (inner ++ c :: t) = some (inner, rest) := by
  have stop := (plain.seek?_closing unquoted closing).1
  have found : seek? s 0 0 false none (inner ++ c :: t)
      = inner.foldr prependFound (seek? s 0 0 false (lastFrom none inner) (c :: t)) := passed
  rw [plain.isAscii.close?_eq_seek?, found, stop, foldr_prependFound]
  simp

end Search

/-! ### Parentheses -/

section Parentheses

variable {s : Span} (parenthesized : s.IsParenthesized)
include parenthesized

theorem IsParenthesized.standing?_cons (d : Char) (before : Option Char) (c : Char) (t : Text) :
    s.standing? [d] before (c :: t) = if c = d then some t else none := by
  by_cases same : c = d
  · simp [standing?, parenthesized.keyword, after?, agree, same]
  · simp [standing?, parenthesized.keyword, after?, agree, same, Ne.symm same]

theorem IsParenthesized.seeks_other {c : Char} (other : c ≠ '"' ∧ c ≠ '(' ∧ c ≠ ')')
    (depth : Nat) (before : Option Char) (rest : Text) :
    (s.seekScan (· + 1) id).Reads depth before [c] depth rest := by
  refine parenthesized.isPlain.seeks_other other.1 ?_ ?_ depth
  · rw [parenthesized.closing, parenthesized.standing?_cons, if_neg other.2.2]
  · rw [parenthesized.opening, parenthesized.standing?_cons, if_neg other.2.1]

/-- The letters of a keyword mean nothing to the search. -/
theorem IsParenthesized.seeks_letters {word : Text} (letters : ∀ c ∈ word, c.isAlpha = true)
    (depth : Nat) (before : Option Char) (rest : Text) :
    (s.seekScan (· + 1) id).Reads depth before word depth rest := by
  refine .of_each (fun c mem before rest => ?_) rest
  have inert := (isInert_of_isAlpha (letters c mem)).ne
  exact parenthesized.seeks_other ⟨inert.1, inert.2.1, inert.2.2.1⟩ depth before rest

theorem IsParenthesized.seekScan_thorough : (s.seekScan (· + 1) id).Thorough where
  loose depth before c rest loose _ _ :=
    parenthesized.seeks_other ⟨loose.1, loose.2.1, loose.2.2.1⟩ depth before rest
  literal depth before _ rest closed := parenthesized.isPlain.seeks_literal depth before rest closed
  openParens depth before rest := by
    refine parenthesized.isPlain.seeks_opening [] (by decide) ?_ ?_ ?_ ?_ depth
    · rw [parenthesized.opening, parenthesized.closing]
      decide
    · rw [parenthesized.closing, parenthesized.standing?_cons, if_neg (by decide)]
    · rw [parenthesized.opening, parenthesized.standing?_cons, if_pos rfl]
      rfl
    · rw [parenthesized.opening]
      rfl
  closeParens depth before rest := by
    refine parenthesized.isPlain.seeks_closing [] (by decide) ?_ ?_ depth
    · rw [parenthesized.closing, parenthesized.standing?_cons, if_pos rfl]
      rfl
    · rw [parenthesized.closing]
      rfl
  openBraces := parenthesized.seeks_other (by decide)
  closeBraces := parenthesized.seeks_other (by decide)
  openCase depth before _ rest same _ :=
    parenthesized.seeks_letters (isAlpha_of_forall₂ letters_caseKeyword (sameLetters_iff.1 same))
      depth before rest
  closeCase depth before _ rest same _ :=
    parenthesized.seeks_letters (isAlpha_of_forall₂ letters_endKeyword (sameLetters_iff.1 same))
      depth before rest

/-- **Parentheses are closed behind the well-nested text in them.** -/
theorem IsParenthesized.close?_nested {inner rest : Text}
    (nested : Nested [] none inner (')' :: rest)) :
    s.close? (inner ++ ')' :: rest) = some (inner, rest) := by
  refine parenthesized.isPlain.close?_of_reads (by decide)
    (parenthesized.seekScan_thorough.reads_nested nested fun _ _ => rfl) ?_
  rw [parenthesized.closing, parenthesized.standing?_cons, if_pos rfl]

end Parentheses

/-! ### Case distinctions -/

section Case

variable {s : Span} (distinction : s.IsCase)
include distinction

theorem IsCase.standing?_eq_none {k : Text} {before : Option Char} {t : Text}
    (missed : startsKeyword k before t = false) : s.standing? k before t = none := by
  unfold startsKeyword at missed
  unfold standing?
  rw [distinction.keyword]
  split at missed
  · rename_i found
    rw [found]
    simpa using missed
  · rename_i none
    rw [none]
    rfl

theorem IsCase.standing?_append {k word : Text} (same : sameLetters k word = true)
    {before : Option Char} {rest : Text} (alone : standsAlone before rest.head? = true) :
    s.standing? k before (word ++ rest) = some rest := by
  rw [standing?, distinction.keyword, after?_eq_some_iff.2 ⟨word, sameLetters_iff.1 same, rfl⟩]
  simp [alone]

/-- No keyword starts with a character that is no letter. -/
theorem IsCase.seeks_mark {c : Char} (unquoted : c ≠ '"') (mark : c.isAlpha = false)
    (depth : Nat) (before : Option Char) (rest : Text) :
    (s.seekScan id (· + 1)).Reads depth before [c] depth rest := by
  refine distinction.isPlain.seeks_other unquoted ?_ ?_ depth
  · rw [distinction.closing]
    exact distinction.standing?_eq_none
      (startsKeyword_cons_of_not_isAlpha (by simp [endKeyword]) letters_endKeyword mark rest)
  · rw [distinction.opening]
    exact distinction.standing?_eq_none
      (startsKeyword_cons_of_not_isAlpha (by simp [caseKeyword]) letters_caseKeyword mark rest)

theorem IsCase.seekScan_thorough : (s.seekScan id (· + 1)).Thorough where
  loose depth before c rest loose noCase noEnd := by
    refine distinction.isPlain.seeks_other loose.1 ?_ ?_ depth
    · rw [distinction.closing]
      exact distinction.standing?_eq_none noEnd
    · rw [distinction.opening]
      exact distinction.standing?_eq_none noCase
  literal depth before _ rest closed := distinction.isPlain.seeks_literal depth before rest closed
  openParens := distinction.seeks_mark (by decide) rfl
  closeParens := distinction.seeks_mark (by decide) rfl
  openBraces := distinction.seeks_mark (by decide) rfl
  closeBraces := distinction.seeks_mark (by decide) rfl
  openCase depth before word rest same alone := by
    have stands := distinction.standing?_append same alone
    have length := (sameLetters_iff.1 same).length_eq
    obtain ⟨c, word, rfl, first⟩ := exists_cons_of_sameLetters same
    have letter := isAlpha_of_agree (letters_caseKeyword _ (List.mem_cons_self ..)) first
    refine distinction.isPlain.seeks_opening word (isInert_of_isAlpha letter).ne.1 ?_ ?_ ?_ ?_ depth
    · rw [distinction.opening, distinction.closing]
      decide
    · have lower : 'c' = c.toLower := by simpa [agree] using first
      have differ : ¬ agree true 'E' c = true := by simp [agree, ← lower]
      rw [distinction.closing]
      refine distinction.standing?_eq_none ?_
      rw [startsKeyword, endKeyword, after?, if_neg differ]
    · rw [distinction.opening]
      exact stands
    · rw [distinction.opening, length]
      rfl
  closeCase depth before word rest same alone := by
    have stands := distinction.standing?_append same alone
    have length := (sameLetters_iff.1 same).length_eq
    obtain ⟨c, word, rfl, first⟩ := exists_cons_of_sameLetters same
    have letter := isAlpha_of_agree (letters_endKeyword _ (List.mem_cons_self ..)) first
    refine distinction.isPlain.seeks_closing word (isInert_of_isAlpha letter).ne.1 ?_ ?_ depth
    · rw [distinction.closing]
      exact stands
    · rw [distinction.closing, length]
      rfl

/-- **A case distinction is closed behind its well-nested body**, with its keyword in any letter
case. -/
theorem IsCase.close?_nested {body closing rest : Text}
    (nested : Nested [] none body (closing ++ rest))
    (closes : sameLetters endKeyword closing = true)
    (alone : standsAlone (lastFrom none body) rest.head? = true) :
    s.close? (body ++ (closing ++ rest)) = some (body, rest) := by
  have stands := distinction.standing?_append closes alone
  rw [← distinction.closing] at stands
  obtain ⟨c, more, rfl, first⟩ := exists_cons_of_sameLetters closes
  have letter := isAlpha_of_agree (letters_endKeyword _ (List.mem_cons_self ..)) first
  exact distinction.isPlain.close?_of_reads (isInert_of_isAlpha letter).ne.1
    (distinction.seekScan_thorough.reads_nested nested fun _ _ => rfl) stands

end Case

end RecordMapper.Span
