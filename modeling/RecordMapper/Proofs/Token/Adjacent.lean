import RecordMapper.Proofs.Token.Places
import RecordMapper.Proofs.Token.SpacedRun

/-!
Separators with nothing but blanks between them.

A separator takes the spaces around its word with it. So of two words that share a single space only
the first is found, and the second is left as a text; between two that have more blanks between them
nothing is left. Either way **the words are tokens next to one another** (`Separation.run_adjacent`),
if the second has a space of its own. The same holds of a word behind which only blanks follow
(`Separation.run_trailing`), and of one with only blanks before it (`Tokenizer.Splits.run_gap`).
-/

namespace RecordMapper

open Text

namespace Tokenizer

variable {t : Tokenizer} {inner : Text → List Token}

/-- Between spaces, the word `x` as it is written is found, and becomes the token `a`. -/
structure Splits (t : Tokenizer) (a x : Text) : Prop where
  nonempty : x ≠ []
  plain : IsPlainWord x
  found : ∀ seen rest, t.firstMatch? (' ' :: (x.reverse ++ ' ' :: seen)) rest
    = some (.split seen.reverse [.flat (' ' :: (a ++ [' ']))] 0)
  flat : t.flat (' ' :: (a ++ [' '])) = [.text a]
  passes : ∀ (inner : Text → List Token) (seen rest : Text), (∀ c ∈ seen.head?, c = ' ') →
    t.Passes inner seen x (' ' :: rest)

variable {a x : Text} (splits : t.Splits a x)
include splits

theorem Splits.isTrimmed : IsTrimmed x :=
  ⟨splits.nonempty, fun c mem => (splits.plain c (List.mem_of_head? mem)).1,
    fun c mem => (splits.plain c (List.mem_of_getLast? mem)).1⟩

/-- The word alone, with blanks behind it, is a token as it is written. -/
theorem Splits.flat_alone (trims : t.trim = true) {gap : Text}
    (blank : ∀ c ∈ gap, isBlank c = true) : t.flat (x ++ ' ' :: gap) = [.text x] := by
  have space : isBlank ' ' = true := rfl
  have found : t.flat ([] ++ (x ++ ' ' :: gap)) = [.text x] :=
    flat_of_blanks trims splits.isTrimmed nofun (List.forall_mem_cons.2 ⟨space, blank⟩)
  exact found

/-- Behind a space that was read, the word ends what was read before it. -/
theorem Splits.run_spaced (seen rest : Text) :
    t.run inner (' ' :: seen) .read (x ++ ' ' :: rest)
      = t.flat seen.reverse ++ .text a :: t.run inner [] .read rest := by
  have passed := splits.passes inner (' ' :: seen) rest (by simp)
  rw [Passes] at passed
  rw [passed, run_read_cons, splits.found]
  simp [ofPiece, splits.flat, run_drop_zero]

/-- So it does behind blanks, if nothing or a blank was read before them. -/
theorem Splits.run_gap (inner : Text → List Token) {s : Separation}
    (layout : t.symbols = s.symbols) (wordy : s.IsWordy) {seen gap : Text}
    (settled : ∀ c ∈ seen.head?, isBlank c = true) (blank : ∀ c ∈ gap, isBlank c = true) (rest : Text) :
    t.run inner seen .read (gap ++ ' ' :: (x ++ ' ' :: rest))
      = t.flat (seen.reverse ++ gap) ++ .text a :: t.run inner [] .read rest := by
  have blanks : ∀ c ∈ gap ++ [' '], isBlank c = true := by
    intro c mem
    rcases List.mem_append.1 mem with here | last
    · exact blank c here
    · rw [List.mem_singleton.1 last]
      rfl
  have passed : t.Passes inner seen (gap ++ [' ']) (x ++ ' ' :: rest) :=
    Separation.passes_blanks layout wordy settled blanks _
  have split : gap ++ ' ' :: (x ++ ' ' :: rest) = gap ++ [' '] ++ (x ++ ' ' :: rest) := by simp
  have reversed : (gap ++ [' ']).reverse ++ seen = ' ' :: (gap.reverse ++ seen) := by simp
  rw [split, passed, reversed, splits.run_spaced]
  simp

end Tokenizer

namespace Separation

variable {s : Separation} {t : Tokenizer}

/-- A word of letters splits in any letter case, if all separators are words between spaces and no
other one ends like it. -/
theorem splits (layout : t.symbols = s.symbols) (closed : s.closed = true) (trims : t.trim = true)
    (caseless : s.ignoreCase = true) {w k : Text} (mem : ' ' :: (w ++ [' ']) ∈ s.separators)
    (letters : ∀ a ∈ w, a.isAlpha = true) (nonempty : w ≠ [])
    (other : sameLetters caseKeyword w = false)
    (others : ∀ separator ∈ s.separators, ∃ other, separator = ' ' :: (other ++ [' '])
      ∧ (other = w ∨ diverges false true other.reverse w.reverse = true))
    (spelled : sameLetters w k = true) : t.Splits w k := by
  have all := sameLetters_iff.1 spelled
  have plain : ∀ {x : Text}, (∀ c ∈ x, isAsciiWord c = true) → IsPlainWord x := by
    intro x word c mem
    refine ⟨isBlank_of_isAsciiWord (word c mem), ?_⟩
    rintro rfl
    cases word _ mem
  have word := isAsciiWord_of_mem_of_agree letters all
  have word' := isAsciiWord_of_mem_of_agree letters 
    (List.forall₂_same.2 fun a _ => by simp [agree])
  refine ⟨?_, plain word, firstMatch?_word layout caseless mem spelled others, ?_, ?_⟩
  · rintro rfl
    exact nonempty (List.length_eq_zero_iff.1 all.length_eq)
  · exact flat_separator trims nonempty (plain word') (.inr rfl)
  · intro inner seen rest start
    refine passes_word layout closed word ?_ fun same => ?_
    · intro c mem
      rw [start c mem]
      rfl
    · rw [← sameLetters_congr spelled, other] at same
      cases same

/-- What was read ends in a space and a word that separates. -/
def EndsInWord (s : Separation) (seen : Text) : Prop :=
  ∃ y front, s.IsWord y ∧ seen = y.reverse ++ ' ' :: front

theorem EndsInWord.append {seen : Text} (ends : s.EndsInWord seen) (before : Text) :
    s.EndsInWord (seen ++ before) := by
  obtain ⟨y, front, word, rfl⟩ := ends
  exact ⟨y, front ++ before, word, by simp⟩

variable (layout : t.symbols = s.symbols) (wordy : s.IsWordy) (trims : t.trim = true)
  (inner : Text → List Token) {seen : Text}

include wordy trims in
/-- No separator is left out of the tokens. -/
theorem flat_ne_nil {separator : Text} (mem : separator ∈ s.separators) : t.flat separator ≠ [] := by
  obtain ⟨w, nonempty, plain, shape⟩ := wordy separator mem
  rw [flat_separator trims nonempty plain shape]
  exact List.cons_ne_nil _ _

include layout wordy trims

/-- A space is passed, or it belongs to a separator whose word was read. -/
theorem run_space (seen rest : Text) :
    t.Passes inner seen [' '] rest
      ∨ s.EndsInWord seen ∧ ∃ front, front ≠ []
        ∧ t.run inner seen .read (' ' :: rest) = front ++ t.run inner [] .read rest := by
  have blank : isBlank ' ' = true := rfl
  have matched := firstMatch?_blank layout blank seen rest
  cases found : t.firstMatch? (' ' :: seen) rest with
  | none => exact .inl (Tokenizer.passes_of_firstMatch?_eq_none found)
  | some m =>
    rw [found] at matched
    obtain ⟨separator, mem, found'⟩ := List.exists_of_findSome?_eq_some matched.symm
    have written := flat_ne_nil wordy trims mem
    obtain ⟨w, nonempty, plain, rfl | rfl⟩ := wordy separator mem
    · rw [match?_blank nonempty plain blank] at found'
      cases found'
    rw [match?_spaced, if_pos rfl] at found'
    obtain ⟨before, after, rfl⟩ := Option.map_eq_some_iff.1 found'
    obtain ⟨behind, word, space⟩ := Option.bind_eq_some_iff.1 after
    obtain ⟨x, all, rfl⟩ := after?_eq_some_iff.1 word
    obtain ⟨_, single, rfl⟩ := after?_eq_some_iff.1 space
    cases single with
    | cons same none =>
      cases none
      obtain rfl := eq_of_agree rfl same
      refine .inr ⟨⟨x.reverse, before, ⟨w, mem, ?_⟩, by simp⟩, t.flat before.reverse
        ++ t.flat (' ' :: (w ++ [' '])), by simp [written], ?_⟩
      · simpa using List.forall₂_reverse_iff.2 all
      · rw [Tokenizer.run_read_cons, found]
        simp [Tokenizer.ofPiece, Tokenizer.run_drop_zero]

/-- Behind a word that was read from the start of a token, a space is passed. -/
theorem passes_space_of_plain {x : Text} (plain : IsPlainWord x) (rest : Text) :
    t.Passes inner x.reverse [' '] rest := by
  rcases run_space layout wordy trims inner x.reverse rest with passes | ⟨⟨y, front, -, split⟩, -⟩
  · exact passes
  · have mem : ' ' ∈ x.reverse := by rw [split]; simp
    have solid := (plain ' ' (List.mem_reverse.1 mem)).1
    cases solid

variable {a b x y gap : Text} (first : t.Splits a x)
include first

/-- **A word between spaces becomes a token**, or it stays where it is because the space before it
belongs to another word. -/
theorem run_word (seen rest : Text) :
    t.run inner seen .read (' ' :: (x ++ ' ' :: rest))
        = t.flat seen.reverse ++ .text a :: t.run inner [] .read rest
      ∨ s.EndsInWord seen ∧ ∃ front, front ≠ []
        ∧ t.run inner seen .read (' ' :: (x ++ ' ' :: rest))
          = front ++ t.run inner (' ' :: x.reverse) .read rest := by
  rcases run_space layout wordy trims inner seen (x ++ ' ' :: rest) with
    passes | ⟨ends, front, more, run⟩
  · exact .inl (Eq.trans passes (first.run_spaced seen rest))
  · have word : t.Passes inner [] x (' ' :: rest) := first.passes inner [] rest nofun
    have space := passes_space_of_plain layout wordy trims inner first.plain rest
    rw [Tokenizer.Passes] at word space
    rw [List.append_nil] at word
    refine .inr ⟨ends, front, more, ?_⟩
    rw [run, word]
    exact congrArg (front ++ ·) space

/-- **Two words with nothing but blanks between them are tokens next to one another**, if each has
spaces of its own. The first is a text as it is written, if the space before it belongs to another
word. -/
theorem run_adjacent (second : t.Splits b y) (blank : ∀ c ∈ gap, isBlank c = true)
    (seen rest : Text) :
    ∃ front z, t.run inner seen .read (' ' :: (x ++ ' ' :: (gap ++ ' ' :: (y ++ ' ' :: rest))))
        = front ++ .text z :: .text b :: t.run inner [] .read rest
      ∧ (z = a ∨ z = x ∧ s.EndsInWord seen)
      ∧ ((∃ c ∈ seen, isBlank c = false) → front ≠ []) := by
  rcases run_word layout wordy trims inner first seen (gap ++ ' ' :: (y ++ ' ' :: rest)) with
    run | ⟨ends, front, more, run⟩
  · refine ⟨t.flat seen.reverse, a, ?_, .inl rfl, ?_⟩
    · rw [run, second.run_gap inner layout wordy (by simp) blank, List.reverse_nil, List.nil_append,
        Tokenizer.flat_eq_nil trims (trim_eq_nil_iff.2 blank)]
      rfl
    · rintro ⟨c, mem, solid⟩
      exact Tokenizer.flat_ne_nil_of_mem trims (List.mem_reverse.2 mem) solid
  · refine ⟨front, x, ?_, .inr ⟨rfl, ends⟩, fun _ => more⟩
    rw [run, second.run_gap inner layout wordy (by simp [isBlank]) blank]
    simp [first.flat_alone trims blank]

/-- **A word with nothing but blanks behind it is the last token.** -/
theorem run_trailing (blank : ∀ c ∈ gap, isBlank c = true) (seen : Text) :
    ∃ front z, t.run inner seen .read (' ' :: (x ++ ' ' :: gap)) = front ++ [.text z]
      ∧ (z = a ∨ z = x) := by
  rcases run_word layout wordy trims inner first seen gap with run | ⟨-, front, -, run⟩
  · have passed : t.Passes inner [] gap [] := passes_blanks layout wordy (by simp) blank []
    refine ⟨t.flat seen.reverse, a, ?_, .inl rfl⟩
    rw [run, Tokenizer.run_last passed, List.reverse_nil, List.nil_append,
      Tokenizer.flat_eq_nil trims (trim_eq_nil_iff.2 blank)]
  · have passed : t.Passes inner (' ' :: x.reverse) gap [] :=
      passes_blanks layout wordy (by simp [isBlank]) blank []
    refine ⟨front, x, ?_, .inr rfl⟩
    rw [run, Tokenizer.run_last passed]
    simp [first.flat_alone trims blank]

/-! ### At a free place -/

variable (closed : s.closed = true) {l rest : Text}
include closed

/-- At a free place a word with a space of its own on each side is a token. -/
theorem exists_word_of_isFree (own : ¬ s.EndsInWord l.reverse)
    (free : IsFree l.reverse (' ' :: (x ++ ' ' :: rest))) :
    ∃ front, t.run inner [] .read (l ++ ' ' :: (x ++ ' ' :: rest))
        = front ++ .text a :: t.run inner [] .read rest
      ∧ ((∃ c ∈ l, isBlank c = false) → front ≠ []) := by
  obtain ⟨tokens, buffer, before, whole, begins, -, run⟩ :=
    run_of_isFree layout closed (fun _ => flat_ne_nil wordy trims) free inner
  rw [List.reverse_reverse] at run
  rcases run_word layout wordy trims inner first buffer rest with run' | ⟨ends, -⟩
  · refine ⟨tokens ++ t.flat buffer.reverse, by rw [run, run', List.append_assoc], ?_⟩
    rintro ⟨c, mem, solid⟩
    cases before with
    | nil =>
      rw [begins.1 rfl, ← List.append_nil buffer, ← whole, List.reverse_reverse]
      exact Tokenizer.flat_ne_nil_of_mem trims mem solid
    | cons d before =>
      have begun : tokens ≠ [] := mt begins.2 (List.cons_ne_nil _ _)
      simp [begun]
  · exact absurd (whole ▸ ends.append before) own

/-- **At a free place two words with nothing but blanks between them are tokens next to one
another.** -/
theorem exists_adjacent_of_isFree (second : t.Splits b y) (blank : ∀ c ∈ gap, isBlank c = true)
    (free : IsFree l.reverse (' ' :: (x ++ ' ' :: (gap ++ ' ' :: (y ++ ' ' :: rest))))) :
    ∃ front z, t.run inner [] .read (l ++ ' ' :: (x ++ ' ' :: (gap ++ ' ' :: (y ++ ' ' :: rest))))
        = front ++ .text z :: .text b :: t.run inner [] .read rest
      ∧ (z = a ∨ z = x ∧ s.EndsInWord l.reverse)
      ∧ ((∃ c ∈ l, isBlank c = false) → front ≠ []) := by
  obtain ⟨tokens, buffer, before, whole, begins, -, run⟩ :=
    run_of_isFree layout closed (fun _ => flat_ne_nil wordy trims) free inner
  obtain ⟨front, z, run', word, more⟩ :=
    run_adjacent layout wordy trims inner first second blank buffer rest
  rw [List.reverse_reverse] at run
  refine ⟨tokens ++ front, z, ?_, ?_, ?_⟩
  · rw [run, run', List.append_assoc]
  · rcases word with rfl | ⟨rfl, ends⟩
    · exact .inl rfl
    · exact .inr ⟨rfl, whole ▸ ends.append before⟩
  · rintro ⟨c, mem, solid⟩
    cases before with
    | nil =>
      rw [List.append_nil] at whole
      rw [begins.1 rfl]
      exact more ⟨c, whole ▸ List.mem_reverse.2 mem, solid⟩
    | cons d before =>
      have begun : tokens ≠ [] := mt begins.2 (List.cons_ne_nil _ _)
      simp [begun]

/-- **At a free place a word with nothing but blanks behind it is the last token.** -/
theorem exists_trailing_of_isFree (blank : ∀ c ∈ gap, isBlank c = true)
    (free : IsFree l.reverse (' ' :: (x ++ ' ' :: gap))) :
    ∃ front z, t.run inner [] .read (l ++ ' ' :: (x ++ ' ' :: gap)) = front ++ [.text z]
      ∧ (z = a ∨ z = x) := by
  obtain ⟨tokens, buffer, -, -, -, -, run⟩ :=
    run_of_isFree layout closed (fun _ => flat_ne_nil wordy trims) free inner
  obtain ⟨front, z, run', word⟩ := run_trailing layout wordy trims inner first blank buffer
  rw [List.reverse_reverse] at run
  exact ⟨tokens ++ front, z, by rw [run, run', List.append_assoc], word⟩

end Separation

end RecordMapper
