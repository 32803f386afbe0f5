import RecordMapper.Proofs.Text.Linked
import RecordMapper.Proofs.Token.Span
import RecordMapper.Query.Tokens

/-!
What the tokenizers of the query language pass over.

All of them keep literals, case distinctions and parenthesized text whole and split at separators; a
`Separation` says at which. A tokenizer passes over a text if it makes it part of the current token
(`Tokenizer.Passes`). **It passes over linked texts** (`Separation.passes_linked`), if none of the
separators can be read from a blank between two solid texts and the operator there, which is checked
on the operators and the endings of solid texts (`Separation.passesOver`).
-/

namespace RecordMapper

open Text

/-! ### Flat tokens -/

namespace Tokenizer

variable {t : Tokenizer}

theorem flat_nil : t.flat [] = [] := by
  unfold flat
  split <;> rfl

theorem flat_eq_nil (trims : t.trim = true) {x : Text} (empty : Text.trim x = []) :
    t.flat x = [] := by
  rw [flat, trims, if_pos rfl, empty]
  rfl

theorem flat_ne_nil_of_mem (trims : t.trim = true) {x : Text} {c : Char} (mem : c ∈ x)
    (solid : isBlank c = false) : t.flat x ≠ [] := by
  simp only [flat, trims, if_true, isEmpty_trim_eq_false mem solid]
  exact List.cons_ne_nil _ _

theorem exists_of_flat (t : Tokenizer) (x : Text) : t.flat x = [] ∨ ∃ y, t.flat x = [.text y] := by
  unfold flat
  by_cases empty : (if t.trim then Text.trim x else x).isEmpty = true
  · exact .inl (if_pos empty)
  · exact .inr ⟨_, if_neg empty⟩

theorem mem_flat {x : Text} {token : Token} (mem : token ∈ t.flat x) : ∃ y, token = .text y := by
  rcases t.exists_of_flat x with none | ⟨y, one⟩
  · rw [none] at mem
    cases mem
  · rw [one] at mem
    exact ⟨y, List.mem_singleton.1 mem⟩

/-- Blanks around a trimmed text do not matter. -/
theorem flat_of_blanks (trims : t.trim = true) {x front back : Text} (trimmed : IsTrimmed x)
    (blank : ∀ c ∈ front, isBlank c = true) (blank' : ∀ c ∈ back, isBlank c = true) :
    t.flat (front ++ (x ++ back)) = [.text x] := by
  have nonempty := trimmed.isEmpty_eq_false
  rw [flat, trims, if_pos rfl, trimmed.trim_append blank blank']
  simp only [nonempty]
  rfl

theorem flat_append (trims : t.trim = true) {x front : Text} (trimmed : IsTrimmed x)
    (blank : ∀ c ∈ front, isBlank c = true) : t.flat (front ++ x) = [.text x] := by
  have found : t.flat (front ++ (x ++ [])) = [.text x] :=
    flat_of_blanks trims trimmed blank nofun
  rwa [List.append_nil] at found

theorem flat_trimmed (trims : t.trim = true) {x : Text} (trimmed : IsTrimmed x) :
    t.flat x = [.text x] := by
  have found : t.flat ([] ++ x) = [.text x] := flat_append trims trimmed nofun
  exact found

end Tokenizer

/-! ### Passing -/

namespace Tokenizer

variable {t : Tokenizer} {inner : Text → List Token} {seen : Text}

/-- In front of the rest, the text becomes part of the current token. -/
def Passes (t : Tokenizer) (inner : Text → List Token) (seen x rest : Text) : Prop :=
  t.run inner seen .read (x ++ rest) = t.run inner (x.reverse ++ seen) .read rest

theorem Passes.nil (rest : Text) : t.Passes inner seen [] rest :=
  rfl

theorem Passes.append {x y rest : Text} (first : t.Passes inner seen x (y ++ rest))
    (second : t.Passes inner (x.reverse ++ seen) y rest) : t.Passes inner seen (x ++ y) rest := by
  unfold Passes at first second ⊢
  rw [List.append_assoc, first, second, List.reverse_append, List.append_assoc]

theorem Passes.cons {c : Char} {x rest : Text} (first : t.Passes inner seen [c] (x ++ rest))
    (second : t.Passes inner (c :: seen) x rest) : t.Passes inner seen (c :: x) rest :=
  first.append second

/-- A text whose characters are each passed by themselves is passed. -/
theorem Passes.of_each {x : Text} (each : ∀ c ∈ x, ∀ seen rest, t.Passes inner seen [c] rest)
    (rest : Text) : t.Passes inner seen x rest := by
  induction x generalizing seen with
  | nil => exact .nil rest
  | cons c x ih =>
    obtain ⟨first, others⟩ := List.forall_mem_cons.1 each
    exact .cons (first seen _) (ih others)

theorem run_read_cons (c : Char) (rest : Text) :
    t.run inner seen .read (c :: rest)
      = match t.firstMatch? (c :: seen) rest with
        | none => t.run inner (c :: seen) .read rest
        | some (.extend consumed) => t.run inner (c :: seen) (.draw consumed) rest
        | some (.split before pieces consumed) =>
          t.flat before ++ pieces.flatMap (t.ofPiece inner)
            ++ t.run inner [] (.drop consumed) rest :=
  rfl

/-- A character behind which no symbol is recognized becomes part of the current token. -/
theorem passes_of_firstMatch?_eq_none {c : Char} {rest : Text}
    (none : t.firstMatch? (c :: seen) rest = none) : t.Passes inner seen [c] rest := by
  show t.run inner seen .read (c :: rest) = t.run inner (c :: seen) .read rest
  rw [run_read_cons, none]

theorem run_drop_zero (rest : Text) :
    t.run inner seen (.drop 0) rest = t.run inner seen .read rest := by
  cases rest <;> rfl

/-- What belongs to the current token is read as far as there is text. -/
theorem run_draw_take (n : Nat) (rest : Text) :
    t.run inner seen (.draw n) rest
      = t.run inner ((rest.take n).reverse ++ seen) .read (rest.drop n) := by
  induction rest generalizing n seen with
  | nil => cases n <;> rfl
  | cons c rest ih =>
    cases n with
    | zero => rfl
    | succ n =>
      have step : t.run inner seen (.draw (n + 1)) (c :: rest)
          = t.run inner (c :: seen) (.draw n) rest := rfl
      rw [step, ih, List.take_succ_cons, List.drop_succ_cons, List.reverse_cons, List.append_assoc]
      rfl

theorem run_drop_take (n : Nat) (rest : Text) :
    t.run inner seen (.drop n) rest = t.run inner seen .read (rest.drop n) := by
  induction rest generalizing n with
  | nil => cases n <;> rfl
  | cons c rest ih =>
    cases n with
    | zero => rfl
    | succ n => exact ih n

theorem run_draw (x rest : Text) :
    t.run inner seen (.draw x.length) (x ++ rest) = t.run inner (x.reverse ++ seen) .read rest := by
  rw [run_draw_take, List.take_left, List.drop_left]

theorem run_drop (x rest : Text) :
    t.run inner seen (.drop x.length) (x ++ rest) = t.run inner seen .read rest := by
  rw [run_drop_take, List.drop_left]

/-- A group is left out with the parenthesis that closes it. -/
theorem run_drop_closed (contents rest : Text) :
    t.run inner seen (.drop (contents.length + 1)) (contents ++ ')' :: rest)
      = t.run inner seen .read rest := by
  have drop := @run_drop t inner seen (contents ++ [')']) rest
  simpa using drop

/-- The text of an inline span becomes part of the current token as a whole. -/
theorem passes_of_extend {c : Char} {x rest : Text}
    (extend : t.firstMatch? (c :: seen) (x ++ rest) = some (.extend x.length)) :
    t.Passes inner seen (c :: x) rest := by
  show t.run inner seen .read (c :: (x ++ rest)) = _
  rw [run_read_cons, extend]
  simp only [run_draw]
  simp

/-- What is passed up to the end of the text is the last token. -/
theorem run_last {x : Text} (passes : t.Passes inner seen x []) :
    t.run inner seen .read x = t.flat (seen.reverse ++ x) := by
  have passed : t.run inner seen .read (x ++ []) = t.run inner (x.reverse ++ seen) .read [] :=
    passes
  rw [List.append_nil] at passed
  rw [passed, run, List.reverse_append, List.reverse_reverse]

end Tokenizer

/-! ### Matches -/

namespace Symbol

/-- An inline span that is opened and closed is taken whole. -/
theorem match?_of_close? {s : Span} (inline : s.interior = .inline)
    (free : ∀ before behind, s.guard before behind = true) {seen before x contents rest : Text}
    (opened : s.openAtEnd? seen (x ++ rest) = some before)
    (closed : s.close? (x ++ rest) = some (contents, rest)) :
    match? seen (x ++ rest) (.span s) = some (.extend x.length) := by
  have consumed : (x ++ rest).length - rest.length = x.length := by
    rw [List.length_append]
    omega
  simp only [match?, opened, closed, free, if_true, inline, consumed]

/-- A span that is recognized was opened, is closed and may be taken. -/
theorem exists_of_span {s : Span} {seen rest : Text} {m : Match}
    (found : match? seen rest (.span s) = some m) :
    ∃ before contents behind, s.openAtEnd? seen rest = some before
      ∧ s.close? rest = some (contents, behind) ∧ s.guard before behind = true
      ∧ m = match s.interior with
        | .inline => .extend (rest.length - behind.length)
        | _ => .split before (pieces s contents) (rest.length - behind.length) := by
  rw [match?] at found
  split at found
  · cases found
  · rename_i before opened
    split at found
    · cases found
    · rename_i contents behind closed
      split at found
      · rename_i free
        exact ⟨before, contents, behind, opened, closed, free, (Option.some.inj found).symm⟩
      · cases found

/-- An inline span that is recognized becomes part of the token around it. -/
theorem exists_of_match? {s : Span} (inline : s.interior = .inline) {seen rest : Text} {m : Match}
    (found : match? seen rest (.span s) = some m) :
    ∃ before contents behind, s.openAtEnd? seen rest = some before
      ∧ s.close? rest = some (contents, behind)
      ∧ m = .extend (rest.length - behind.length) := by
  obtain ⟨before, contents, behind, opened, closed, -, rfl⟩ := exists_of_span found
  rw [inline]
  exact ⟨before, contents, behind, opened, closed, rfl⟩

theorem match?_eq_none_of_openAtEnd? {s : Span} {seen rest : Text}
    (closed : s.openAtEnd? seen rest = none) : match? seen rest (.span s) = none := by
  rw [match?, closed]

theorem literal_match?_eq_none {separator seen : Text} {ignoreCase : Bool}
    (missed : after? ignoreCase separator.reverse seen = none) (rest : Text) :
    match? seen rest (.literal separator ignoreCase) = none := by
  rw [match?, missed]
  split <;> rfl

/-- A separator that is recognized was read last. -/
theorem exists_of_literal {separator seen rest : Text} {ignoreCase : Bool} {m : Match}
    (found : match? seen rest (.literal separator ignoreCase) = some m) :
    ∃ before, after? ignoreCase separator.reverse seen = some before
      ∧ m = .split before.reverse [.flat separator] 0 := by
  rw [match?] at found
  split at found
  · cases found
  · obtain ⟨before, after, same⟩ := Option.map_eq_some_iff.1 found
    exact ⟨before, after, same.symm⟩

end Symbol

namespace Span

theorem openAtEnd?_eq_none {s : Span} {seen : Text}
    (missed : after? s.keyword s.opening.reverse seen = none) (rest : Text) :
    s.openAtEnd? seen rest = none := by
  rw [openAtEnd?, missed]
  split <;> rfl

/-- In front of the rest, an open parenthesis is closed behind the contents. -/
def Encloses (contents rest : Text) : Prop :=
  ∀ {s : Span}, s.IsParenthesized → s.close? (contents ++ ')' :: rest) = some (contents, rest)

theorem encloses_of_balanced {contents : Text} (balanced : Balanced contents) (rest : Text) :
    Encloses contents rest :=
  fun parenthesized => parenthesized.close?_append balanced rest

/-- A delimiter of one character is found where it was read. -/
theorem openAtEnd?_cons {s : Span} (keyword : s.keyword = false) {c : Char}
    (opening : s.opening = [c]) (seen rest : Text) :
    s.openAtEnd? (c :: seen) rest = some seen.reverse := by
  simp [openAtEnd?, keyword, opening, after?, agree]

end Span

/-! ### Separations -/

/-- How a tokenizer divides a text: it takes groups of conditions out or not, and splits at
separators. -/
structure Separation where
  groups : Bool
  separators : List Text
  ignoreCase : Bool

namespace Separation

/-- The symbols of a tokenizer that divides a text like this. -/
def symbols (s : Separation) : List Symbol :=
  [.stringLiteral, .caseDistinction] ++ (if s.groups then [Connected.group] else [])
    ++ [.parentheses] ++ s.separators.map fun separator => .literal separator s.ignoreCase

/-- The text read so far, given whole or by its last characters, does not end in anything that opens
a span or separates. -/
def misses (s : Separation) (whole : Bool) (seen : Text) : Bool :=
  diverges whole false ['"'] seen && diverges whole true caseKeyword.reverse seen
    && diverges whole false ['('] seen
    && s.separators.all fun separator => diverges whole s.ignoreCase separator.reverse seen

/-- No part of the text, behind what was read so far, ends in anything that opens a span or
separates. -/
def passesOver (s : Separation) (whole : Bool) : (seen : Text) → Text → Bool
  | _, [] => true
  | seen, c :: t => s.misses whole (c :: seen) && s.passesOver whole (c :: seen) t

/-- All separators end in a space or a comma. -/
def closed (s : Separation) : Bool :=
  s.separators.all fun separator => separator.getLast?.any fun c => c == ' ' || c == ','

section Matching

variable {s : Separation} {t : Tokenizer} (layout : t.symbols = s.symbols)
  {inner : Text → List Token} {seen : Text}
include layout

/-- The symbols are asked in order. -/
theorem firstMatch?_eq (rest : Text) :
    t.firstMatch? seen rest
      = (Symbol.stringLiteral.match? seen rest).or
          ((Symbol.caseDistinction.match? seen rest).or
            ((if s.groups then Connected.group.match? seen rest else none).or
              ((Symbol.parentheses.match? seen rest).or
                (s.separators.findSome? fun separator =>
                  (Symbol.literal separator s.ignoreCase).match? seen rest)))) := by
  have groups : (if s.groups then [Connected.group] else []).findSome? (Symbol.match? seen rest)
      = if s.groups then Connected.group.match? seen rest else none := by
    cases s.groups with
    | false => rfl
    | true => simp
  rw [Tokenizer.firstMatch?, layout, symbols, List.findSome?_append, List.findSome?_append,
    List.findSome?_append, groups, List.findSome?_map, Option.or_assoc, Option.or_assoc]
  simp only [List.findSome?_cons, List.findSome?_nil, Function.comp_def]
  cases Symbol.stringLiteral.match? seen rest <;> cases Symbol.caseDistinction.match? seen rest <;>
    cases Symbol.parentheses.match? seen rest <;> rfl

omit layout in
theorem caseDistinction_match?_eq_none {rest : Text}
    (closed : ∀ before, after? true caseKeyword.reverse seen = some before →
      standsAlone before.head? rest.head? = false) :
    Symbol.caseDistinction.match? seen rest = none := by
  apply Symbol.match?_eq_none_of_openAtEnd?
  cases found : after? true caseKeyword.reverse seen with
  | none => exact Span.openAtEnd?_eq_none found rest
  | some before =>
    simp [Span.openAtEnd?, found, closed before found]

omit layout in
theorem parentheses_match?_eq_none (closed : after? false ['('] seen = none) (rest : Text) :
    Symbol.parentheses.match? seen rest = none :=
  Symbol.match?_eq_none_of_openAtEnd? (Span.openAtEnd?_eq_none closed rest)

omit layout in
theorem group_match?_eq_none (closed : after? false ['('] seen = none) (rest : Text) :
    Connected.group.match? seen rest = none :=
  Symbol.match?_eq_none_of_openAtEnd? (Span.openAtEnd?_eq_none closed rest)

omit layout in
theorem stringLiteral_match?_eq_none (closed : after? false ['"'] seen = none) (rest : Text) :
    Symbol.stringLiteral.match? seen rest = none :=
  Symbol.match?_eq_none_of_openAtEnd? (Span.openAtEnd?_eq_none closed rest)

/-- No symbol is recognized behind a text that ends in no delimiter. -/
theorem firstMatch?_eq_none {rest : Text} (quote : after? false ['"'] seen = none)
    (distinction : ∀ before, after? true caseKeyword.reverse seen = some before →
      standsAlone before.head? rest.head? = false)
    (parenthesis : after? false ['('] seen = none)
    (separators : ∀ separator ∈ s.separators,
      after? s.ignoreCase separator.reverse seen = none) : t.firstMatch? seen rest = none := by
  have missed : (s.separators.findSome? fun separator =>
      (Symbol.literal separator s.ignoreCase).match? seen rest) = none := by
    rw [List.findSome?_eq_none_iff]
    intro separator mem
    exact Symbol.literal_match?_eq_none (separators separator mem) rest
  rw [firstMatch?_eq layout, stringLiteral_match?_eq_none quote,
    caseDistinction_match?_eq_none distinction, group_match?_eq_none parenthesis,
    parentheses_match?_eq_none parenthesis, missed]
  cases s.groups <;> rfl

/-- What was read so far misses every symbol. -/
theorem firstMatch?_eq_none_of_misses {whole : Bool} {front : Text}
    (misses : s.misses whole front = true) (all : whole = true → seen = []) (rest : Text) :
    t.firstMatch? (front ++ seen) rest = none := by
  simp only [Separation.misses, Bool.and_eq_true, List.all_eq_true] at misses
  obtain ⟨⟨⟨quote, distinction⟩, parenthesis⟩, separators⟩ := misses
  apply firstMatch?_eq_none layout
  · exact after?_append_of_diverges quote all
  · intro before found
    rw [after?_append_of_diverges distinction all] at found
    cases found
  · exact after?_append_of_diverges parenthesis all
  · intro separator mem
    exact after?_append_of_diverges (separators separator mem) all

/-- **What ends in nothing that a symbol recognizes is passed.** -/
theorem passes_of_passesOver {whole : Bool} {front x : Text}
    (passesOver : s.passesOver whole front x = true) (all : whole = true → seen = [])
    (rest : Text) : t.Passes inner (front ++ seen) x rest := by
  induction x generalizing front with
  | nil => exact .nil rest
  | cons c x ih =>
    rw [Separation.passesOver, Bool.and_eq_true] at passesOver
    obtain ⟨first, others⟩ := passesOver
    have missed := firstMatch?_eq_none_of_misses layout first all (x ++ rest)
    exact .cons (Tokenizer.passes_of_firstMatch?_eq_none missed) (ih others)

/-! ### Groups of conditions -/

omit layout in
/-- No group stands behind anything but blanks. -/
theorem isGroup_of_mem {before : Text} {c : Char} (mem : c ∈ before) (other : isBlank c = false)
    (behind : Text) : Connected.isGroup before behind = false := by
  rw [Connected.isGroup, isEmpty_trim_eq_false mem other, Bool.false_and]

/-- The infix is trimmed, and no connector. -/
def separatesGroups (k : Text) : Bool :=
  k.head?.any (fun c => !isBlank c)
    && [BoolOp.and, BoolOp.or].all fun op => diverges false true op.keyword (k ++ [' '])

omit layout in
/-- No group stands in front of an operator. -/
theorem isGroup_of_separates {k : Text} (separates : separatesGroups k = true)
    (before rest : Text) : Connected.isGroup before (' ' :: (k ++ ' ' :: rest)) = false := by
  simp only [separatesGroups, Bool.and_eq_true, List.all_eq_true] at separates
  obtain ⟨start, connectors⟩ := separates
  obtain ⟨c, k, rfl⟩ : ∃ c k', k = c :: k' := by
    cases k with
    | nil => cases start
    | cons c k => exact ⟨c, k, rfl⟩
  have trimmed : trimStart (' ' :: (c :: k ++ ' ' :: rest)) = c :: k ++ [' '] ++ rest := by
    have other : isBlank c = false := by simpa using start
    have space : isBlank ' ' = true := rfl
    simp [trimStart, space, other]
  have missed : Connected.startsConnector (c :: k ++ [' '] ++ rest) = false := by
    rw [Connected.startsConnector, List.any_eq_false]
    intro op mem
    rw [after?_append_of_diverges (connectors op mem) (fun whole => by cases whole)]
    exact Bool.false_ne_true
  rw [Connected.isGroup, trimmed, missed]
  simp

/-! ### Characters and words -/

/-- No separator ends in the character, and none of the marks that open a span. -/
def IsPlain (c : Char) : Prop :=
  c ≠ '"' ∧ c ≠ '(' ∧ c ≠ ' ' ∧ c ≠ ','

omit layout in
theorem isPlain_of_isAsciiWord {c : Char} (word : isAsciiWord c = true) : IsPlain c := by
  refine ⟨?_, ?_, ?_, ?_⟩
  all_goals
    rintro rfl
    cases word

variable (closed : s.closed = true)
include closed

omit layout in
theorem after?_separator_eq_none {c : Char} (plain : IsPlain c) {separator : Text}
    (mem : separator ∈ s.separators) (seen : Text) :
    after? s.ignoreCase separator.reverse (c :: seen) = none := by
  have last := List.all_eq_true.1 closed separator mem
  rw [← List.head?_reverse] at last
  cases reversed : separator.reverse with
  | nil =>
    rw [reversed] at last
    cases last
  | cons d start =>
    rw [reversed] at last
    have mark : d = ' ' ∨ d = ',' := by simpa using last
    rcases mark with rfl | rfl
    · exact after?_cons_eq_none rfl plain.2.2.1.symm start seen
    · exact after?_cons_eq_none rfl plain.2.2.2.symm start seen

/-- Behind a plain character only a case distinction can be recognized. -/
theorem firstMatch?_of_plain {c : Char} (plain : IsPlain c) (rest : Text) :
    t.firstMatch? (c :: seen) rest = Symbol.caseDistinction.match? (c :: seen) rest := by
  have quote : after? false ['"'] (c :: seen) = none := after?_cons_eq_none rfl plain.1.symm [] seen
  have parenthesis : after? false ['('] (c :: seen) = none :=
    after?_cons_eq_none rfl plain.2.1.symm [] seen
  have missed : (s.separators.findSome? fun separator =>
      (Symbol.literal separator s.ignoreCase).match? (c :: seen) rest) = none := by
    rw [List.findSome?_eq_none_iff]
    intro separator mem
    exact Symbol.literal_match?_eq_none (after?_separator_eq_none closed plain mem seen) rest
  rw [firstMatch?_eq layout, stringLiteral_match?_eq_none quote, group_match?_eq_none parenthesis,
    parentheses_match?_eq_none parenthesis, missed, ite_self]
  cases Symbol.caseDistinction.match? (c :: seen) rest <;> rfl

/-- A plain character is passed, if no keyword that opens a case distinction ends in it. -/
theorem passes_plain {c : Char} (plain : IsPlain c) {rest : Text}
    (distinction : ∀ before, after? true caseKeyword.reverse (c :: seen) = some before →
      standsAlone before.head? rest.head? = false) : t.Passes inner seen [c] rest := by
  apply Tokenizer.passes_of_firstMatch?_eq_none
  rw [firstMatch?_of_plain layout closed plain, caseDistinction_match?_eq_none distinction]

/-- A plain character that is not the last letter of the keyword is passed. -/
theorem passes_unlike {c : Char} (plain : IsPlain c) (other : agree true 'E' c = false)
    (rest : Text) : t.Passes inner seen [c] rest := by
  refine passes_plain layout closed plain ?_
  intro before found
  have missed : after? true caseKeyword.reverse (c :: seen) = none := by
    rw [show caseKeyword.reverse = 'E' :: ['S', 'A', 'C'] from rfl, after?,
      if_neg (ne_true_of_eq_false other)]
  rw [missed] at found
  cases found

/-- A plain character that is no letter is passed. -/
theorem passes_mark {c : Char} (plain : IsPlain c) (other : c.isAlpha = false) (rest : Text) :
    t.Passes inner seen [c] rest := by
  refine passes_unlike layout closed plain (Bool.eq_false_iff.2 fun same => ?_) rest
  rw [isAlpha_of_agree rfl same] at other
  cases other

theorem passes_marks {x : Text} (marks : ∀ c ∈ x, IsPlain c ∧ c.isAlpha = false) (rest : Text) :
    t.Passes inner seen x rest :=
  .of_each (fun c mem _ rest => passes_mark layout closed (marks c mem).1 (marks c mem).2 rest) rest

/-- A word is passed, if it is not the keyword of a case distinction that stands alone. -/
theorem passes_word {w rest : Text} (word : ∀ c ∈ w, isAsciiWord c = true)
    (start : ∀ c ∈ seen.head?, isAsciiWord c = false)
    (other : sameLetters caseKeyword w = true → standsAlone seen.head? rest.head? = false) :
    t.Passes inner seen w rest := by
  -- the induction is on what is still ahead of the word
  have ahead : ∀ ahead read, w = read ++ ahead →
      t.Passes inner (read.reverse ++ seen) ahead rest := by
    intro ahead
    induction ahead with
    | nil =>
      intro read _
      exact .nil rest
    | cons c ahead ih =>
      intro read split
      have letter : isAsciiWord c = true := word c (by simp [split])
      have others := ih (read ++ [c]) (by simp [split])
      rw [List.reverse_append] at others
      refine .cons (passes_plain layout closed ?_ ?_) others
      · exact isPlain_of_isAsciiWord letter
      · intro before found
        have whole : w = (read ++ [c]) ++ ahead := by simp [split]
        have stood : after? true caseKeyword.reverse ((read ++ [c]).reverse ++ seen)
            = some before := by
          rwa [List.reverse_append]
        exact not_standsAlone_of_word letters_caseKeyword (whole ▸ word) (whole ▸ other) start
          stood
  exact ahead w [] rfl

/-! ### Spans -/

omit closed

/-- A literal is passed as a whole. -/
theorem passes_literal (u rest : Text) :
    t.Passes inner seen ('"' :: (escapeQuoted u ++ ['"'])) rest := by
  apply Tokenizer.passes_of_extend
  have matched : Symbol.stringLiteral.match? ('"' :: seen) (escapeQuoted u ++ ['"'] ++ rest)
      = some (.extend (escapeQuoted u ++ ['"']).length) := by
    refine @Symbol.match?_of_close? _ rfl (fun _ _ => rfl) _ _ _ (escapeQuoted u) _
      (Span.openAtEnd?_cons rfl rfl seen _) ?_
    rw [List.append_assoc]
    exact Span.IsLiteral.close?_append ⟨rfl, rfl, rfl, rfl, rfl⟩ u rest
  rw [firstMatch?_eq layout, matched]
  rfl

omit layout in
/-- Parenthesized text where no group may stand is not taken for one. -/
theorem group_match?_of_not_isGroup {contents rest : Text} (encloses : Span.Encloses contents rest)
    (blocked : Connected.isGroup seen.reverse rest = false) :
    Connected.group.match? ('(' :: seen) (contents ++ [')'] ++ rest) = none := by
  have closed : Span.close? { opening := ['('], closing := [')'], interior := .recursive
                              quote := Byte.ofAscii '"', guard := Connected.isGroup }
      (contents ++ ')' :: rest) = some (contents, rest) :=
    encloses ⟨rfl, rfl, rfl, rfl, rfl⟩
  rw [List.append_assoc, List.singleton_append, Connected.group, Symbol.match?,
    Span.openAtEnd?_cons rfl rfl, closed]
  simp [blocked]

/-- Parenthesized text is passed as a whole, if it is not taken out as a group of conditions. -/
theorem passes_parenthesized {contents rest : Text} (encloses : Span.Encloses contents rest)
    (blocked : s.groups = true → Connected.isGroup seen.reverse rest = false) :
    t.Passes inner seen ('(' :: (contents ++ [')'])) rest := by
  apply Tokenizer.passes_of_extend
  have matched : Symbol.parentheses.match? ('(' :: seen) (contents ++ [')'] ++ rest)
      = some (.extend (contents ++ [')']).length) := by
    refine @Symbol.match?_of_close? _ rfl (fun _ _ => rfl) _ _ _ contents _
      (Span.openAtEnd?_cons rfl rfl seen _) ?_
    rw [List.append_assoc]
    exact encloses ⟨rfl, rfl, rfl, rfl, rfl⟩
  have notGroup : (if s.groups then
      Connected.group.match? ('(' :: seen) (contents ++ [')'] ++ rest) else none) = none := by
    split
    · rename_i groups
      exact group_match?_of_not_isGroup encloses (blocked groups)
    · rfl
  have noCase : ∀ before, after? true caseKeyword.reverse ('(' :: seen) = some before →
      standsAlone before.head? (contents ++ [')'] ++ rest).head? = false := by
    intro before found
    cases found
  rw [firstMatch?_eq layout, stringLiteral_match?_eq_none (by rfl),
    caseDistinction_match?_eq_none noCase, notGroup, matched]
  rfl

/-- A case distinction is passed as a whole, with its first keyword in any letter case. -/
theorem passes_distinction (closed : s.closed = true) {opening x contents rest : Text}
    (opens : sameLetters caseKeyword opening = true)
    (alone : standsAlone seen.head? (x ++ rest).head? = true)
    (closes : ∀ {s : Span}, s.IsCase → s.close? (x ++ rest) = some (contents, rest)) :
    t.Passes inner seen (opening ++ x) rest := by
  have all := sameLetters_iff.1 opens
  have read : ∀ before, after? true caseKeyword.reverse (opening.reverse ++ before)
      = some before := by
    intro before
    exact after?_eq_some_iff.2 ⟨opening.reverse, List.forall₂_reverse_iff.2 all, rfl⟩
  rcases all with _ | ⟨first, _ | ⟨second, _ | ⟨third, _ | ⟨fourth, ⟨⟩⟩⟩⟩⟩
  rename_i c a d e
  have letter : ∀ {k b : Char} (rest seen : Text), k.isAlpha = true → agree true k b = true →
      agree true 'E' k = false → t.Passes inner seen [b] rest := by
    intro k b rest seen alpha same differ
    exact passes_unlike layout closed (isPlain_of_isAsciiWord (isAsciiWord_of_agree alpha same))
      ((agree_congr same 'E').symm.trans differ) rest
  refine .cons (letter _ _ rfl first rfl) (.cons (letter _ _ rfl second rfl)
    (.cons (letter _ _ rfl third rfl) (Tokenizer.passes_of_extend ?_)))
  have found := read seen
  have quote : after? false ['"'] (e :: d :: a :: c :: seen) = none := by
    refine after?_cons_eq_none rfl ?_ [] _
    exact (isPlain_of_isAsciiWord (isAsciiWord_of_agree rfl fourth)).1.symm
  have matched : Symbol.caseDistinction.match? (e :: d :: a :: c :: seen) (x ++ rest)
      = some (.extend x.length) := by
    refine @Symbol.match?_of_close? _ rfl (fun _ _ => rfl) _ seen.reverse _ contents _ ?_
      (closes ⟨rfl, rfl, rfl, rfl, rfl⟩)
    have opened : after? true caseKeyword.reverse (e :: d :: a :: c :: seen) = some seen := found
    rw [Span.openAtEnd?, opened, if_neg (by simp [caseKeyword])]
    exact if_pos alone
  have recognized : t.firstMatch? (e :: d :: a :: c :: seen) (x ++ rest)
      = some (.extend x.length) := by
    rw [firstMatch?_eq layout, stringLiteral_match?_eq_none quote, matched]
    rfl
  exact recognized

theorem passes_case (closed : s.closed = true) {body rest : Text} (balanced : Balanced body)
    (clear : ClearBefore seen.head?) (behind : ClearBehind rest) :
    t.Passes inner seen (caseKeyword ++ ' ' :: (body ++ ' ' :: endKeyword)) rest := by
  have split : ' ' :: (body ++ ' ' :: endKeyword) ++ rest
      = ' ' :: (body ++ [' ']) ++ endKeyword ++ rest := by simp
  have alone : standsAlone seen.head? (' ' :: (body ++ ' ' :: endKeyword) ++ rest).head? = true :=
    standsAlone_of_clear clear (clearBehind_cons rfl _)
  have closes : ∀ {s : Span}, s.IsCase → s.close? (' ' :: (body ++ ' ' :: endKeyword) ++ rest)
      = some (' ' :: (body ++ [' ']), rest) := by
    intro s distinction
    rw [split]
    exact distinction.close?_append balanced behind
  exact passes_distinction layout closed rfl alone closes

/-! ### Solid and linked texts -/

/-- A reference is passed between its braces, also if a name in it is a keyword. -/
theorem passes_reference (closed : s.closed = true) {u : Text} (reference : IsReference u)
    (rest : Text) : t.Passes inner ('\x7b' :: seen) u ('\x7d' :: rest) := by
  have start : ∀ c ∈ ('\x7b' :: seen : Text).head?, isAsciiWord c = false := by
    rintro c ⟨⟩
    rfl
  rcases reference with word | ⟨table, name, table_word, name_word, rfl⟩
  · exact passes_word layout closed word.2 start fun _ => rfl
  · refine .append (passes_word layout closed table_word.2 start fun _ => rfl) ?_
    refine .cons (passes_mark layout closed (by simp [IsPlain]) rfl _) ?_
    refine passes_word layout closed name_word.2 ?_ fun _ => ?_
    · rintro c ⟨⟩
      rfl
    · simp [standsAlone, mayFollowKeyword]

/-- **A solid text is passed**, if keywords may stand on both sides of it and it is not a group of
conditions. -/
theorem passes_solid (closed : s.closed = true) {x rest : Text} (solid : Solid x)
    (clear : ClearBefore seen.head?) (behind : ClearBehind rest)
    (blocked : s.groups = true → Connected.isGroup seen.reverse rest = false) :
    t.Passes inner seen x rest := by
  have digit_mark : ∀ {c : Char}, c.isDigit = true → IsPlain c ∧ c.isAlpha = false := by
    intro c digit
    exact ⟨isPlain_of_isAsciiWord (isAsciiWord_of_isDigit digit), not_isAlpha_of_isDigit digit⟩
  cases solid with
  | digits _ digits =>
    exact passes_marks layout closed (fun c mem => digit_mark (digits c mem)) rest
  | negative _ digits =>
    refine passes_marks layout closed (fun c mem => ?_) rest
    rcases List.mem_cons.1 mem with rfl | mem
    · exact ⟨by simp [IsPlain], rfl⟩
    · exact digit_mark (digits c mem)
  | field reference =>
    refine .cons (passes_mark layout closed (by simp [IsPlain]) rfl _) ?_
    refine .append (passes_reference layout closed reference rest) ?_
    exact passes_mark layout closed (by simp [IsPlain]) rfl rest
  | literal u => exact passes_literal layout u rest
  | @call name contents identifier other balanced =>
    refine .append (passes_word layout closed identifier.word.2 clear.not_isAsciiWord ?_) ?_
    · intro same
      exact absurd (.inl same) other
    · refine passes_parenthesized layout (Span.encloses_of_balanced balanced rest) fun _ => ?_
      obtain ⟨c, name, rfl⟩ := List.exists_cons_of_ne_nil identifier.word.1
      have letter := identifier.word.2 c (List.mem_cons_self ..)
      exact isGroup_of_mem (c := c) (by simp) (isBlank_of_isAsciiWord letter) rest
  | group balanced =>
    exact passes_parenthesized layout (Span.encloses_of_balanced balanced rest) blocked
  | case balanced _ => exact passes_case layout closed balanced clear behind

/-- Nothing is recognized between solid texts with one of the infixes between them, and no group of
conditions stands in front of one. -/
def passesInfixes (s : Separation) (infixes : List Text) : Bool :=
  infixes.all fun k =>
    (!s.groups || separatesGroups k)
      && endings.all fun e => s.passesOver false e (' ' :: (k ++ [' ']))

theorem passes_between {infixes : List Text} (passes : s.passesInfixes infixes = true) {k x : Text}
    (mem : k ∈ infixes) (ending : HasEnding x) (seen rest : Text) :
    t.Passes inner (x.reverse ++ seen) (' ' :: (k ++ [' '])) rest := by
  obtain ⟨e, ending_mem, front, same⟩ := ending
  have checked := List.all_eq_true.1 passes k mem
  rw [Bool.and_eq_true, List.all_eq_true] at checked
  rw [same, List.append_assoc]
  exact passes_of_passesOver layout (checked.2 e ending_mem) (fun whole => by cases whole) rest

/-- A solid text is passed behind an infix and what is passed before that. -/
theorem passes_next (closed : s.closed = true) {infixes : List Text}
    (passes : s.passesInfixes infixes = true) {x k y rest : Text} (mem : k ∈ infixes)
    (ending : HasEnding x) (front : t.Passes inner seen x (' ' :: (k ++ ' ' :: y) ++ rest))
    (back : Solid y) (behind : ClearBehind rest) :
    t.Passes inner seen (x ++ ' ' :: (k ++ ' ' :: y)) rest := by
  have split : ' ' :: (k ++ ' ' :: y) = ' ' :: (k ++ [' ']) ++ y := by simp
  rw [split] at front ⊢
  refine front.append (.append (passes_between layout passes mem ending seen _) ?_)
  obtain ⟨c, mem_x, other⟩ := ending.exists_mem
  refine passes_solid layout closed back ?_ behind fun _ => isGroup_of_mem (c := c) ?_ other rest
  · rw [← List.cons_append, List.reverse_append]
    exact clearBefore_some rfl
  · simp [mem_x]

/-- **Linked texts with an operator between them are passed**, whatever they start with: the
operator shows that this is no group of conditions. -/
theorem passes_link (closed : s.closed = true) {infixes : List Text}
    (passes : s.passesInfixes infixes = true) {x k y rest : Text} (linked : Linked infixes x)
    (mem : k ∈ infixes) (back : Solid y) (clear : ClearBefore seen.head?)
    (behind : ClearBehind rest) :
    t.Passes inner seen (x ++ ' ' :: (k ++ ' ' :: y)) rest := by
  induction linked generalizing k y rest with
  | solid solid =>
    refine passes_next layout closed passes mem solid.ending ?_ back behind
    refine passes_solid layout closed solid clear (clearBehind_cons rfl _) fun groups => ?_
    have checked := List.all_eq_true.1 passes k mem
    rw [groups, Bool.and_eq_true] at checked
    have blocked := isGroup_of_separates checked.1 seen.reverse (y ++ rest)
    simpa using blocked
  | link front mem' back' ih =>
    refine passes_next layout closed passes mem (Linked.link front mem' back').ending ?_ back behind
    exact ih mem' back' (clearBehind_cons rfl _)

theorem passes_chained (closed : s.closed = true) {infixes : List Text}
    (passes : s.passesInfixes infixes = true) {x rest : Text} (chained : Chained infixes x)
    (clear : ClearBefore seen.head?) (behind : ClearBehind rest) : t.Passes inner seen x rest := by
  cases chained with
  | link front mem back => exact passes_link layout closed passes front mem back clear behind

/-- **Linked texts are passed**, where no group of conditions may stand. -/
theorem passes_linked (closed : s.closed = true) {infixes : List Text}
    (passes : s.passesInfixes infixes = true) {x rest : Text} (linked : Linked infixes x)
    (clear : ClearBefore seen.head?) (behind : ClearBehind rest)
    (blocked : s.groups = true → Connected.isGroup seen.reverse rest = false) :
    t.Passes inner seen x rest := by
  cases linked with
  | solid solid => exact passes_solid layout closed solid clear behind blocked
  | link front mem back => exact passes_link layout closed passes front mem back clear behind

/-! ### Separators -/

omit layout in
/-- Behind what was read so far, the separator is recognized at its last character and nothing is
before that. -/
def splitsAt (s : Separation) (whole : Bool) (seen separator : Text) : Bool :=
  s.passesOver whole seen separator.dropLast
    && diverges whole false ['"'] (separator.reverse ++ seen)
    && diverges whole true caseKeyword.reverse (separator.reverse ++ seen)
    && diverges whole false ['('] (separator.reverse ++ seen)
    && s.separators.all fun other =>
      other == separator || diverges whole s.ignoreCase other.reverse (separator.reverse ++ seen)

omit layout in
/-- The first member with a result is the only one. -/
theorem findSome?_of_mem {α β : Type} {f : α → Option β} {l : List α} {a : α} {b : β} (mem : a ∈ l)
    (found : f a = some b) (others : ∀ x ∈ l, x = a ∨ f x = none) : l.findSome? f = some b := by
  cases first : l.findSome? f with
  | none => rw [List.findSome?_eq_none_iff.1 first a mem] at found; cases found
  | some b' =>
    obtain ⟨front, x, back, rfl, result, -⟩ := List.findSome?_eq_some_iff.1 first
    rcases others x (by simp) with rfl | missed
    · rw [← found, ← result]
    · rw [missed] at result
      cases result

/-- The separator that was read is the one recognized. -/
theorem firstMatch?_of_splitsAt {whole : Bool} {front separator : Text} (nonempty : separator ≠ [])
    (mem : separator ∈ s.separators) (splits : s.splitsAt whole front separator = true)
    (all : whole = true → seen = []) (rest : Text) :
    t.firstMatch? (separator.reverse ++ (front ++ seen)) rest
      = some (.split (front ++ seen).reverse [.flat separator] 0) := by
  simp only [splitsAt, Bool.and_eq_true, List.all_eq_true, Bool.or_eq_true, beq_iff_eq] at splits
  obtain ⟨⟨⟨⟨-, quote⟩, distinction⟩, parenthesis⟩, others⟩ := splits
  have missed : ∀ {ignoreCase : Bool} {start : Text},
      diverges whole ignoreCase start (separator.reverse ++ front) = true →
        after? ignoreCase start (separator.reverse ++ (front ++ seen)) = none := by
    intro ignoreCase start differ
    rw [← List.append_assoc]
    exact after?_append_of_diverges differ all
  have noCase : ∀ before,
      after? true caseKeyword.reverse (separator.reverse ++ (front ++ seen)) = some before →
        standsAlone before.head? rest.head? = false := by
    intro before found
    rw [missed distinction] at found
    cases found
  have found : (s.separators.findSome? fun other =>
      (Symbol.literal other s.ignoreCase).match? (separator.reverse ++ (front ++ seen)) rest)
      = some (.split (front ++ seen).reverse [.flat separator] 0) := by
    refine findSome?_of_mem mem ?_ ?_
    · rw [Symbol.match?, after?_append, if_neg]
      · rfl
      · simpa using nonempty
    · intro other mem
      rcases others other mem with same | differ
      · exact .inl same
      · exact .inr (Symbol.literal_match?_eq_none (missed differ) rest)
  rw [firstMatch?_eq layout, stringLiteral_match?_eq_none (missed quote),
    caseDistinction_match?_eq_none noCase, group_match?_eq_none (missed parenthesis),
    parentheses_match?_eq_none (missed parenthesis), found]
  cases s.groups <;> rfl

theorem run_separator_of_splitsAt {whole : Bool} {front separator : Text}
    (nonempty : separator ≠ []) (mem : separator ∈ s.separators)
    (splits : s.splitsAt whole front separator = true) (all : whole = true → seen = [])
    (rest : Text) :
    t.run inner (front ++ seen) .read (separator ++ rest)
      = t.flat (front ++ seen).reverse ++ t.flat separator ++ t.run inner [] .read rest := by
  have recognized := firstMatch?_of_splitsAt layout nonempty mem splits all rest
  have start : s.passesOver whole front separator.dropLast = true := by
    simp only [splitsAt, Bool.and_eq_true] at splits
    exact splits.1.1.1.1
  obtain ⟨letters, c, rfl⟩ := (List.eq_nil_or_concat separator).resolve_left nonempty
  rw [List.concat_eq_append] at *
  rw [List.dropLast_concat] at start
  have passed : t.Passes inner (front ++ seen) letters (c :: rest) :=
    passes_of_passesOver layout start all (c :: rest)
  rw [List.reverse_append] at recognized
  have step : t.firstMatch? (c :: (letters.reverse ++ (front ++ seen))) rest
      = some (.split (front ++ seen).reverse [.flat (letters ++ [c])] 0) := recognized
  have joined : letters ++ [c] ++ rest = letters ++ c :: rest := by simp
  rw [joined, passed, Tokenizer.run_read_cons, step]
  simp [Tokenizer.ofPiece, Tokenizer.run_drop_zero]

/-- Every separator is recognized at the start of a token and behind a solid text. -/
def divides (s : Separation) : Bool :=
  s.separators.all fun separator =>
    !separator.isEmpty && s.splitsAt true [] separator
      && endings.all fun e => s.splitsAt false e separator

/-- **A separator ends the current token** and becomes one of its own. -/
theorem run_separator (divides : s.divides = true) {separator : Text}
    (mem : separator ∈ s.separators) (ready : seen = [] ∨ HasEnding seen.reverse) (rest : Text) :
    t.run inner seen .read (separator ++ rest)
      = t.flat seen.reverse ++ t.flat separator ++ t.run inner [] .read rest := by
  have checked := List.all_eq_true.1 divides separator mem
  simp only [Bool.and_eq_true, Bool.not_eq_true', List.isEmpty_eq_false_iff, List.all_eq_true]
    at checked
  obtain ⟨⟨nonempty, start⟩, behind⟩ := checked
  rcases ready with rfl | ⟨e, ending, front, same⟩
  · exact run_separator_of_splitsAt layout nonempty mem start (fun _ => rfl) rest
  · rw [List.reverse_reverse] at same
    rw [same]
    exact run_separator_of_splitsAt layout nonempty mem (behind e ending)
      (fun whole => by cases whole) rest

end Matching

/-- What is passed up to a separator is a token. -/
theorem run_piece {s : Separation} {t : Tokenizer} (layout : t.symbols = s.symbols)
    (divides : s.divides = true) {inner : Text → List Token} {seen x separator rest : Text}
    (mem : separator ∈ s.separators) (ending : HasEnding x)
    (passes : t.Passes inner seen x (separator ++ rest)) :
    t.run inner seen .read (x ++ (separator ++ rest))
      = t.flat (seen.reverse ++ x) ++ t.flat separator ++ t.run inner [] .read rest := by
  have ready : HasEnding (x.reverse ++ seen).reverse := by
    rw [List.reverse_append, List.reverse_reverse]
    exact ending.append seen.reverse
  rw [passes, run_separator layout divides mem (.inr ready), List.reverse_append,
    List.reverse_reverse]

end Separation

end RecordMapper
