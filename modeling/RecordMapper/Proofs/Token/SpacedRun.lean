import RecordMapper.Proofs.Token.Spacing

/-!
Tokens of a text that is spaced in two ways.

A separator that stands between spaces is found on both sides or on none if the ends of the gaps
around such a word are spaces on both sides or on none, and the gap between two such words is the
same on both sides or longer than one blank on both (`Separation.Keeps`). So **both sides are divided
into tokens at the same cells** (`Separation.parted_run`).
-/

namespace RecordMapper

open Text

/-! ### Separators -/

namespace Separation

variable {s : Separation}

/-- Every separator is a word, or a word between spaces. -/
def IsWordy (s : Separation) : Prop :=
  ∀ separator ∈ s.separators, ∃ w, w ≠ [] ∧ IsPlainWord w
    ∧ (separator = w ∨ separator = ' ' :: (w ++ [' ']))

/-- The word as it is written separates if it stands between spaces. -/
def IsWord (s : Separation) (x : Text) : Prop :=
  ∃ w, ' ' :: (w ++ [' ']) ∈ s.separators
    ∧ List.Forall₂ (fun a b => agree s.ignoreCase a b = true) w x

/-- There are spaces at the ends of what comes before a word and what follows it. -/
def Opens (before behind : Text) : Prop :=
  before.getLast? = some ' ' ∧ behind.head? = some ' '

instance (before behind : Text) : Decidable (Opens before behind) :=
  inferInstanceAs (Decidable (_ ∧ _))

/-- A word that separates stands between spaces on both sides or on none, and the gap between two
such words is a single blank on both sides or on none. -/
structure Keeps (s : Separation) (P : Spacing) : Prop where
  around : ∀ run x run', s.IsWord x → .gap run :: (Spacing.ofText x ++ [.gap run']) <:+: P →
    (Opens (run .left) (run' .left) ↔ Opens (run .right) (run' .right))
  between : ∀ x run y, s.IsWord x → s.IsWord y →
    Spacing.ofText x ++ (.gap run :: Spacing.ofText y) <:+: P →
    ((run .left).length = 1 ↔ (run .right).length = 1)

theorem Keeps.of_isInfix {P Q : Spacing} (keeps : s.Keeps P) (part : Q <:+: P) : s.Keeps Q where
  around run x run' word inside := keeps.around run x run' word (inside.trans part)
  between x run y word word' inside := keeps.between x run y word word' (inside.trans part)

/-- A word that separates and starts the spacing has spaces around it on both sides or on none. -/
def Starts (s : Separation) (lead : Side → Text) (P : Spacing) : Prop :=
  ∀ x run rest, s.IsWord x → P = Spacing.ofText x ++ .gap run :: rest →
    (Opens (lead .left) (run .left) ↔ Opens (lead .right) (run .right))

/-- **A word has spaces around it on both sides or on none.** -/
theorem opens_iff {lead : Side → Text} {front : Spacing} (rest : Spacing) {x : Text}
    {run : Side → Text}
    (lawful : Spacing.Lawful (front ++ (Spacing.ofText x ++ .gap run :: rest)))
    (keeps : s.Keeps (front ++ (Spacing.ofText x ++ .gap run :: rest)))
    (starts : s.Starts lead (front ++ (Spacing.ofText x ++ .gap run :: rest))) (word : s.IsWord x) :
    Opens (lead .left ++ front.text .left) (run .left)
      ↔ Opens (lead .right ++ front.text .right) (run .right) := by
  rcases List.eq_nil_or_concat front with rfl | ⟨front, cell, rfl⟩
  · simpa [Opens] using starts x run rest word rfl
  · rw [List.concat_eq_append] at lawful keeps ⊢
    have last : ∀ side, (lead side ++ Spacing.text side (front ++ [cell])).getLast?
        = (cell.text side).getLast?.or (lead side ++ Spacing.text side front).getLast? := by
      intro side
      rw [Spacing.text_append, ← List.append_assoc, List.getLast?_append]
      simp
    have holds : cell.Separate := lawful.separate cell (by simp)
    unfold Opens
    simp only [last]
    cases cell with
    | char c =>
      have other : c ≠ ' ' := by
        rintro rfl
        cases holds.1
      simp [Cell.text, other]
    | literal contents =>
      have quote : ('"' :: (contents ++ ['"'])).getLast? = some '"' := by
        rw [← List.cons_append, List.getLast?_concat]
      simp [Cell.text, quote]
    | gap run' =>
      have isRun : IsRun run' := holds
      have part : .gap run' :: (Spacing.ofText x ++ [.gap run])
          <:+: front ++ [.gap run'] ++ (Spacing.ofText x ++ .gap run :: rest) :=
        ⟨front, rest, by simp⟩
      have around := keeps.around run' x run word part
      have own : ∀ side, ((run' side).getLast?.or (lead side ++ Spacing.text side front).getLast?)
          = (run' side).getLast? := by
        intro side
        obtain ⟨init, b, here, -⟩ := isRun.exists_concat side
        simp [here]
      simpa only [Cell.text, own, Opens] using around

/-- Behind a word that separated, what is left of the gap is the start of what follows. -/
theorem starts_tail {x : Text} {run : Side → Text} {rest : Spacing}
    (lawful : Spacing.Lawful (Spacing.ofText x ++ .gap run :: rest))
    (keeps : s.Keeps (Spacing.ofText x ++ .gap run :: rest)) (word : s.IsWord x) :
    s.Starts (fun side => (run side).tail) rest := by
  rintro y run' rest' word' rfl
  have isRun : IsRun run := lawful.separate (.gap run) (by simp)
  have around := keeps.around run y run' word' ⟨Spacing.ofText x, rest', by simp⟩
  have between := keeps.between x run y word word' ⟨[], .gap run' :: rest', by simp⟩
  rcases isRun.single_or_longer between with single | long
  · have none : ∀ side, (run side).tail = [] := by
      intro side
      rw [← List.length_eq_zero_iff, List.length_tail, single]
    simp [Opens, none]
  · have last : ∀ side, (run side).tail.getLast? = (run side).getLast? := by
      intro side
      rw [List.getLast?_tail, if_neg (Nat.ne_of_gt (long side))]
    simpa only [Opens, last] using around

/-! ### Matches of separators -/

theorem after?_space (ignoreCase : Bool) (t : Text) :
    after? ignoreCase [' '] t.reverse
      = if t.getLast? = some ' ' then some t.dropLast.reverse else none := by
  rcases List.eq_nil_or_concat t with rfl | ⟨front, c, rfl⟩
  · rfl
  · rw [List.concat_eq_append, List.reverse_append, List.getLast?_concat, List.dropLast_concat]
    show (if agree ignoreCase ' ' c then some front.reverse else none) = _
    by_cases space : c = ' '
    · subst space
      simp [agree]
    · have differ : agree ignoreCase ' ' c = false := by
        rw [← Bool.not_eq_true]
        exact fun same => space (eq_of_agree rfl same).symm
      simp [differ, space]

/-- A separator between spaces is found at a space behind its word and another space. -/
theorem match?_spaced {w : Text} {ignoreCase : Bool} {b : Char} (seen rest : Text) :
    (Symbol.literal (' ' :: (w ++ [' '])) ignoreCase).match? (b :: seen) rest
      = if b = ' ' then
          ((after? ignoreCase w.reverse seen).bind (after? ignoreCase [' '])).map fun before =>
            .split before.reverse [.flat (' ' :: (w ++ [' ']))] 0
        else none := by
  have reversed : (' ' :: (w ++ [' '])).reverse = ' ' :: (w.reverse ++ [' ']) := by simp
  have nonempty : (' ' :: (w ++ [' '])).isEmpty = false := rfl
  rw [Symbol.match?, nonempty, if_neg Bool.false_ne_true, reversed, after?]
  by_cases space : b = ' '
  · subst space
    have same : agree ignoreCase ' ' ' ' = true := by simp [agree]
    rw [if_pos same, if_pos rfl, after?_append_left]
  · have differ : ¬ agree ignoreCase ' ' b = true :=
      fun same => space (eq_of_agree rfl same).symm
    rw [if_neg differ, if_neg space]
    rfl

/-- A word is not found at a blank. -/
theorem match?_blank {w : Text} (nonempty : w ≠ []) (plain : IsPlainWord w)
    {ignoreCase : Bool} {b : Char} (blank : isBlank b = true) (seen rest : Text) :
    (Symbol.literal w ignoreCase).match? (b :: seen) rest = none := by
  apply Symbol.literal_match?_eq_none
  obtain ⟨front, a, rfl⟩ := (List.eq_nil_or_concat w).resolve_left nonempty
  rw [List.concat_eq_append] at plain ⊢
  have differ := (isVisible_of ignoreCase plain a (by simp)).2 b blank
  rw [List.reverse_append]
  show (if agree ignoreCase a b then _ else none) = none
  rw [differ, if_neg Bool.false_ne_true]

/-- Blanks at the end do not matter to what is left when a text is trimmed. -/
theorem trim_append_blanks {x k : Text} (blank : ∀ c ∈ k, isBlank c = true) :
    Text.trim (x ++ k) = Text.trim x := by
  have back : ∀ y : Text, Text.trimEnd (y ++ k) = Text.trimEnd y := by
    intro y
    have blanks : ∀ c ∈ k.reverse, isBlank c = true := fun c mem => blank c (List.mem_reverse.1 mem)
    rw [trimEnd, trimEnd, List.reverse_append, List.dropWhile_append_of_pos blanks]
  rw [Text.trim, Text.trim]
  by_cases all : ∀ c ∈ x, isBlank c = true
  · have whole : Text.trimStart (x ++ k) = [] :=
      List.dropWhile_eq_nil_iff.2 (List.forall_mem_append.2 ⟨all, blank⟩)
    have part : Text.trimStart x = [] := List.dropWhile_eq_nil_iff.2 all
    rw [whole, part]
  · have more : Text.trimStart x ≠ [] := fun empty => all (List.dropWhile_eq_nil_iff.1 empty)
    have split : Text.trimStart (x ++ k) = Text.trimStart x ++ k := by
      rw [Text.trimStart, List.dropWhile_append, if_neg]
      · rfl
      · simpa [Text.trimStart] using more
    rw [split, back]

theorem exists_findSome? {α β : Type} {l : List α} {f : Side → α → Option β}
    {Good : α → (Side → β) → Prop}
    (each : ∀ a ∈ l, (∀ side, f side a = none) ∨ ∃ g, Good a g ∧ ∀ side, f side a = some (g side)) :
    (∀ side, l.findSome? (f side) = none)
      ∨ ∃ a ∈ l, ∃ g, Good a g ∧ ∀ side, l.findSome? (f side) = some (g side) := by
  induction l with
  | nil => exact .inl fun _ => rfl
  | cons a l ih =>
    obtain ⟨first, others⟩ := List.forall_mem_cons.1 each
    rcases first with missed | ⟨g, good, found⟩
    · simp only [List.findSome?_cons, missed]
      rcases ih others with missed | ⟨a', mem, g, good, found⟩
      · exact .inl missed
      · exact .inr ⟨a', List.mem_cons_of_mem a mem, g, good, found⟩
    · refine .inr ⟨a, List.mem_cons_self .., g, good, fun side => ?_⟩
      rw [List.findSome?_cons, found side]

section Matching

variable {t : Tokenizer} (layout : t.symbols = s.symbols) (wordy : s.IsWordy)
include layout

/-- At a blank only separators are found. -/
theorem firstMatch?_blank {b : Char} (blank : isBlank b = true) (seen rest : Text) :
    t.firstMatch? (b :: seen) rest
      = s.separators.findSome? fun separator =>
          (Symbol.literal separator s.ignoreCase).match? (b :: seen) rest := by
  have other : ∀ {ignoreCase : Bool} {a : Char} (start : Text), isBlank a = false →
      after? ignoreCase (a :: start) (b :: seen) = none := by
    intro ignoreCase a start visible
    refine after?_cons_eq_none' (not_isAlpha_of_isBlank blank) ?_ start seen
    rintro rfl
    rw [visible] at blank
    cases blank
  have distinction : ∀ before, after? true caseKeyword.reverse (b :: seen) = some before →
      standsAlone before.head? rest.head? = false := by
    intro before found
    have none : after? true caseKeyword.reverse (b :: seen) = none := other _ rfl
    rw [none] at found
    cases found
  rw [firstMatch?_eq layout, stringLiteral_match?_eq_none (other [] rfl),
    caseDistinction_match?_eq_none distinction, group_match?_eq_none (other [] rfl),
    parentheses_match?_eq_none (other [] rfl)]
  cases s.groups <;> rfl

/-- A word between spaces is found in any letter case, if all separators are words between spaces and
no other one ends like it. -/
theorem firstMatch?_word (caseless : s.ignoreCase = true) {w k : Text}
    (mem : ' ' :: (w ++ [' ']) ∈ s.separators) (spelled : sameLetters w k = true)
    (others : ∀ separator ∈ s.separators, ∃ other, separator = ' ' :: (other ++ [' '])
      ∧ (other = w ∨ diverges false true other.reverse w.reverse = true)) (seen rest : Text) :
    t.firstMatch? (' ' :: (k.reverse ++ ' ' :: seen)) rest
      = some (.split seen.reverse [.flat (' ' :: (w ++ [' ']))] 0) := by
  have all := List.forall₂_reverse_iff.2 (sameLetters_iff.1 spelled)
  rw [firstMatch?_blank layout rfl, caseless]
  refine findSome?_of_mem mem ?_ ?_
  · have found : after? true w.reverse (k.reverse ++ ' ' :: seen) = some (' ' :: seen) :=
      after?_eq_some_iff.2 ⟨k.reverse, all, rfl⟩
    rw [match?_spaced, if_pos rfl, found]
    rfl
  · intro separator mem
    obtain ⟨other, rfl, rfl | differ⟩ := others separator mem
    · exact .inl rfl
    · rw [diverges_congr all] at differ
      have missed : after? true other.reverse (k.reverse ++ ' ' :: seen) = none :=
        after?_append_of_diverges differ nofun
      right
      rw [match?_spaced, if_pos rfl, missed]
      rfl

include wordy

/-- Behind a blank, or where nothing was read, no separator is found at a blank. -/
theorem passes_blanks {inner : Text → List Token} {seen blanks : Text}
    (settled : ∀ c ∈ seen.head?, isBlank c = true) (blank : ∀ c ∈ blanks, isBlank c = true)
    (rest : Text) : t.Passes inner seen blanks rest := by
  induction blanks generalizing seen with
  | nil => exact .nil rest
  | cons b blanks ih =>
    obtain ⟨first, others⟩ := List.forall_mem_cons.1 blank
    refine .cons (Tokenizer.passes_of_firstMatch?_eq_none ?_) (ih (by simpa using first) others)
    rw [firstMatch?_blank layout first, List.findSome?_eq_none_iff]
    intro separator mem
    obtain ⟨w, nonempty, plain, rfl | rfl⟩ := wordy separator mem
    · exact match?_blank nonempty plain first _ _
    · have missed : after? s.ignoreCase w.reverse seen = none := by
        obtain ⟨front, a, rfl⟩ := (List.eq_nil_or_concat w).resolve_left nonempty
        rw [List.concat_eq_append] at plain ⊢
        rw [List.reverse_append]
        cases seen with
        | nil => rfl
        | cons c seen =>
          have differ := (isVisible_of s.ignoreCase plain a (by simp)).2 c
            (settled c rfl)
          show (if agree s.ignoreCase a c then _ else none) = none
          rw [differ, if_neg Bool.false_ne_true]
      rw [match?_spaced, missed]
      exact ite_self none

/-- **At a gap the same separator is found on both sides.** -/
theorem exists_firstMatch?_gap {Q rest : Spacing} {run lead : Side → Text} (slack : IsSlack lead)
    (lawful : Spacing.Lawful (Q ++ .gap run :: rest)) (keeps : s.Keeps (Q ++ .gap run :: rest))
    (starts : s.Starts lead (Q ++ .gap run :: rest)) {b : Side → Char} {blanks : Side → Text}
    (here : ∀ side, run side = b side :: blanks side) (ahead : Side → Text) :
    (∀ side, t.firstMatch? (b side :: (lead side ++ Q.text side).reverse) (ahead side) = none)
      ∨ ∃ front x separator, ∃ cut : Side → Text, Q = front ++ Spacing.ofText x ∧ s.IsWord x
        ∧ separator ∈ s.separators
        ∧ (∀ side, Text.trim (cut side) = Text.trim (lead side ++ Spacing.text side front))
        ∧ ∀ side, t.firstMatch? (b side :: (lead side ++ Q.text side).reverse) (ahead side)
          = some (.split (cut side) [.flat separator] 0) := by
  have isRun : IsRun run := lawful.separate (.gap run) (by simp)
  have blank : ∀ side, isBlank (b side) = true :=
    fun side => isRun.blank side _ (by simp [here side])
  have separate : ∀ cell ∈ Q, cell.Separate :=
    fun cell mem => lawful.separate cell (List.mem_append_left _ mem)
  have each : ∀ separator ∈ s.separators,
      (∀ side, (Symbol.literal separator s.ignoreCase).match?
        (b side :: (lead side ++ Q.text side).reverse) (ahead side) = none)
      ∨ ∃ found : Side → Match, (∃ front x, Q = front ++ Spacing.ofText x ∧ s.IsWord x
          ∧ ∃ cut : Side → Text,
            (∀ side, Text.trim (cut side) = Text.trim (lead side ++ Spacing.text side front))
            ∧ ∀ side, found side = .split (cut side) [.flat separator] 0)
        ∧ ∀ side, (Symbol.literal separator s.ignoreCase).match?
          (b side :: (lead side ++ Q.text side).reverse) (ahead side) = some (found side) := by
    intro separator mem
    obtain ⟨w, nonempty, plain, rfl | rfl⟩ := wordy separator mem
    · exact .inl fun side => match?_blank nonempty plain (blank side) _ _
    · rcases Spacing.exists_before? (isVisible_of s.ignoreCase plain) separate
          slack with ⟨front, x, rfl, all, found⟩ | missed
      · have word : s.IsWord x := ⟨w, mem, all⟩
        have opens := opens_iff rest (by simpa using lawful) (by simpa using keeps)
          (by simpa using starts) word
        have matched : ∀ side, (Symbol.literal (' ' :: (w ++ [' '])) s.ignoreCase).match?
              (b side :: (lead side ++ Spacing.text side (front ++ .ofText x)).reverse) (ahead side)
            = if Opens (lead side ++ front.text side) (run side) then
                some (.split (lead side ++ front.text side).dropLast
                  [.flat (' ' :: (w ++ [' ']))] 0)
              else none := by
          intro side
          rw [match?_spaced, found side, Option.bind_some, after?_space]
          simp only [Opens, here side, List.head?_cons, Option.some.injEq]
          by_cases space : b side = ' '
          · simp [space]
          · simp [space]
        by_cases left : Opens (lead .left ++ front.text .left) (run .left)
        · have both : ∀ side, Opens (lead side ++ front.text side) (run side) := by
            intro side
            cases side with
            | left => exact left
            | right => exact opens.1 left
          refine .inr ⟨fun side => .split (lead side ++ front.text side).dropLast
            [.flat (' ' :: (w ++ [' ']))] 0, ⟨front, x, rfl, word, _, fun side => ?_,
              fun side => rfl⟩, fun side => ?_⟩
          · obtain ⟨last, -⟩ := both side
            have split := List.dropLast_append_getLast? ' ' last
            conv_rhs => rw [← split]
            exact (trim_append_blanks (by simp [isBlank])).symm
          · rw [matched side, if_pos (both side)]
        · have none : ∀ side, ¬ Opens (lead side ++ front.text side) (run side) := by
            intro side
            cases side with
            | left => exact left
            | right => exact mt opens.2 left
          refine .inl fun side => ?_
          rw [matched side, if_neg (none side)]
      · refine .inl fun side => ?_
        rw [match?_spaced, missed side]
        exact ite_self none
  simp only [firstMatch?_blank layout (blank _)]
  rcases exists_findSome? (f := fun side separator => (Symbol.literal separator s.ignoreCase).match?
      (b side :: (lead side ++ Q.text side).reverse) (ahead side)) each with
    missed | ⟨separator, mem, found, ⟨front, x, whole, word, cut, trimmed, same⟩, finds⟩
  · exact .inl missed
  · refine .inr ⟨front, x, separator, cut, whole, word, mem, trimmed, fun side => ?_⟩
    rw [finds side, same side]

omit layout wordy in
/-- What the symbols find behind a character of both sides. -/
inductive Finds (s : Separation) (lead : Side → Text) (Q R : Spacing)
    (found : Side → Option Match) : Prop
  | missed (none : ∀ side, found side = none)
  | drawn {X rest : Spacing} (split : R = X ++ rest)
    (draws : ∀ side, found side = some (.extend (X.text side).length))
  | grouped {front inner stop rest : Spacing} (groups : s.groups = true) (isPrefix : front <+: Q)
    (split : R = inner ++ (stop ++ rest))
    (splits : ∀ side, found side = some (.split (lead side ++ front.text side)
      [.interior (inner.text side)] (Spacing.text side (inner ++ stop)).length))
  | separated {front : Spacing} {separator : Text} (isPrefix : front <+: Q)
    (mem : separator ∈ s.separators)
    (splits : ∀ side, found side
      = some (.split (lead side ++ front.text side) [.flat separator] 0))

omit layout wordy in
/-- The first of two symbols decides, if it finds something. -/
theorem Finds.or {lead : Side → Text} {Q R : Spacing} {f g : Side → Option Match}
    (first : s.Finds lead Q R f) (second : s.Finds lead Q R g) :
    s.Finds lead Q R fun side => (f side).or (g side) := by
  cases first with
  | missed none => simpa only [none, Option.none_or] using second
  | drawn split draws => exact .drawn split fun side => by rw [draws, Option.some_or]
  | grouped groups isPrefix split splits =>
    exact .grouped groups isPrefix split fun side => by rw [splits, Option.some_or]
  | separated isPrefix mem splits =>
    exact .separated isPrefix mem fun side => by rw [splits, Option.some_or]

/-- **Behind a character the same is found on both sides.** -/
theorem finds_char {Q R : Spacing} {c : Char} (separate : ∀ cell ∈ Q ++ [.char c], cell.Separate)
    (separate' : ∀ cell ∈ R, cell.Separate) (closed : ∀ cell ∈ R, cell.Closed)
    {lead tail : Side → Text} (slack : IsSlack lead) (slack' : IsSlack tail)
    (last : s.groups = true → ∀ side, tail side = []) :
    s.Finds lead (Q ++ [.char c]) R fun side =>
      t.firstMatch? (lead side ++ Spacing.text side (Q ++ [.char c])).reverse
        (R.text side ++ tail side) := by
  obtain ⟨visible, unquoted⟩ : isBlank c = false ∧ c ≠ '"' := separate (.char c) (by simp)
  have seen : ∀ side, (lead side ++ Spacing.text side (Q ++ [.char c])).reverse
      = c :: (lead side ++ Q.text side).reverse := by
    intro side
    simp [Cell.text]
  have inline : ∀ {span : Span}, span.IsPlain → span.interior = .inline →
      (∀ before behind, span.guard before behind = true) →
      s.Finds lead (Q ++ [.char c]) R fun side => (Symbol.span span).match?
        (lead side ++ Spacing.text side (Q ++ [.char c])).reverse (R.text side ++ tail side) := by
    intro span plain inline free
    rcases Symbol.exists_match?_span plain inline free separate separate' closed slack slack' with
      ⟨X, rest, split, draws⟩ | none
    · exact .drawn split draws
    · exact .missed none
  simp only [firstMatch?_eq layout]
  refine .or (.missed fun side => ?_) (.or (inline (Span.IsCase.isPlain ⟨rfl, rfl, rfl, rfl, rfl⟩) rfl
    fun _ _ => rfl) (.or ?_ (.or (inline (Span.IsParenthesized.isPlain ⟨rfl, rfl, rfl, rfl, rfl⟩) rfl
      fun _ _ => rfl) ?_)))
  · -- no literal ends in this character
    refine stringLiteral_match?_eq_none ?_ _
    rw [seen]
    exact after?_cons_eq_none rfl (Ne.symm unquoted) _ _
  · cases groups : s.groups with
    | false => exact .missed fun side => if_neg Bool.false_ne_true
    | true =>
      simp only [if_true, last groups, List.append_nil]
      rcases Symbol.exists_match?_group separate separate' closed slack with
        ⟨front, inner, stop, rest, isPrefix, split, found⟩ | none
      · exact .grouped groups isPrefix split found
      · exact .missed none
  · have each : ∀ separator ∈ s.separators,
        (∀ side, (Symbol.literal separator s.ignoreCase).match?
          (lead side ++ Spacing.text side (Q ++ [.char c])).reverse (R.text side ++ tail side) = none)
        ∨ ∃ found : Side → Match, (∃ front : Spacing, front <+: Q ++ [.char c]
            ∧ ∀ side, found side = .split (lead side ++ front.text side) [.flat separator] 0)
          ∧ ∀ side, (Symbol.literal separator s.ignoreCase).match?
            (lead side ++ Spacing.text side (Q ++ [.char c])).reverse (R.text side ++ tail side)
              = some (found side) := by
      intro separator mem
      obtain ⟨w, nonempty, plain, rfl | rfl⟩ := wordy separator mem
      · have more : separator.isEmpty = false := List.isEmpty_eq_false_iff.2 nonempty
        rcases Spacing.exists_before? (isVisible_of s.ignoreCase plain) separate
            slack with ⟨front, x, whole, -, found⟩ | missed
        · refine .inr ⟨fun side => .split (lead side ++ front.text side) [.flat separator] 0,
            ⟨front, whole ▸ List.prefix_append front _, fun side => rfl⟩, fun side => ?_⟩
          rw [Symbol.match?, more, if_neg Bool.false_ne_true, found side, Option.map_some,
            List.reverse_reverse]
        · exact .inl fun side => Symbol.literal_match?_eq_none (missed side) _
      · refine .inl fun side => Symbol.literal_match?_eq_none ?_ _
        have reversed : (' ' :: (w ++ [' '])).reverse = ' ' :: (w.reverse ++ [' ']) := by simp
        rw [seen, reversed]
        refine after?_cons_eq_none rfl ?_ _ _
        rintro rfl
        cases visible
    rcases exists_findSome? each with missed | ⟨separator, mem, found, ⟨front, isPrefix, same⟩, finds⟩
    · exact .missed missed
    · exact .separated isPrefix mem fun side => by rw [finds side, same side]

end Matching

/-! ### Runs -/

/-- The tokens of both sides are made of the same parts of a spacing: texts between separators, and
the contents of groups, which are smaller. -/
inductive Parted (s : Separation) (t : Tokenizer) (inner : Side → Text → List Token) (P : Spacing) :
    (Side → List Token) → Prop
  | last {Q : Spacing} (part : Q <:+: P) : Parted s t inner P fun side => t.flat (Q.text side)
  | separated {Q : Spacing} {separator : Text} {tokens : Side → List Token} (part : Q <:+: P)
    (mem : separator ∈ s.separators) (behind : Parted s t inner P tokens) :
    Parted s t inner P fun side => t.flat (Q.text side) ++ (t.flat separator ++ tokens side)
  | grouped {Q contents : Spacing} {tokens : Side → List Token} (part : Q <:+: P)
    (groups : s.groups = true) (inside : contents <:+: P) (smaller : contents.length < P.length)
    (behind : Parted s t inner P tokens) :
    Parted s t inner P fun side =>
      t.flat (Q.text side) ++ .nested (inner side (contents.text side)) :: tokens side

variable {t : Tokenizer} {inner : Side → Text → List Token}

theorem Parted.of_isInfix {P P' : Spacing} {tokens : Side → List Token}
    (parted : s.Parted t inner P' tokens) (part : P' <:+: P) : s.Parted t inner P tokens := by
  induction parted with
  | last inside => exact .last (inside.trans part)
  | separated inside mem _ ih => exact .separated (inside.trans part) mem ih
  | grouped inside groups contents smaller _ ih =>
    exact .grouped (inside.trans part) groups (contents.trans part)
      (Nat.lt_of_lt_of_le smaller part.length_le) ih

theorem Parted.congr {P : Spacing} {f g : Side → List Token} (parted : s.Parted t inner P f)
    (same : ∀ side, g side = f side) : s.Parted t inner P g := by
  rwa [funext same]

/-- Nothing follows, or no word that separates ends the spacing. -/
def Ends (s : Separation) (tail : Side → Text) (P : Spacing) : Prop :=
  (∀ side, tail side = []) ∨ ∀ front x, s.IsWord x → P ≠ front ++ Spacing.ofText x

theorem Ends.of_append {tail : Side → Text} {P Q : Spacing} (ends : s.Ends tail (P ++ Q)) :
    s.Ends tail Q := by
  rcases ends with empty | other
  · exact .inl empty
  · refine .inr ?_
    rintro front x word rfl
    exact other (P ++ front) x word (by simp)

theorem flat_eq_of_trim (trims : t.trim = true) {x y : Text} (same : x.trim = y.trim) :
    t.flat x = t.flat y := by
  simp only [Tokenizer.flat, trims, if_true, same]

section Running

variable (layout : t.symbols = s.symbols) (wordy : s.IsWordy) (trims : t.trim = true)
include layout wordy trims

/-- The blanks that follow are no part of the last token. -/
theorem run_tail {Q : Spacing} (separate : ∀ cell ∈ Q, cell.Separate) {lead tail : Side → Text}
    (slack : IsSlack lead) (slack' : IsSlack tail) (ends : s.Ends tail Q) (side : Side) :
    t.run (inner side) (lead side ++ Q.text side).reverse .read (tail side) = t.flat (Q.text side) := by
  have trimmed : Text.trim (lead side ++ Q.text side) = Text.trim (Q.text side) := by
    rw [Spacing.trim_append_text separate side (slack side), Spacing.trim_text_self separate]
  cases here : tail side with
  | nil =>
    rw [Tokenizer.run, List.reverse_reverse]
    exact flat_eq_of_trim trims trimmed
  | cons b blanks =>
    have blank : ∀ c ∈ b :: blanks, isBlank c = true := here ▸ slack' side
    obtain ⟨first, others⟩ := List.forall_mem_cons.1 blank
    have missed : t.firstMatch? (b :: (lead side ++ Q.text side).reverse) (blanks ++ []) = none := by
      rw [firstMatch?_blank layout first, List.findSome?_eq_none_iff]
      intro separator mem
      obtain ⟨w, nonempty, plain, rfl | rfl⟩ := wordy separator mem
      · exact match?_blank nonempty plain first _ _
      · rcases Spacing.exists_before? (isVisible_of s.ignoreCase plain) separate
            slack with ⟨front, x, whole, all, -⟩ | missed
        · rcases ends with empty | other
          · rw [empty side] at here
            cases here
          · exact absurd whole (other front x ⟨w, mem, all⟩)
        · rw [match?_spaced, missed side]
          exact ite_self none
    have passed : t.Passes (inner side) (lead side ++ Q.text side).reverse (b :: blanks) [] :=
      .cons (Tokenizer.passes_of_firstMatch?_eq_none missed)
        (passes_blanks layout wordy (by simpa using first) others [])
    have run : t.run (inner side) (lead side ++ Q.text side).reverse .read (b :: blanks)
        = t.flat ((b :: blanks).reverse ++ (lead side ++ Q.text side).reverse).reverse := by
      have whole := passed
      rw [Tokenizer.Passes, List.append_nil, Tokenizer.run] at whole
      exact whole
    rw [run]
    refine flat_eq_of_trim trims ?_
    rw [List.reverse_append, List.reverse_reverse, List.reverse_reverse, trim_append_blanks blank,
      trimmed]

omit wordy trims in
/-- A literal is drawn into the current token. -/
theorem passes_closed {contents : Text} (closed : literal? (contents ++ ['"']) = some (contents, []))
    {inner : Text → List Token} (seen rest : Text) :
    t.Passes inner seen ('"' :: (contents ++ ['"'])) rest := by
  refine Tokenizer.passes_of_extend ?_
  rw [firstMatch?_eq layout, stringLiteral_match?_closed closed, Option.some_or]

omit layout wordy in
/-- Blanks beside a part do not matter to the flat token it becomes. -/
theorem flat_eq {Q : Spacing} (separate : ∀ cell ∈ Q, cell.Separate) {lead : Side → Text}
    (slack : IsSlack lead) {side : Side} {cut : Text}
    (same : Text.trim cut = Text.trim (lead side ++ Q.text side)) :
    t.flat cut = t.flat (Q.text side) := by
  refine flat_eq_of_trim trims (same.trans ?_)
  rw [Spacing.trim_append_text separate side (slack side), Spacing.trim_text_self separate]

/-- Both sides of `Q` stand before the tokenizer, and those of `R` behind it. -/
def runBetween (t : Tokenizer) (inner : Side → Text → List Token) (lead tail : Side → Text)
    (Q R : Spacing) (side : Side) : List Token :=
  t.run (inner side) (lead side ++ Q.text side).reverse .read (R.text side ++ tail side)

/-- The tokens behind some more of the cells are made of the same cells on both sides, if the
current token is continued and if another one starts there. -/
structure GoesOn (s : Separation) (t : Tokenizer) (inner : Side → Text → List Token)
    (lead tail : Side → Text) (Q R : Spacing) : Prop where
  drawn : ∀ X rest, R = X ++ rest → X ≠ [] →
    s.Parted t inner (Q ++ R) (runBetween t inner lead tail (Q ++ X) rest)
  dropped : ∀ X rest lead', R = X ++ rest → X ≠ [] → s.Starts lead' rest → IsSlack lead' →
    s.Parted t inner (Q ++ R) (runBetween t inner lead' tail [] rest)

omit layout wordy trims in
/-- Without blanks before it a word has no spaces around it. -/
theorem starts_nil (P : Spacing) : s.Starts (fun _ => []) P := by
  intro x run rest _ _
  simp [Opens]

variable {lead tail : Side → Text} {Q R : Spacing}

/-- **A character is a step to the same cells on both sides.** -/
theorem parted_char {c : Char} (lawful : Spacing.Lawful (Q ++ .char c :: R)) (slack : IsSlack lead)
    (slack' : IsSlack tail) (last : s.groups = true → ∀ side, tail side = [])
    (goesOn : s.GoesOn t inner lead tail Q (.char c :: R)) :
    s.Parted t inner (Q ++ .char c :: R) (runBetween t inner lead tail Q (.char c :: R)) := by
  have seen : ∀ side, c :: (lead side ++ Q.text side).reverse
      = (lead side ++ Spacing.text side (Q ++ [.char c])).reverse := by
    intro side
    simp [Cell.text]
  have step : ∀ side, runBetween t inner lead tail Q (.char c :: R) side = _ :=
    fun side => Tokenizer.run_read_cons c (Spacing.text side R ++ tail side)
  simp only [seen] at step
  have split : Q ++ .char c :: R = Q ++ [.char c] ++ R := by simp
  have part : Q ++ [.char c] <:+: Q ++ .char c :: R := ⟨[], R, by simp⟩
  have inside : ∀ cell ∈ R, cell ∈ Q ++ .char c :: R := by
    intro cell mem
    simp [mem]
  have before : ∀ cell ∈ Q ++ [.char c], cell.Separate :=
    fun cell mem => lawful.separate cell (part.subset mem)
  have front : ∀ {front : Spacing}, front <+: Q ++ [.char c] →
      front <:+: Q ++ .char c :: R ∧ ∀ cell ∈ front, cell.Separate := by
    intro front isPrefix
    exact ⟨(isPrefix.trans (split ▸ List.prefix_append _ _)).isInfix,
      fun cell mem => before cell (isPrefix.subset mem)⟩
  cases finds_char layout wordy before (fun cell mem => lawful.separate cell (inside cell mem))
      (fun cell mem => lawful.closed cell (inside cell mem)) slack slack' last with
  | missed none =>
    refine (goesOn.drawn [.char c] R rfl (List.cons_ne_nil _ _)).congr fun side => ?_
    rw [step, none side]
    rfl
  | @drawn X rest whole draws =>
    subst whole
    refine (goesOn.drawn (.char c :: X) rest rfl (List.cons_ne_nil _ _)).congr fun side => ?_
    have ahead : Spacing.text side (X ++ rest) ++ tail side
        = X.text side ++ (rest.text side ++ tail side) := by simp
    rw [step, draws side]
    dsimp only
    rw [ahead, Tokenizer.run_draw, ← List.reverse_append]
    simp [runBetween]
  | @grouped start contents stop rest groups isPrefix whole splits =>
    subst whole
    obtain ⟨part, separate⟩ := front isPrefix
    have behind := goesOn.dropped (.char c :: (contents ++ stop)) rest _ (by simp)
      (List.cons_ne_nil _ _) (starts_nil rest) isSlack_nil
    have smaller : contents.length < (Q ++ .char c :: (contents ++ (stop ++ rest))).length := by
      simp only [List.length_append, List.length_cons]
      omega
    refine (Parted.grouped part groups ⟨Q ++ [.char c], stop ++ rest, by simp⟩ smaller
      behind).congr fun side => ?_
    have ahead : Spacing.text side (contents ++ (stop ++ rest)) ++ tail side
        = Spacing.text side (contents ++ stop) ++ (rest.text side ++ tail side) := by simp
    rw [step, splits side]
    dsimp only
    rw [flat_eq trims separate slack rfl, ahead, Tokenizer.run_drop]
    simp [Tokenizer.ofPiece, runBetween]
  | @separated start separator isPrefix mem splits =>
    obtain ⟨part, separate⟩ := front isPrefix
    have behind := goesOn.dropped [.char c] R _ rfl (List.cons_ne_nil _ _) (starts_nil R) isSlack_nil
    refine (Parted.separated part mem behind).congr fun side => ?_
    rw [step, splits side]
    dsimp only
    rw [flat_eq trims separate slack rfl, Tokenizer.run_drop_zero]
    simp [Tokenizer.ofPiece, runBetween]

omit wordy trims in
/-- **A literal becomes part of the current token.** -/
theorem parted_literal {contents : Text} (closed : (Cell.literal contents).Closed)
    (goesOn : s.GoesOn t inner lead tail Q (.literal contents :: R)) :
    s.Parted t inner (Q ++ .literal contents :: R)
      (runBetween t inner lead tail Q (.literal contents :: R)) := by
  refine (goesOn.drawn [.literal contents] R rfl (List.cons_ne_nil _ _)).congr fun side => ?_
  have passed : t.Passes (inner side) (lead side ++ Q.text side).reverse
      ('"' :: (contents ++ ['"'])) (Spacing.text side R ++ tail side) :=
    passes_closed layout closed _ _
  rw [Tokenizer.Passes] at passed
  simpa [Cell.text, runBetween] using passed

/-- **A gap ends the same cells on both sides or is part of the current token.** -/
theorem parted_gap {run : Side → Text} (lawful : Spacing.Lawful (Q ++ .gap run :: R))
    (keeps : s.Keeps (Q ++ .gap run :: R)) (starts : s.Starts lead (Q ++ .gap run :: R))
    (slack : IsSlack lead) (goesOn : s.GoesOn t inner lead tail Q (.gap run :: R)) :
    s.Parted t inner (Q ++ .gap run :: R) (runBetween t inner lead tail Q (.gap run :: R)) := by
  have isRun : IsRun run := lawful.separate (.gap run) (by simp)
  choose b blanks here blank using isRun.exists_cons
  have others : ∀ side, ∀ c ∈ blanks side, isBlank c = true :=
    fun side c mem => isRun.blank side c (by simp [here side, mem])
  have split : ∀ side, Spacing.text side (.gap run :: R) ++ tail side
      = b side :: (blanks side ++ (Spacing.text side R ++ tail side)) := by
    intro side
    simp [Cell.text, here side]
  have step : ∀ side, runBetween t inner lead tail Q (.gap run :: R) side = _ := fun side =>
    (congrArg _ (split side)).trans (Tokenizer.run_read_cons _ _)
  have found := exists_firstMatch?_gap layout wordy slack lawful keeps starts here
    fun side => blanks side ++ (Spacing.text side R ++ tail side)
  rcases found with missed | ⟨front, x, separator, cut, rfl, word, mem, trimmed, found⟩
  · refine (goesOn.drawn [.gap run] R rfl (List.cons_ne_nil _ _)).congr fun side => ?_
    have passed : t.Passes (inner side) (b side :: (lead side ++ Q.text side).reverse) (blanks side)
        (Spacing.text side R ++ tail side) :=
      passes_blanks layout wordy (by simpa using blank side) (others side) _
    rw [step, missed side]
    dsimp only
    rw [passed]
    simp [Cell.text, here side, runBetween]
  · have whole : front ++ Spacing.ofText x ++ .gap run :: R
        = front ++ (Spacing.ofText x ++ .gap run :: R) := List.append_assoc ..
    have isPrefix : front <+: front ++ Spacing.ofText x ++ .gap run :: R :=
      whole ▸ List.prefix_append _ _
    have starts' : s.Starts (fun side => (run side).tail) R := by
      have part : Spacing.ofText x ++ .gap run :: R <:+: front ++ Spacing.ofText x ++ .gap run :: R :=
        whole ▸ (List.suffix_append _ _).isInfix
      exact starts_tail (lawful.of_isInfix part) (keeps.of_isInfix part) word
    have behind := goesOn.dropped [.gap run] R _ rfl (List.cons_ne_nil _ _) starts'
      fun side c mem => isRun.blank side c (List.mem_of_mem_tail mem)
    refine (Parted.separated isPrefix.isInfix mem behind).congr fun side => ?_
    have passed : t.Passes (inner side) [] (blanks side) (Spacing.text side R ++ tail side) :=
      passes_blanks layout wordy (by simp) (others side) _
    have flat := flat_eq trims (fun cell mem => lawful.separate cell (isPrefix.subset mem)) slack
      (trimmed side)
    rw [step, found side]
    dsimp only
    rw [flat, Tokenizer.run_drop_zero, passed]
    simp [Tokenizer.ofPiece, here side, runBetween]

/-- **Both sides are divided into tokens at the same cells.** -/
theorem parted_run (lawful : Spacing.Lawful (Q ++ R)) (keeps : s.Keeps (Q ++ R))
    (starts : s.Starts lead (Q ++ R)) (slack : IsSlack lead) (slack' : IsSlack tail)
    (last : s.groups = true → ∀ side, tail side = []) (ends : s.Ends tail (Q ++ R)) :
    s.Parted t inner (Q ++ R) (runBetween t inner lead tail Q R) := by
  induction size : R.length using Nat.strong_induction_on generalizing Q R lead with
  | h length ih =>
    subst size
    have goesOn : s.GoesOn t inner lead tail Q R := by
      have shorter : ∀ {X rest : Spacing}, X ≠ [] → rest.length < (X ++ rest).length := by
        intro X rest nonempty
        have positive := List.length_pos_iff.2 nonempty
        rw [List.length_append]
        omega
      constructor
      · rintro X rest rfl nonempty
        rw [← List.append_assoc] at lawful keeps starts ends ⊢
        exact ih rest.length (shorter nonempty) lawful keeps starts slack ends rfl
      · rintro X rest lead' rfl nonempty starts' slack''
        have part : rest <:+: Q ++ (X ++ rest) := ⟨Q ++ X, [], by simp⟩
        rw [← List.append_assoc] at ends
        have behind : s.Parted t inner rest (runBetween t inner lead' tail [] rest) :=
          ih rest.length (shorter nonempty) (Q := []) (lawful.of_isInfix part) (keeps.of_isInfix part) starts'
            slack'' ends.of_append rfl
        exact behind.of_isInfix part
    match R with
    | [] =>
      rw [List.append_nil] at lawful ends ⊢
      refine (Parted.last (List.infix_refl Q)).congr fun side => ?_
      exact run_tail layout wordy trims lawful.separate slack slack' ends side
    | .char c :: R => exact parted_char layout wordy trims lawful slack slack' last goesOn
    | .literal contents :: R =>
      exact parted_literal layout (lawful.closed (.literal contents) (by simp)) goesOn
    | .gap run :: R => exact parted_gap layout wordy trims lawful keeps starts slack goesOn

/-- So are they from the start. -/
theorem parted_tokenizeWithin {P : Spacing} (lawful : P.Lawful) (keeps : s.Keeps P)
    (depth : Side → Nat) :
    s.Parted t (fun side => t.tokenizeWithin (depth side)) P fun side =>
      t.tokenizeWithin (depth side + 1) (P.text side) := by
  have parted : s.Parted t _ P (runBetween t (fun side => t.tokenizeWithin (depth side))
      (fun _ => []) (fun _ => []) [] P) :=
    parted_run (Q := []) layout wordy trims lawful keeps (starts_nil P) isSlack_nil isSlack_nil
      (fun _ _ => rfl) (.inl fun _ => rfl)
  refine parted.congr fun side => ?_
  rw [runBetween, Spacing.text_nil, List.append_nil, List.append_nil]
  rfl

end Running

/-! ### Tokens of both sides -/

/-- A flat token is left out on both sides or on none. -/
theorem exists_flat (trims : t.trim = true) {Q : Spacing} (separate : ∀ cell ∈ Q, cell.Separate) :
    (∀ side, t.flat (Q.text side) = []) ∨ ∀ side, t.flat (Q.text side) = [.text (Q.trim.text side)] := by
  have inner : ∀ cell ∈ Q.trim, cell.Separate := fun cell mem => separate cell (Q.isInfix_trim.subset mem)
  have unfolded : ∀ side, t.flat (Q.text side)
      = if (Q.trim.text side).isEmpty then [] else [.text (Q.trim.text side)] := by
    intro side
    simp only [Tokenizer.flat, trims, if_true, Spacing.trim_text_self separate]
  by_cases empty : Q.trim = []
  · exact .inl fun side => by rw [unfolded, empty]; rfl
  · refine .inr fun side => ?_
    rw [unfolded, List.isEmpty_eq_false_iff.2 (Spacing.text_ne_nil inner empty side)]
    rfl

/-- A separator becomes a token of its word. -/
theorem flat_separator (trims : t.trim = true) {separator w : Text} (nonempty : w ≠ [])
    (plain : IsPlainWord w)
    (shape : separator = w ∨ separator = ' ' :: (w ++ [' '])) : t.flat separator = [.text w] := by
  have isTrimmed : IsTrimmed w :=
    ⟨nonempty, fun c mem => (plain c (List.mem_of_head? mem)).1,
      fun c mem => (plain c (List.mem_of_getLast? mem)).1⟩
  have trimmed : Text.trim separator = w := by
    rcases shape with rfl | rfl
    · exact isTrimmed.trim_eq
    · exact isTrimmed.trim_append (isSlack_space .left) (isSlack_space .right)
  simp only [Tokenizer.flat, trims, if_true, trimmed, List.isEmpty_eq_false_iff.2 nonempty]
  rfl

/-- **What relates the tokens that are made of the same cells relates the tokens of both sides.** -/
theorem Parted.forall₂ {R : Token → Token → Prop} {P : Spacing} (wordy : s.IsWordy)
    (trims : t.trim = true) (separate : ∀ cell ∈ P, cell.Separate)
    (piece : ∀ Q : Spacing, Q <:+: P → R (.text (Q.text .left)) (.text (Q.text .right)))
    (word : ∀ separator ∈ s.separators, ∀ w, IsPlainWord w →
      (separator = w ∨ separator = ' ' :: (w ++ [' '])) → R (.text w) (.text w))
    (nested : s.groups = true → ∀ Q : Spacing, Q <:+: P → Q.length < P.length →
      R (.nested (inner .left (Q.text .left))) (.nested (inner .right (Q.text .right))))
    {tokens : Side → List Token} (parted : s.Parted t inner P tokens) :
    List.Forall₂ R (tokens .left) (tokens .right) := by
  have flat : ∀ {Q : Spacing}, Q <:+: P →
      List.Forall₂ R (t.flat (Q.text .left)) (t.flat (Q.text .right)) := by
    intro Q part
    rcases exists_flat trims (fun cell mem => separate cell (part.subset mem)) with none | one
    · rw [none, none]
      exact .nil
    · rw [one, one]
      exact .cons (piece _ (Q.isInfix_trim.trans part)) .nil
  induction parted with
  | last part => exact flat part
  | @separated Q separator tokens part mem _ ih =>
    obtain ⟨w, nonempty, plain, shape⟩ := wordy separator mem
    rw [flat_separator trims nonempty plain shape]
    exact List.rel_append (flat part) (.cons (word separator mem w plain shape) ih)
  | grouped part groups inside smaller _ ih =>
    exact List.rel_append (flat part) (.cons (nested groups _ inside smaller) ih)

end Separation

end RecordMapper
