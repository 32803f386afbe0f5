import RecordMapper.Proofs.Text.SpacedScans
import RecordMapper.Proofs.Token.Mentions

/-!
Spans of a text that is spaced in two ways.

A span is opened on both sides or on none (`Span.IsPlain.exists_openAtEnd?`), and the search for its
close finds the same cells (`Span.IsPlain.exists_close?`). So a symbol for a span recognizes the same
cells (`Symbol.exists_match?_span`), and so does the one for a group of conditions
(`Symbol.exists_match?_group`), which also looks at what stands around the group.
-/

namespace RecordMapper

open Text

/-! ### Spans -/

namespace Span

variable {s : Span}

/-- The delimiters of the span hold neither blanks nor quotes. -/
structure IsPlain (s : Span) : Prop where
  isAscii : s.IsAscii
  knowsQuotes : s.KnowsQuotes
  opening : IsPlainWord s.opening
  closing : IsPlainWord s.closing

theorem IsParenthesized.isPlain (parenthesized : s.IsParenthesized) : s.IsPlain := by
  refine ⟨parenthesized.isAscii, parenthesized.knowsQuotes, ?_, ?_⟩
  · rw [parenthesized.opening]
    decide
  · rw [parenthesized.closing]
    decide

theorem IsCase.isPlain (distinction : s.IsCase) : s.IsPlain := by
  refine ⟨distinction.isAscii, distinction.knowsQuotes, ?_, ?_⟩
  · rw [distinction.opening]
    decide
  · rw [distinction.closing]
    decide

/-- What is hidden from the search is passed. -/
theorem seek?_skip (depth : Nat) (quoted : Bool) (before : Option Char) (skipped rest : Text) :
    seek? s depth skipped.length quoted before (skipped ++ rest)
      = skipped.foldr prependFound (seek? s depth 0 quoted (lastFrom before skipped) rest) := by
  induction skipped generalizing before with
  | nil => rfl
  | cons c skipped ih =>
    rw [List.length_cons, List.cons_append, seek?, ih]
    rfl

/-- A delimiter starts both sides or none, whatever blanks follow. -/
theorem exists_standing? {delimiter : Text} (plain : IsPlainWord delimiter)
    {P : Spacing} (separate : ∀ cell ∈ P, cell.Separate) {tail : Side → Text}
    (slack : IsSlack tail) {before : Side → Option Char} (near : Near before) :
    (∃ x rest, P = Spacing.ofText x ++ rest ∧ x.length = delimiter.length
        ∧ ∀ side, s.standing? delimiter (before side) (P.text side ++ tail side)
            = some (Spacing.text side rest ++ tail side))
      ∨ ∀ side, s.standing? delimiter (before side) (P.text side ++ tail side) = none := by
  unfold standing?
  rcases Spacing.exists_after (isAfter_after? s.keyword) (isVisible_of _ plain) separate slack with
    ⟨x, rest, rfl, all, found⟩ | missed
  · have behind := Spacing.near_head (P := rest)
      (fun cell mem => separate cell (List.mem_append_right _ mem)) slack
    have same : ∀ side, Text.standsAlone (before side) (Spacing.text side rest ++ tail side).head?
        = Text.standsAlone (before .left) (Spacing.text .left rest ++ tail .left).head? :=
      eq_left (Text.standsAlone_eq near behind)
    simp only [found, Option.filter_some, same]
    cases !s.keyword || Text.standsAlone (before .left)
        (Spacing.text .left rest ++ tail .left).head? with
    | false => exact .inr fun side => if_neg Bool.false_ne_true
    | true => exact .inl ⟨x, rest, rfl, all.length_eq.symm, fun side => if_pos rfl⟩
  · exact .inr fun side => by rw [missed side]; rfl

theorem standing?_blank {delimiter : Text} (nonempty : delimiter ≠ [])
    (plain : IsPlainWord delimiter) {b : Char} (blank : isBlank b = true)
    (before : Option Char) (t : Text) : s.standing? delimiter before (b :: t) = none := by
  obtain ⟨a, delimiter, rfl⟩ := List.exists_cons_of_ne_nil nonempty
  have differ := (isVisible_of s.keyword plain a (List.mem_cons_self ..)).2 b blank
  rw [standing?, after?, if_neg (ne_true_of_eq_false differ)]
  rfl

section Search

variable (plain : s.IsPlain)
include plain

theorem IsPlain.isEscape (c : Char) : s.isEscape c = false := by
  simp [Span.isEscape, plain.knowsQuotes.escape]

theorem IsPlain.isQuote_iff {c : Char} : s.isQuote c = true ↔ c = '"' := by
  rw [Span.isQuote, plain.knowsQuotes.quote]
  exact sameByte_iff (by decide)

/-- A step outside quotes, in front of a closing delimiter. -/
theorem IsPlain.seek?_closing {c : Char} (unquoted : c ≠ '"') {before : Option Char} {t rest : Text}
    (closes : s.standing? s.closing before (c :: t) = some rest) :
    seek? s 0 0 false before (c :: t) = some ([], rest)
      ∧ ∀ depth, seek? s (depth + 1) 0 false before (c :: t)
          = prependFound c (seek? s depth (s.closing.length - 1) false (some c) t) := by
  have quote : ¬ s.isQuote c = true := mt plain.isQuote_iff.1 unquoted
  constructor
  · simp only [seek?, plain.isEscape, Bool.false_eq_true, if_false, if_neg quote, closes]
  · intro depth
    simp only [seek?, plain.isEscape, Bool.false_eq_true, if_false, if_neg quote, closes]

/-- A step outside quotes, elsewhere. -/
theorem IsPlain.seek?_other {c : Char} (unquoted : c ≠ '"') {before : Option Char} {t : Text}
    (other : s.standing? s.closing before (c :: t) = none) (depth : Nat) :
    seek? s depth 0 false before (c :: t)
      = if s.opening ≠ s.closing ∧ (s.standing? s.opening before (c :: t)).isSome then
          prependFound c (seek? s (depth + 1) (s.opening.length - 1) false (some c) t)
        else prependFound c (seek? s depth 0 false (some c) t) := by
  have quote : ¬ s.isQuote c = true := mt plain.isQuote_iff.1 unquoted
  simp only [seek?, plain.isEscape, Bool.false_eq_true, if_false, if_neg quote, other]

/-- The search for a close that stands where the scan of literals does in that mode. -/
def seekMode? (s : Span) (depth : Nat) (m : Mode) (before : Option Char) (t : Text) :
    Option (Text × Text) :=
  match m with
  | .plain => seek? s depth 0 false before t
  | .quoted => seek? s depth 0 true before t
  | .escaped => seek? s depth 1 true before t

theorem IsPlain.seek?_literal {contents : Text} (closed : literal? (contents ++ ['"']) = some (contents, []))
    (depth : Nat) (before : Option Char) (t : Text) :
    seek? s depth 0 false before ('"' :: (contents ++ '"' :: t))
      = ('"' :: (contents ++ ['"'])).foldr prependFound (seek? s depth 0 false (some '"') t) := by
  have inside : ∀ m before c t, m ≠ .plain →
      s.seekMode? depth m before (c :: t)
        = prependFound c (s.seekMode? depth (m.after c) (some c) t) := by
    intro m before c t inside
    cases m with
    | plain => exact absurd rfl inside
    | quoted =>
      by_cases closes : c = '"'
      · have quote := plain.isQuote_iff.2 closes
        simp [seekMode?, seek?, Mode.after, closes, plain.isQuote_iff.2]
      · have quote : s.isQuote c = false := Bool.eq_false_iff.2 (mt plain.isQuote_iff.1 closes)
        by_cases escapes : c = '\\'
        · simp [seekMode?, seek?, Mode.after, escapes]
        · simp [seekMode?, seek?, Mode.after, closes, escapes, quote]
    | escaped => simp [seekMode?, seek?, Mode.after]
  have opens : seek? s depth 0 false before ('"' :: (contents ++ '"' :: t))
      = prependFound '"' (s.seekMode? depth .quoted (some '"') (contents ++ '"' :: t)) := by
    simp [seekMode?, seek?, plain.isEscape, plain.isQuote_iff.2]
  rw [opens, List.foldr_cons]
  exact congrArg (prependFound '"') (read_closed (s.seekMode? depth) inside (by decide) closed _ t)

/-- **The search for the close of a span finds the same cells on both sides.** -/
theorem IsPlain.search {P : Spacing} (separate : ∀ cell ∈ P, cell.Separate) {tail : Side → Text}
    (slack : IsSlack tail) :
    Spacing.Search (fun depth before t => seek? s depth 0 false before t) (fun _ => True) tail P where
  nil _ _ := rfl
  blank depth before b t blank := by
    have unquoted : b ≠ '"' := by
      rintro rfl
      cases blank
    have closing := standing?_blank (s := s) plain.isAscii.closing.1 plain.closing blank before t
    have opening := standing?_blank (s := s) plain.isAscii.opening.1 plain.opening blank before t
    rw [plain.seek?_other unquoted closing, opening, if_neg (by simp)]
  literal depth before contents t closed := plain.seek?_literal closed depth before t
  step depth before c rest part alike := by
    have inside : ∀ cell ∈ Cell.char c :: rest, cell.Separate :=
      fun cell mem => separate cell (part.subset mem)
    have unquoted : c ≠ '"' := (inside _ (List.mem_cons_self ..)).2
    -- the rest of a delimiter is skipped
    have skips : ∀ {x : Text} (depth : Nat) (y : Text), (∀ d ∈ y, d ∈ x) → ∀ before t,
        seek? s depth y.length false before (y ++ t)
          = y.foldr prependFound (seek? s depth 0 false (lastFrom before y) t) :=
      fun depth y _ before t => seek?_skip depth false before y t
    rcases exists_standing? (s := s) plain.closing inside slack alike.near with
      ⟨x, behind, whole, length, closes⟩ | open_
    · have closes' : ∀ side, s.standing? s.closing (before side)
          (c :: (Spacing.text side rest ++ tail side))
        = some (Spacing.text side behind ++ tail side) := closes
      cases depth with
      | zero => exact .found whole trivial fun side => (plain.seek?_closing unquoted (closes' side)).1
      | succ depth =>
        exact .of_word depth (fun n => seek? s depth n false) plain.isAscii.closing.1 whole length
          (skips depth) fun side => (plain.seek?_closing unquoted (closes' side)).2 depth
    · have open' : ∀ side, s.standing? s.closing (before side)
          (c :: (Spacing.text side rest ++ tail side)) = none := open_
      have other := fun side => plain.seek?_other unquoted (open' side) depth
      have passes : (∀ side, ¬ (s.opening ≠ s.closing ∧ (s.standing? s.opening (before side)
            (c :: (Spacing.text side rest ++ tail side))).isSome)) →
          Spacing.Step (fun depth before t => seek? s depth 0 false before t) (fun _ => True) tail
            depth before (.char c :: rest) := by
        intro closed
        refine .passed (x := [c]) depth nofun rfl fun side => ?_
        refine (other side).trans ?_
        rw [if_neg (closed side)]
        rfl
      by_cases differ : s.opening ≠ s.closing
      · rcases exists_standing? (s := s) plain.opening inside slack alike.near with
          ⟨x, behind, whole, length, opens⟩ | closed
        · refine .of_word (depth + 1) (fun n => seek? s (depth + 1) n false)
            plain.isAscii.opening.1 whole length (skips (depth + 1)) fun side => ?_
          have opens' : s.standing? s.opening (before side)
              (c :: (Spacing.text side rest ++ tail side))
            = some (Spacing.text side behind ++ tail side) := opens side
          rw [other, opens', if_pos ⟨differ, rfl⟩]
        · refine passes fun side both => ?_
          have closed' : s.standing? s.opening (before side)
            (c :: (Spacing.text side rest ++ tail side)) = none := closed side
          rw [closed'] at both
          exact absurd both.2 (by simp)
      · exact passes fun side both => differ both.1

/-- **What closes a span on one side closes it on the other.** -/
theorem IsPlain.exists_close? {P : Spacing} (separate : ∀ cell ∈ P, cell.Separate)
    (closed : ∀ cell ∈ P, cell.Closed) {tail : Side → Text} (slack : IsSlack tail) :
    (∃ inner stop rest, P = inner ++ (stop ++ rest)
        ∧ ∀ side, s.close? (P.text side ++ tail side)
            = some (Spacing.text side inner, Spacing.text side rest ++ tail side))
      ∨ ∀ side, s.close? (P.text side ++ tail side) = none := by
  simp only [plain.isAscii.close?_eq_seek?]
  rcases (plain.search separate slack).exists_scan (q := 0) separate closed (List.suffix_refl P)
      slack (.const none) with ⟨inner, stop, rest, whole, -, found⟩ | missed
  · exact .inl ⟨inner, stop, rest, whole, found⟩
  · exact .inr missed

end Search

/-- **A delimiter that opens a span on one side opens it on the other.** -/
theorem IsPlain.exists_openAtEnd? (plain : s.IsPlain) {Q R : Spacing}
    (separate : ∀ cell ∈ Q, cell.Separate) (separate' : ∀ cell ∈ R, cell.Separate)
    {lead tail : Side → Text} (slack : IsSlack lead) (slack' : IsSlack tail) :
    (∃ front, front <+: Q ∧ ∀ side,
        s.openAtEnd? (lead side ++ Q.text side).reverse (R.text side ++ tail side)
          = some (lead side ++ Spacing.text side front))
      ∨ ∀ side, s.openAtEnd? (lead side ++ Q.text side).reverse (R.text side ++ tail side)
          = none := by
  have nonempty : s.opening.isEmpty = false := List.isEmpty_eq_false_iff.2 plain.isAscii.opening.1
  rcases Spacing.exists_before? (isVisible_of _ plain.opening) separate slack with
    ⟨front, x, rfl, -, found⟩ | missed
  · have before := Spacing.near_last (P := front)
      (fun cell mem => separate cell (List.mem_append_left _ mem)) slack
    have same : ∀ side, Text.standsAlone (lead side ++ Spacing.text side front).getLast?
          (R.text side ++ tail side).head?
        = Text.standsAlone (lead .left ++ Spacing.text .left front).getLast?
          (R.text .left ++ tail .left).head? :=
      eq_left (Text.standsAlone_eq before (Spacing.near_head separate' slack'))
    have opens : ∀ side, s.openAtEnd? (lead side ++ Spacing.text side (front ++ .ofText x)).reverse
          (R.text side ++ tail side)
        = if !s.keyword || Text.standsAlone (lead .left ++ Spacing.text .left front).getLast?
            (R.text .left ++ tail .left).head? then some (lead side ++ Spacing.text side front)
          else none := by
      intro side
      rw [openAtEnd?, nonempty, if_neg Bool.false_ne_true, found side]
      simp only [List.head?_reverse, List.reverse_reverse, same side]
    simp only [opens]
    split
    · exact .inl ⟨front, List.prefix_append front _, fun side => rfl⟩
    · exact .inr fun side => rfl
  · refine .inr fun side => ?_
    rw [openAtEnd?, nonempty, if_neg Bool.false_ne_true, missed side]

end Span

/-! ### Matches -/

namespace Connected

variable {P : Spacing} (separate : ∀ cell ∈ P, cell.Separate)
include separate

theorem startsConnector_eq : startsConnector (P.text .left) = startsConnector (P.text .right) := by
  let follows (rest : Text) : Bool := rest.head?.all fun c => isAsciiBlank c || c == '('
  have unfolded : ∀ t, startsConnector t
      = [BoolOp.and, BoolOp.or].any fun op => (Text.after? true op.keyword t).any follows := by
    intro t
    unfold startsConnector
    congr 1
    funext op
    cases Text.after? true op.keyword t <;> rfl
  have each : ∀ op : BoolOp, (Text.after? true op.keyword (P.text .left)).any follows
      = (Text.after? true op.keyword (P.text .right)).any follows := by
    intro op
    have visible : IsVisible (agree true) op.keyword := by
      cases op <;> exact isVisible_of _ (by decide)
    rcases Spacing.exists_after_end (isAfter_after? true) visible separate with
      ⟨x, rest, rfl, -, found⟩ | missed
    · have behind := Spacing.alike_head (P := rest)
        fun cell mem => separate cell (List.mem_append_right _ mem)
      rw [found .left, found .right]
      refine behind.apply_eq (f := fun c => c.all fun c => isAsciiBlank c || c == '(') ?_
      intro b blank
      rw [Option.all_some, blank]
      rfl
    · rw [missed .left, missed .right]
  simp only [unfolded, List.any_cons, List.any_nil, each]

/-- **Both sides hold a group of conditions or none does.** -/
theorem isGroup_eq {front : Spacing} (separate' : ∀ cell ∈ front, cell.Separate)
    {lead : Side → Text} (slack : IsSlack lead) :
    isGroup (lead .left ++ front.text .left) (P.text .left)
      = isGroup (lead .right ++ front.text .right) (P.text .right) := by
  have before : ∀ side, (Text.trim (lead side ++ front.text side)).isEmpty = front.trim.isEmpty := by
    intro side
    have trimmed := Spacing.trim_append_text separate' side (slack side)
    have inner : ∀ cell ∈ front.trim, cell.Separate :=
      fun cell mem => separate' cell (front.isInfix_trim.subset mem)
    rw [trimmed, Bool.eq_iff_iff, List.isEmpty_iff, List.isEmpty_iff,
      Spacing.text_eq_nil_iff inner side]
  rw [isGroup, isGroup, before, before]
  congr 1
  by_cases empty : P.trimStart = []
  · have blank : ∀ side, Text.trimStart (P.text side) = [] := fun side =>
      List.dropWhile_eq_nil_iff.2 (Spacing.blank_of_trimStart separate empty side)
    rw [blank, blank]
  · have inner : ∀ cell ∈ P.trimStart, cell.Separate :=
      fun cell mem => separate cell (P.isInfix_trimStart.subset mem)
    have start := Spacing.trimStart_eq separate
    have more : ∀ side, (P.trimStart.text side).isEmpty = false := fun side =>
      List.isEmpty_eq_false_iff.2 (Spacing.text_ne_nil inner empty side)
    rw [start, start, more, more, startsConnector_eq inner]

end Connected

namespace Symbol

/-- **The same span is found on both sides.** -/
theorem exists_match?_span {span : Span} (plain : span.IsPlain) (inline : span.interior = .inline)
    (free : ∀ before behind, span.guard before behind = true) {Q R : Spacing}
    (separate : ∀ cell ∈ Q, cell.Separate) (separate' : ∀ cell ∈ R, cell.Separate)
    (closed : ∀ cell ∈ R, cell.Closed) {lead tail : Side → Text} (slack : IsSlack lead)
    (slack' : IsSlack tail) :
    (∃ X rest, R = X ++ rest ∧ ∀ side,
        match? (lead side ++ Q.text side).reverse (R.text side ++ tail side) (.span span)
          = some (.extend (Spacing.text side X).length))
      ∨ ∀ side, match? (lead side ++ Q.text side).reverse (R.text side ++ tail side) (.span span)
          = none := by
  rcases plain.exists_openAtEnd? separate separate' slack slack' with ⟨front, -, opens⟩ | missed
  · rcases plain.exists_close? separate' closed slack' with
      ⟨inner, stop, rest, rfl, closes⟩ | missed
    · refine .inl ⟨inner ++ stop, rest, by simp, fun side => ?_⟩
      have length : (Spacing.text side (inner ++ (stop ++ rest)) ++ tail side).length
          - (Spacing.text side rest ++ tail side).length
          = (Spacing.text side (inner ++ stop)).length := by
        simp only [Spacing.text_append, List.length_append]
        omega
      rw [match?, opens side]
      dsimp only
      rw [closes side]
      simp only [free, if_true, inline, length]
    · refine .inr fun side => ?_
      rw [match?, opens side]
      dsimp only
      rw [missed side]
  · refine .inr fun side => ?_
    rw [match?, missed side]

/-- **The same group is found on both sides.** -/
theorem exists_match?_group {Q R : Spacing} (separate : ∀ cell ∈ Q, cell.Separate)
    (separate' : ∀ cell ∈ R, cell.Separate) (closed : ∀ cell ∈ R, cell.Closed)
    {lead : Side → Text} (slack : IsSlack lead) :
    (∃ front inner stop rest, front <+: Q ∧ R = inner ++ (stop ++ rest) ∧ ∀ side,
        Connected.group.match? (lead side ++ Q.text side).reverse (R.text side)
          = some (.split (lead side ++ Spacing.text side front) [.interior (Spacing.text side inner)]
              (Spacing.text side (inner ++ stop)).length))
      ∨ ∀ side, Connected.group.match? (lead side ++ Q.text side).reverse (R.text side)
          = none := by
  have plain := Separation.isParenthesized_group.isPlain
  unfold Connected.group
  have opened := plain.exists_openAtEnd? separate separate' slack isSlack_nil
  have closes := plain.exists_close? separate' closed isSlack_nil
  simp only [List.append_nil] at opened closes
  rcases opened with ⟨front, isPrefix, opens⟩ | missed
  · rcases closes with ⟨inner, stop, rest, rfl, closes⟩ | missed
    · have matched : ∀ side, match? (lead side ++ Q.text side).reverse
            (Spacing.text side (inner ++ (stop ++ rest)))
            (.span { opening := ['('], closing := [')'], interior := .recursive
                     quote := Byte.ofAscii '"', guard := Connected.isGroup })
          = if Connected.isGroup (lead .left ++ Spacing.text .left front)
                (Spacing.text .left rest) then
              some (.split (lead side ++ Spacing.text side front)
                [.interior (Spacing.text side inner)] (Spacing.text side (inner ++ stop)).length)
            else none := by
        intro side
        have guarded := eq_left (f := fun side => Connected.isGroup
            (lead side ++ Spacing.text side front) (Spacing.text side rest))
          (Connected.isGroup_eq (fun cell mem => separate' cell (by simp [mem]))
            (fun cell mem => separate cell (isPrefix.subset mem)) slack) side
        have length : (Spacing.text side (inner ++ (stop ++ rest))).length
            - (Spacing.text side rest).length
            = (Spacing.text side (inner ++ stop)).length := by
          simp only [Spacing.text_append, List.length_append]
          omega
        rw [match?, opens side]
        dsimp only
        rw [closes side]
        simp only [guarded, length, pieces]
      simp only [matched]
      split
      · exact .inl ⟨front, inner, stop, rest, isPrefix, rfl, fun side => rfl⟩
      · exact .inr fun side => rfl
    · refine .inr fun side => ?_
      rw [match?, opens side]
      dsimp only
      rw [missed side]
  · refine .inr fun side => ?_
    rw [match?, missed side]

end Symbol

end RecordMapper
