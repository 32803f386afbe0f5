import RecordMapper.Proofs.Text.RenamedScans
import RecordMapper.Proofs.Token.Depth
import RecordMapper.Proofs.Token.Nested

/-!
Tokens of texts that differ in the names of their placeholders.

A tokenizer looks behind each character for something that opens a span or separates. In a
placeholder it finds nothing, since neither a keyword nor a separator ends there
(`Separation.run_placeholder`), and outside it finds the same in both texts
(`Separation.rel_firstMatch?`). So both texts are divided at the same separators
(`Separation.dividedAlike_run`), and **their tokens are the same up to the names**
(`Separation.pairs_tokenize`). What is said of the tokens is any relation of renamed texts that their
parts inherit, a `Text.Similarity`.
-/

namespace RecordMapper

open Text

variable {names : Text → Text → Prop} {t t' : Text}

/-! ### Spans -/

namespace Span

variable {s : Span}

/-- A delimiter stands at the start of both texts or of none. -/
theorem rel_standing? (renamed : Renamed names t t') {delimiter : Text} (free : '%' ∉ delimiter)
    (before : Option Char) :
    Option.Rel (Renamed names) (s.standing? delimiter before t)
      (s.standing? delimiter before t') :=
  rel_filter (renamed.rel_after? s.keyword free) fun rest rest' behind => by rw [behind.head?_eq]

section Case

variable (distinction : s.IsCase)
include distinction

/-- A character of a placeholder is passed, unless a keyword starts with it. -/
theorem IsCase.seek?_nameChar {before : Option Char} {c : Char} (char : IsNameChar c)
    (noCase : startsKeyword caseKeyword before (c :: t) = false)
    (noEnd : startsKeyword endKeyword before (c :: t) = false) (depth : Nat) :
    seek? s depth 0 false before (c :: t)
      = prependFound c (seek? s depth 0 false (some c) t) := by
  have closing : s.standing? s.closing before (c :: t) = none := by
    rw [distinction.closing]
    exact distinction.standing?_eq_none noEnd
  have opening : s.standing? s.opening before (c :: t) = none := by
    rw [distinction.opening]
    exact distinction.standing?_eq_none noCase
  rw [distinction.isPlain.seek?_other (char.ne (by decide) rfl) closing, opening,
    if_neg (by simp)]

theorem IsCase.seek?_quoted {c : Char} (char : IsNameChar c) (depth : Nat)
    (before : Option Char) :
    seek? s depth 0 true before (c :: t) = prependFound c (seek? s depth 0 true (some c) t) := by
  have backslash : c ≠ '\\' := char.ne (by decide) rfl
  have quote : s.isQuote c = false := by
    rw [Bool.eq_false_iff]
    exact mt distinction.isPlain.isQuote_iff.1 (char.ne (by decide) rfl)
  rw [seek?, if_neg backslash, quote]
  rfl

theorem IsCase.free : '%' ∉ s.opening ∧ '%' ∉ s.closing := by
  rw [distinction.opening, distinction.closing]
  decide

/-- The search for the end of a case distinction overlooks names. The first percent sign of a
placeholder may be hidden behind a backslash. -/
theorem IsCase.overlooks_seek? (names : Text → Text → Prop) :
    Overlooks names (fun (q : Nat × Nat × Bool) t => '%' ∈ t.take q.2.1 → q.2.1 = 1)
      fun q before t => seek? s q.1 q.2.1 q.2.2 before t where
  nil _ _ := by rw [seek?]
  char := by
    rintro ⟨depth, skip, quoted⟩ before c t t' other behind quiet
    have start : '%' ∈ t.take 0 → (0 : Nat) = 1 := fun mem => absurd mem List.not_mem_nil
    cases skip with
    | succ skip =>
      refine .inr ⟨(depth, skip, quoted), fun mem => ?_, by rw [seek?], by rw [seek?]⟩
      obtain rfl : skip = 0 := Nat.succ.inj (quiet (List.mem_cons_of_mem c mem))
      cases mem
    | zero =>
      cases quoted with
      | true =>
        rw [seek?, seek?]
        by_cases backslash : c = '\\'
        · rw [if_pos backslash, if_pos backslash]
          exact .inr ⟨(depth, 1, true), fun _ => rfl, rfl, rfl⟩
        · rw [if_neg backslash, if_neg backslash]
          exact .inr ⟨(depth, 0, !s.isQuote c), start, rfl, rfl⟩
      | false =>
        have plain := distinction.isPlain
        by_cases unquoted : c = '"'
        · have quote := plain.isQuote_iff.2 unquoted
          refine .inr ⟨(depth, 0, true), start, ?_, ?_⟩
          · simp only [seek?, plain.isEscape, Bool.false_eq_true, if_false, if_pos quote]
          · simp only [seek?, plain.isEscape, Bool.false_eq_true, if_false, if_pos quote]
        have whole : Renamed names (c :: t) (c :: t') := .char other behind
        have skips : ∀ {delimiter rest : Text}, '%' ∉ delimiter →
            s.standing? delimiter before (c :: t) = some rest →
              '%' ∉ t.take (delimiter.length - 1) := fun free found =>
          not_mem_take_of_after? free (Option.filter_eq_some_iff.1 found).1
        rcases exists_of_rel (s.rel_standing? whole distinction.free.2 before) with
          ⟨missed, missed'⟩ | ⟨rest, rest', parts, found, found'⟩
        · have first := plain.seek?_other unquoted missed depth
          have second := plain.seek?_other unquoted missed' depth
          rcases exists_of_rel (s.rel_standing? whole distinction.free.1 before) with
            ⟨other, other'⟩ | ⟨rest, rest', -, opens, opens'⟩
          · rw [other, if_neg (by simp)] at first
            rw [other', if_neg (by simp)] at second
            exact .inr ⟨(depth, 0, false), start, first, second⟩
          · have differ : s.opening ≠ s.closing := by
              rw [distinction.opening, distinction.closing]
              decide
            rw [opens, if_pos ⟨differ, rfl⟩] at first
            rw [opens', if_pos ⟨differ, rfl⟩] at second
            exact .inr ⟨(depth + 1, s.opening.length - 1, false),
              fun mem => absurd mem (skips distinction.free.1 opens), first, second⟩
        · have first := plain.seek?_closing unquoted found
          have second := plain.seek?_closing unquoted found'
          cases depth with
          | zero => exact .inl ⟨rest, rest', parts, first.1, second.1⟩
          | succ depth =>
            exact .inr ⟨(depth, s.closing.length - 1, false),
              fun mem => absurd mem (skips distinction.free.2 found), first.2 depth,
              second.2 depth⟩
  placeholder := by
    rintro ⟨depth, skip, quoted⟩ before v t quiet
    have start : '%' ∈ t.take 0 → (0 : Nat) = 1 := fun mem => absurd mem List.not_mem_nil
    -- the name, behind a percent sign that was passed
    have name : ∀ u r, IsSafeName u → seek? s depth 0 quoted (some '%') (u ++ '%' :: r)
        = (u ++ ['%']).foldr prependFound (seek? s depth 0 quoted (some '%') r) := by
      intro u r safe
      cases quoted with
      | true =>
        exact @read_name (seek? s depth 0 true)
          (fun before t => distinction.seek?_quoted (.inl rfl) depth before)
          (fun b c t _ word _ _ => distinction.seek?_quoted (.inr word) depth (some b)) u safe r
      | false =>
        exact @read_name (seek? s depth 0 false)
          (fun before t => distinction.seek?_nameChar (.inl rfl)
            (startsKeyword_cons_of_not_isAlpha (by decide) letters_caseKeyword rfl t)
            (startsKeyword_cons_of_not_isAlpha (by decide) letters_endKeyword rfl t) depth)
          (fun b c t _ word noCase noEnd =>
            distinction.seek?_nameChar (.inr word) noCase noEnd depth) u safe r
    refine ⟨(depth, 0, quoted), start, fun u r safe => ?_⟩
    have sign : seek? s depth skip quoted before ('%' :: (u ++ '%' :: r))
        = prependFound '%' (seek? s depth 0 quoted (some '%') (u ++ '%' :: r)) := by
      cases skip with
      | succ skip =>
        obtain rfl : skip = 0 := Nat.succ.inj (quiet (List.mem_cons_self ..))
        rw [seek?]
      | zero =>
        cases quoted with
        | true => exact distinction.seek?_quoted (.inl rfl) depth before
        | false =>
          exact distinction.seek?_nameChar (.inl rfl)
            (startsKeyword_cons_of_not_isAlpha (by decide) letters_caseKeyword rfl _)
            (startsKeyword_cons_of_not_isAlpha (by decide) letters_endKeyword rfl _) depth
    exact sign.trans (congrArg (prependFound '%') (name u r safe))

end Case

/-- A span that is closed at the same place of both texts, and opened by no percent sign. -/
structure ClosesAlike (names : Text → Text → Prop) (s : Span) : Prop where
  isAscii : s.IsAscii
  unmarked : '%' ∉ s.opening
  close : ∀ {t t' : Text}, Renamed names t t' →
    Option.Rel (RenamedParts names) (s.close? t) (s.close? t')

section Closing

variable (safe : AreSafe names)
include safe

theorem IsLiteral.closesAlike (literal : s.IsLiteral) : s.ClosesAlike names where
  isAscii := literal.isAscii
  unmarked := by simp [literal.opening]
  close renamed := by
    rw [literal.close?_eq_literal?, literal.close?_eq_literal?]
    exact renamed.rel_literal? safe

theorem IsParenthesized.closesAlike (parenthesized : s.IsParenthesized) : s.ClosesAlike names where
  isAscii := parenthesized.isAscii
  unmarked := by simp [parenthesized.opening]
  close renamed := by
    rw [parenthesized.close?_eq_closing?, parenthesized.close?_eq_closing?]
    exact renamed.rel_closing? safe

theorem IsCase.closesAlike (distinction : s.IsCase) : s.ClosesAlike names where
  isAscii := distinction.isAscii
  unmarked := distinction.free.1
  close renamed := by
    rw [distinction.isAscii.close?_eq_seek?, distinction.isAscii.close?_eq_seek?]
    exact (distinction.overlooks_seek? names).rel safe renamed (q := (0, 0, false))
      (fun mem => absurd mem List.not_mem_nil) none

end Closing

theorem IsAscii.exists_of_close? (ascii : s.IsAscii) {contents behind : Text}
    (closed : s.close? t = some (contents, behind)) : ∃ x, t = x ++ behind := by
  rw [ascii.close?_eq_seek?] at closed
  obtain ⟨rest, split, stands⟩ := exists_of_seek? closed
  obtain ⟨word, -, rfl⟩ := exists_of_standing? stands
  exact ⟨contents ++ word, by rw [split, List.append_assoc]⟩

/-- Both texts read so far end in the delimiter that opens the span, or none does. -/
theorem rel_openAtEnd? {seen seen' : Text} (before : Renamed (backward names) seen seen')
    (ahead : Renamed names t t') (unmarked : '%' ∉ s.opening) :
    Option.Rel (Renamed names) (s.openAtEnd? seen t) (s.openAtEnd? seen' t') := by
  unfold openAtEnd?
  split
  · exact .none
  rcases exists_of_rel (before.rel_after? s.keyword (mt List.mem_reverse.1 unmarked)) with
    ⟨missed, missed'⟩ | ⟨front, front', rel, found, found'⟩
  · rw [missed, missed']
    exact .none
  · rw [found, found']
    dsimp only
    rw [rel.head?_eq, ahead.head?_eq]
    split
    · exact .some (backward_backward names ▸ rel.reverse)
    · exact .none

theorem prefix_of_openAtEnd? {seen front : Text} (opened : s.openAtEnd? seen t = some front) :
    front <+: seen.reverse := by
  obtain ⟨before, found, -, rfl⟩ := exists_of_openAtEnd? opened
  obtain ⟨word, -, rfl⟩ := after?_eq_some_iff.1 found
  exact ⟨word.reverse, by rw [List.reverse_append]⟩

end Span

/-! ### What is recognized -/

/-- The same is recognized in both texts: a stretch of the text ahead, a group or a separator. -/
inductive Match.Alike (names : Text → Text → Prop) (s : Separation) (seen seen' rest rest' : Text) :
    Match → Match → Prop
  | drawn {x x' behind behind' : Text} (split : rest = x ++ behind) (split' : rest' = x' ++ behind')
    (ahead : Renamed names behind behind') :
    Alike names s seen seen' rest rest' (.extend x.length) (.extend x'.length)
  | grouped {front front' contents contents' behind behind' : Text} (groups : s.groups = true)
    (part : front <+: seen.reverse) (part' : front' <+: seen'.reverse)
    (before : Renamed names front front') (split : rest = contents ++ ')' :: behind)
    (split' : rest' = contents' ++ ')' :: behind') (inside : Renamed names contents contents')
    (ahead : Renamed names behind behind') :
    Alike names s seen seen' rest rest' (.split front [.interior contents] (contents.length + 1))
      (.split front' [.interior contents'] (contents'.length + 1))
  | separated {front front' separator : Text} (mem : separator ∈ s.separators)
    (unmarked : '%' ∉ separator) (part : front <+: seen.reverse) (part' : front' <+: seen'.reverse)
    (before : Renamed names front front') :
    Alike names s seen seen' rest rest' (.split front [.flat separator] 0)
      (.split front' [.flat separator] 0)

namespace Connected

theorem startsConnector_eq_of_renamed (renamed : Renamed names t t') :
    startsConnector t = startsConnector t' := by
  unfold startsConnector
  congr 1
  funext op
  have unmarked : '%' ∉ op.keyword := by cases op <;> decide
  rcases exists_of_rel (renamed.rel_after? true unmarked) with
    ⟨missed, missed'⟩ | ⟨rest, rest', behind, found, found'⟩
  · rw [missed, missed']
  · rw [found, found']
    dsimp only
    rw [behind.head?_eq]

theorem isGroup_eq_of_renamed {front front' : Text} (before : Renamed names front front')
    (behind : Renamed names t t') : isGroup front t = isGroup front' t' := by
  rw [isGroup, isGroup, before.trim.isEmpty_eq, behind.trimStart.isEmpty_eq,
    startsConnector_eq_of_renamed behind.trimStart]

end Connected

namespace Separation

variable {s : Separation} {seen seen' rest rest' : Text}

section Matching

variable (before : Renamed (backward names) seen seen') (ahead : Renamed names rest rest')
include before ahead

theorem rel_match?_inline {span : Span} (alike : span.ClosesAlike names)
    (inline : span.interior = .inline)
    (free : ∀ before behind, span.guard before behind = true) :
    Option.Rel (Match.Alike names s seen seen' rest rest')
      (Symbol.match? seen rest (.span span)) (Symbol.match? seen' rest' (.span span)) := by
  rw [Symbol.match?, Symbol.match?]
  rcases exists_of_rel (span.rel_openAtEnd? before ahead alike.unmarked) with
    ⟨missed, missed'⟩ | ⟨front, front', -, opened, opened'⟩
  · rw [missed, missed']
    exact .none
  rw [opened, opened']
  dsimp only
  rcases exists_of_rel (alike.close ahead) with
    ⟨missed, missed'⟩ | ⟨⟨contents, behind⟩, ⟨contents', behind'⟩, parts, closed, closed'⟩
  · rw [missed, missed']
    exact .none
  obtain ⟨x, split⟩ := alike.isAscii.exists_of_close? closed
  obtain ⟨x', split'⟩ := alike.isAscii.exists_of_close? closed'
  have size : rest.length - behind.length = x.length := by
    rw [split, List.length_append, Nat.add_sub_cancel]
  have size' : rest'.length - behind'.length = x'.length := by
    rw [split', List.length_append, Nat.add_sub_cancel]
  rw [closed, closed']
  simp only [free, if_true, inline, size, size']
  exact .some (.drawn split split' parts.2)

theorem rel_match?_group (safe : AreSafe names) (groups : s.groups = true) :
    Option.Rel (Match.Alike names s seen seen' rest rest')
      (Connected.group.match? seen rest) (Connected.group.match? seen' rest') := by
  have alike := isParenthesized_group.closesAlike safe
  rw [Connected.group, Symbol.match?, Symbol.match?]
  rcases exists_of_rel (Span.rel_openAtEnd? before ahead alike.unmarked) with
    ⟨missed, missed'⟩ | ⟨front, front', outside, opened, opened'⟩
  · rw [missed, missed']
    exact .none
  rw [opened, opened']
  dsimp only
  rcases exists_of_rel (alike.close ahead) with
    ⟨missed, missed'⟩ | ⟨⟨contents, behind⟩, ⟨contents', behind'⟩, parts, closed, closed'⟩
  · rw [missed, missed']
    exact .none
  rw [closed, closed']
  dsimp only
  have guarded := Connected.isGroup_eq_of_renamed outside parts.2
  by_cases stands : Connected.isGroup front behind = true
  swap
  · rw [if_neg stands, if_neg (guarded ▸ stands)]
    exact .none
  rw [if_pos stands, if_pos (guarded ▸ stands)]
  have cut : ∀ {rest contents behind : Text}, closing? rest = some (contents, behind) →
      rest = contents ++ ')' :: behind ∧ rest.length - behind.length = contents.length + 1 := by
    intro rest contents behind closed
    obtain ⟨split, -⟩ := exists_of_closingFrom? closed
    refine ⟨split, ?_⟩
    rw [split, List.length_append, List.length_cons]
    omega
  rw [isParenthesized_group.close?_eq_closing?] at closed closed'
  obtain ⟨split, size⟩ := cut closed
  obtain ⟨split', size'⟩ := cut closed'
  rw [size, size']
  exact .some (.grouped groups (Span.prefix_of_openAtEnd? opened)
    (Span.prefix_of_openAtEnd? opened') outside split split' parts.1 parts.2)

/-- A separator with a percent sign is a spaced percent sign. -/
def overlooksNames (s : Separation) : Bool :=
  s.separators.all fun separator => !separator.contains '%' || separator == [' ', '%', ' ']

omit ahead in
theorem rel_match?_separator (overlooks : s.overlooksNames = true) {separator : Text}
    (mem : separator ∈ s.separators) :
    Option.Rel (Match.Alike names s seen seen' rest rest')
      ((Symbol.literal separator s.ignoreCase).match? seen rest)
      ((Symbol.literal separator s.ignoreCase).match? seen' rest') := by
  have checked := List.all_eq_true.1 overlooks separator mem
  rw [Bool.or_eq_true, Bool.not_eq_true', List.contains_eq_mem, decide_eq_false_iff_not,
    beq_iff_eq] at checked
  rcases checked with unmarked | rfl
  · rw [Symbol.match?, Symbol.match?]
    split
    · exact .none
    rcases exists_of_rel (before.rel_after? s.ignoreCase (mt List.mem_reverse.1 unmarked)) with
      ⟨missed, missed'⟩ | ⟨front, front', rel, found, found'⟩
    · rw [missed, missed']
      exact .none
    · have part : ∀ {seen front : Text}, after? s.ignoreCase separator.reverse seen = some front →
          front.reverse <+: seen.reverse := by
        intro seen front found
        obtain ⟨word, -, rfl⟩ := after?_eq_some_iff.1 found
        exact ⟨word.reverse, by rw [List.reverse_append]⟩
      rw [found, found']
      exact .some (.separated mem unmarked (part found) (part found')
        (backward_backward names ▸ rel.reverse))
  · rw [Symbol.literal_match?_eq_none (before.after?_spacedSign _) rest,
      Symbol.literal_match?_eq_none (before.symm.after?_spacedSign _) rest']
    exact .none

variable (safe : AreSafe names) (overlooks : s.overlooksNames = true) {t : Tokenizer}
  (layout : t.symbols = s.symbols)
include safe overlooks layout

/-- **The same is recognized in both texts.** -/
theorem rel_firstMatch? :
    Option.Rel (Match.Alike names s seen seen' rest rest') (t.firstMatch? seen rest)
      (t.firstMatch? seen' rest') := by
  have distinction : Span.IsCase { opening := caseKeyword, closing := endKeyword
                                   interior := .inline, keyword := true
                                   quote := Byte.ofAscii '"' } := ⟨rfl, rfl, rfl, rfl, rfl⟩
  have parentheses : Span.IsParenthesized { opening := ['('], closing := [')']
                                            interior := .inline
                                            quote := Byte.ofAscii '"' } := ⟨rfl, rfl, rfl, rfl, rfl⟩
  rw [firstMatch?_eq layout, firstMatch?_eq layout]
  refine rel_or ?_ (rel_or ?_ (rel_or ?_ (rel_or ?_ (rel_findSome? fun separator mem => ?_))))
  · exact rel_match?_inline before ahead (isLiteral_stringLiteral.closesAlike safe) rfl
      fun _ _ => rfl
  · exact rel_match?_inline before ahead (distinction.closesAlike safe) rfl fun _ _ => rfl
  · cases groups : s.groups with
    | false => exact .none
    | true => exact rel_match?_group before ahead safe groups
  · exact rel_match?_inline before ahead (parentheses.closesAlike safe) rfl fun _ _ => rfl
  · exact rel_match?_separator before overlooks mem

end Matching

/-- Two token lists with related texts between the same separators. -/
inductive DividedAlike (s : Separation) (t : Tokenizer) (inner inner' : Text → List Token)
    (pair : Text → Text → Prop) : List Token → List Token → Prop
  | last {x x' : Text} (holds : pair x x') : DividedAlike s t inner inner' pair (t.flat x) (t.flat x')
  | separated {x x' separator : Text} {tokens tokens' : List Token} (holds : pair x x')
    (mem : separator ∈ s.separators) (unmarked : '%' ∉ separator)
    (behind : DividedAlike s t inner inner' pair tokens tokens') :
    DividedAlike s t inner inner' pair (t.flat x ++ (t.flat separator ++ tokens))
      (t.flat x' ++ (t.flat separator ++ tokens'))
  | grouped {x x' contents contents' : Text} {tokens tokens' : List Token} (holds : pair x x')
    (groups : s.groups = true) (inside : pair contents contents')
    (behind : DividedAlike s t inner inner' pair tokens tokens') :
    DividedAlike s t inner inner' pair (t.flat x ++ .nested (inner contents) :: tokens)
      (t.flat x' ++ .nested (inner' contents') :: tokens')

/-- A flat token of both texts or of none. -/
theorem pairs_flat {pair : Text → Text → Prop} (similarity : Similarity names pair)
    (t : Tokenizer) {x x' : Text} (holds : pair x x') :
    List.Forall₂ (Token.Pairs pair) (t.flat x) (t.flat x') := by
  have visible : ∀ {y y' : Text}, pair y y' → List.Forall₂ (Token.Pairs pair)
      (if y.isEmpty then [] else [.text y]) (if y'.isEmpty then [] else [.text y']) := by
    intro y y' kept
    rw [(similarity.renamed kept).isEmpty_eq]
    split
    · exact .nil
    · exact .cons (.text kept) .nil
  unfold Tokenizer.flat
  refine visible ?_
  split
  · exact similarity.trim holds
  · exact holds

theorem DividedAlike.pairs {pair : Text → Text → Prop} (similarity : Similarity names pair)
    {t : Tokenizer} {inner inner' : Text → List Token} {tokens tokens' : List Token}
    (divided : s.DividedAlike t inner inner' pair tokens tokens')
    (inside : ∀ x x', pair x x' → List.Forall₂ (Token.Pairs pair) (inner x) (inner' x')) :
    List.Forall₂ (Token.Pairs pair) tokens tokens' := by
  induction divided with
  | last holds => exact pairs_flat similarity t holds
  | separated holds _ unmarked _ ih =>
    exact List.rel_append (pairs_flat similarity t holds)
      (List.rel_append (pairs_flat similarity t (similarity.unmarked unmarked)) ih)
  | grouped holds _ contents _ ih =>
    exact List.rel_append (pairs_flat similarity t holds) (.cons (.nested (inside _ _ contents)) ih)

section Running

variable {pair : Text → Text → Prop} (similarity : Similarity names pair) (safe : AreSafe names)
  {t : Tokenizer} (layout : t.symbols = s.symbols) (closed : s.closed = true)
  (overlooks : s.overlooksNames = true)
include similarity safe layout closed overlooks

omit similarity safe overlooks in
/-- A placeholder is passed. -/
theorem run_placeholder {inner : Text → List Token} {v : Text} (name : IsSafeName v)
    (seen rest : Text) :
    t.run inner seen .read ('%' :: (v ++ '%' :: rest))
      = t.run inner (('%' :: (v ++ ['%'])).reverse ++ seen) .read rest := by
  have sign : IsPlain '%' ∧ '%'.isAlpha = false := by unfold IsPlain; decide
  have word : t.Passes inner ('%' :: seen) v ('%' :: rest) := by
    refine passes_word layout closed name.1.2 ?_ fun keyword => absurd (.inl keyword) name.2
    rintro c ⟨⟩
    rfl
  have passes : t.Passes inner seen ('%' :: (v ++ ['%'])) rest :=
    .cons (passes_mark layout closed sign.1 sign.2 _)
      (.append word (passes_mark layout closed sign.1 sign.2 _))
  have passed : t.run inner seen .read (_ ++ rest) = _ := passes
  rwa [List.cons_append, List.append_assoc] at passed

omit safe layout closed overlooks in
/-- What is recognized in both texts divides both, and what lies behind it is divided later. -/
theorem dividedAlike_of_alike {inner inner' : Text → List Token} {c : Char} {m m' : Match}
    (alike : Match.Alike names s (c :: seen) (c :: seen') rest rest' m m')
    (found : t.firstMatch? (c :: seen) rest = some m)
    (found' : t.firstMatch? (c :: seen') rest' = some m')
    (before : Renamed (backward names) (c :: seen) (c :: seen')) (behind : Renamed names rest rest')
    (holds : pair (seen.reverse ++ c :: rest) (seen'.reverse ++ c :: rest'))
    (later : ∀ {seen seen' later later' : Text}, later.length ≤ rest.length →
      Renamed (backward names) seen seen' → Renamed names later later' →
      pair (seen.reverse ++ later) (seen'.reverse ++ later') →
      s.DividedAlike t inner inner' pair (t.run inner seen .read later)
        (t.run inner' seen' .read later')) :
    s.DividedAlike t inner inner' pair (t.run inner seen .read (c :: rest))
      (t.run inner' seen' .read (c :: rest')) := by
  have inFront : ∀ {seen front rest : Text}, front <+: (c :: seen).reverse →
      front <:+: seen.reverse ++ c :: rest := by
    intro seen front rest part
    have whole : (c :: seen).reverse ++ rest = seen.reverse ++ c :: rest := by simp
    exact part.isInfix.trans (whole ▸ List.prefix_append _ _).isInfix
  have ahead : ∀ {seen x later : Text}, later <:+ x → later <:+: seen.reverse ++ c :: x :=
    fun part => (part.trans ((List.suffix_cons _ _).trans (List.suffix_append _ _))).isInfix
  rw [Tokenizer.run_read_cons, Tokenizer.run_read_cons, found, found']
  cases alike with
  | @drawn x x' rest rest' split split' behind' =>
    subst split split'
    have inside := behind'.of_append_right behind
    simp only [Tokenizer.run_draw]
    refine later (List.length_append ▸ Nat.le_add_left _ _) (inside.reverse.append before) behind' ?_
    simpa using holds
  | @grouped front front' contents contents' rest rest' groups part part' outside split split'
      inside behind' =>
    subst split split'
    have shorter : rest.length ≤ (contents ++ ')' :: rest).length := by
      simp only [List.length_append, List.length_cons]
      omega
    have within : ∀ {seen contents rest : Text},
        contents <:+: seen.reverse ++ c :: (contents ++ ')' :: rest) := fun {seen _ rest} =>
      ⟨seen.reverse ++ [c], ')' :: rest, by simp⟩
    have next : ∀ {contents rest : Text}, rest <:+ contents ++ ')' :: rest :=
      fun {contents _} => ⟨contents ++ [')'], by simp⟩
    have divided := DividedAlike.grouped
      (similarity.part holds (inFront part) (inFront part') outside) groups
      (similarity.part holds within within inside)
      (later shorter .nil behind' (similarity.part holds (ahead next) (ahead next) behind'))
    simpa [Tokenizer.ofPiece, Tokenizer.run_drop_closed] using divided
  | separated mem unmarked part part' outside =>
    have divided := DividedAlike.separated
      (similarity.part holds (inFront part) (inFront part') outside) mem unmarked
      (later (Nat.le_refl _) .nil behind (similarity.part holds (ahead (List.suffix_refl _))
        (ahead (List.suffix_refl _)) behind))
    simpa [Tokenizer.ofPiece, Tokenizer.run_drop_zero] using divided

/-- **Renamed texts are divided at the same separators.** -/
theorem dividedAlike_run {inner inner' : Text → List Token} {ahead ahead' : Text}
    (before : Renamed (backward names) seen seen') (behind : Renamed names ahead ahead')
    (holds : pair (seen.reverse ++ ahead) (seen'.reverse ++ ahead')) :
    s.DividedAlike t inner inner' pair (t.run inner seen .read ahead)
      (t.run inner' seen' .read ahead') := by
  induction size : ahead.length using Nat.strong_induction_on
    generalizing seen seen' ahead ahead' with
  | h length ih =>
    subst size
    cases behind with
    | nil =>
      rw [List.append_nil, List.append_nil] at holds
      rw [Tokenizer.run, Tokenizer.run]
      exact .last holds
    | @placeholder v w rest rest' names' word word' behind =>
      obtain ⟨other, other'⟩ := safe v w names'
      have placeholder : Renamed names ('%' :: (v ++ ['%'])) ('%' :: (w ++ ['%'])) :=
        .placeholder names' word word' .nil
      rw [run_placeholder layout closed ⟨word, other⟩, run_placeholder layout closed ⟨word', other'⟩]
      refine ih rest.length ?_ (placeholder.reverse.append before) behind ?_ rfl
      · simp only [List.length_cons, List.length_append]
        omega
      · simpa using holds
    | @char c rest rest' other behind =>
      have front : Renamed (backward names) (c :: seen) (c :: seen') := .char other before
      rcases exists_of_rel (rel_firstMatch? front behind safe overlooks layout) with
        ⟨missed, missed'⟩ | ⟨m, m', alike, found, found'⟩
      · rw [Tokenizer.run_read_cons, Tokenizer.run_read_cons, missed, missed']
        refine ih rest.length (Nat.lt_succ_self _) front behind ?_ rfl
        simpa using holds
      · exact dividedAlike_of_alike similarity alike found found' front behind holds
          fun le before behind holds => ih _ (Nat.lt_succ_of_le le) before behind holds rfl

/-- **Renamed texts have the same tokens up to the names**, at any depth. -/
theorem pairs_tokenizeWithin (depth : Nat) {x x' : Text} (holds : pair x x') :
    List.Forall₂ (Token.Pairs pair) (t.tokenizeWithin depth x) (t.tokenizeWithin depth x') := by
  induction depth generalizing x x' with
  | zero => exact .nil
  | succ depth ih =>
    exact (dividedAlike_run similarity safe layout closed overlooks .nil (similarity.renamed holds)
      holds).pairs similarity fun _ _ holds => ih holds

/-- **Renamed texts are divided at the same separators** by the tokenizer itself. -/
theorem dividedAlike_tokenize {x x' : Text} (holds : pair x x') :
    ∃ depth, s.DividedAlike t (t.tokenizeWithin depth) (t.tokenizeWithin depth) pair (t.tokenize x)
      (t.tokenize x') := by
  refine ⟨x.length + x'.length, ?_⟩
  have deep : ∀ {y : Text}, y.length ≤ x.length + x'.length →
      t.tokenize y = t.tokenizeWithin (x.length + x'.length + 1) y := fun le =>
    tokenizeWithin_eq layout (Nat.lt_succ_self _) (Nat.lt_succ_of_le le)
  rw [deep (Nat.le_add_right _ _), deep (Nat.le_add_left _ _)]
  exact dividedAlike_run similarity safe layout closed overlooks .nil (similarity.renamed holds) holds

/-- **Renamed texts have the same tokens up to the names.** -/
theorem pairs_tokenize {x x' : Text} (holds : pair x x') :
    List.Forall₂ (Token.Pairs pair) (t.tokenize x) (t.tokenize x') := by
  obtain ⟨depth, divided⟩ := dividedAlike_tokenize similarity safe layout closed overlooks holds
  exact divided.pairs similarity fun _ _ holds =>
    pairs_tokenizeWithin similarity safe layout closed overlooks depth holds

end Running

end Separation

end RecordMapper
