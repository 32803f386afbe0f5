import RecordMapper.Proofs.Text.Nested
import RecordMapper.Proofs.Token.Mentions

/-!
Places in a text that no span encloses.

String literals, case distinctions and text in parentheses are taken whole by all tokenizers, so
these look at one another's places alike: a place is free if no span that is opened before it is
closed behind it (`Text.IsFree`). **Where a place is free, every tokenizer reads on from there**,
with nothing in the current token but what stands behind the last cut
(`Separation.run_of_isFree`).
-/

namespace RecordMapper

open Text

/-! ### Spans that are taken whole -/

namespace Symbol

/-- The span that is opened by the last character of `seen` and taken whole. -/
def span? (seen rest : Text) : Option Match :=
  [stringLiteral, caseDistinction, parentheses].findSome? (match? seen rest)

theorem span?_eq (seen rest : Text) :
    span? seen rest = (stringLiteral.match? seen rest).or
      ((caseDistinction.match? seen rest).or (parentheses.match? seen rest)) := by
  simp only [span?, List.findSome?_cons, List.findSome?_nil]
  cases stringLiteral.match? seen rest <;> cases caseDistinction.match? seen rest <;>
    cases parentheses.match? seen rest <;> rfl

/-- What an inline span takes depends on the text ahead only. -/
theorem match?_congr {s : Span} (inline : s.interior = .inline)
    (free : ∀ before behind, s.guard before behind = true) {seen seen' rest : Text}
    (same : (s.openAtEnd? seen rest).isSome = (s.openAtEnd? seen' rest).isSome) :
    match? seen rest (.span s) = match? seen' rest (.span s) := by
  rw [match?, match?]
  cases opened : s.openAtEnd? seen rest with
  | none =>
    cases opened' : s.openAtEnd? seen' rest with
    | none => rfl
    | some => simp [opened, opened'] at same
  | some =>
    cases opened' : s.openAtEnd? seen' rest with
    | none => simp [opened, opened'] at same
    | some =>
      cases s.close? rest with
      | none => rfl
      | some => simp [free, inline]

/-- A token was cut off before, and nothing is read across the cut. -/
def IsCut (before : Text) : Prop :=
  ∀ d ∈ before.head?, d = ' ' ∨ d = ',' ∨ d = ')'

variable {c : Char} {buffer before rest : Text}

theorem IsCut.isStop (cut : IsCut before) : IsStop before := by
  intro d mem
  rcases cut d mem with rfl | rfl | rfl
  all_goals exact ⟨rfl, by decide⟩

theorem standsAlone_append (cut : IsCut before) (front : Text) (behind : Option Char) :
    standsAlone (front ++ before).head? behind = standsAlone front.head? behind := by
  cases front with
  | cons d front => rfl
  | nil =>
    cases before with
    | nil => rfl
    | cons d before =>
      rcases cut d rfl with rfl | rfl | rfl
      all_goals rfl

/-- **The same spans are found behind a cut.** -/
theorem span?_append (cut : IsCut before) (c : Char) (buffer rest : Text) :
    span? (c :: (buffer ++ before)) rest = span? (c :: buffer) rest := by
  have single : ∀ {s : Span} {d : Char}, s.keyword = false → s.opening = [d] →
      (s.openAtEnd? (c :: (buffer ++ before)) rest).isSome
        = (s.openAtEnd? (c :: buffer) rest).isSome := by
    intro s d plain opening
    simp only [Span.openAtEnd?, plain, opening, List.reverse_singleton, after?]
    cases agree false d c <;> rfl
  have literal : stringLiteral.match? (c :: (buffer ++ before)) rest
      = stringLiteral.match? (c :: buffer) rest :=
    match?_congr rfl (fun _ _ => rfl) (single rfl rfl)
  have parenthesized : parentheses.match? (c :: (buffer ++ before)) rest
      = parentheses.match? (c :: buffer) rest :=
    match?_congr rfl (fun _ _ => rfl) (single rfl rfl)
  have distinction : caseDistinction.match? (c :: (buffer ++ before)) rest
      = caseDistinction.match? (c :: buffer) rest := by
    refine match?_congr rfl (fun _ _ => rfl) ?_
    have letters : ∀ a ∈ caseKeyword.reverse, a.isAlpha = true :=
      fun a mem => letters_caseKeyword a (List.mem_reverse.1 mem)
    have read := cut.isStop.after?_append letters (c :: buffer)
    rw [List.cons_append] at read
    simp only [Span.openAtEnd?, read]
    cases after? true caseKeyword.reverse (c :: buffer) with
    | none => rfl
    | some front =>
      simp only [Option.map_some, standsAlone_append cut]
      cases standsAlone front.head? rest.head? <;> rfl
  rw [span?_eq, span?_eq, literal, parenthesized, distinction]

/-- The word closes a span. -/
def IsCloser (word : Text) : Prop :=
  word = ['"'] ∨ word = [')'] ∨ sameLetters endKeyword word = true

/-- An inline span draws the text up to the delimiter that closes it. -/
theorem exists_of_inline {s : Span} (ascii : s.IsAscii) (inline : s.interior = .inline) {seen : Text}
    {m : Match} (found : match? seen rest (.span s) = some m) :
    ∃ contents word behind, rest = contents ++ (word ++ behind)
      ∧ List.Forall₂ (fun a b => agree s.keyword a b = true) s.closing word
      ∧ m = .extend (contents ++ word).length := by
  obtain ⟨_, contents, behind, -, closes, rfl⟩ := exists_of_match? inline found
  rw [ascii.close?_eq_seek?] at closes
  obtain ⟨rest, rfl, standing⟩ := Span.exists_of_seek? closes
  obtain ⟨word, all, rfl⟩ := Span.exists_of_standing? standing
  refine ⟨contents, word, behind, rfl, all, ?_⟩
  congr 1
  simp only [List.length_append]
  omega

/-- A case distinction draws the text up to the keyword that closes it. -/
theorem exists_end_of_caseDistinction {seen : Text} {m : Match}
    (found : caseDistinction.match? seen rest = some m) :
    ∃ contents word behind, rest = contents ++ (word ++ behind)
      ∧ sameLetters endKeyword word = true ∧ m = .extend (contents ++ word).length := by
  obtain ⟨contents, word, behind, split, all, same⟩ :=
    exists_of_inline (Span.IsCase.isAscii ⟨rfl, rfl, rfl, rfl, rfl⟩) rfl found
  exact ⟨contents, word, behind, split, sameLetters_iff.2 all, same⟩

/-- A span that is found draws the text up to where it is closed. -/
theorem exists_of_span? {c : Char} {seen rest : Text} {m : Match}
    (found : span? (c :: seen) rest = some m) :
    ∃ contents word behind, rest = contents ++ (word ++ behind) ∧ IsCloser word
      ∧ m = .extend (contents ++ word).length := by
  have single : ∀ {d : Char} {word : Text},
      List.Forall₂ (fun a b => agree false a b = true) [d] word → word = [d] := by
    rintro d word (_ | ⟨same, ⟨⟩⟩)
    rw [eq_of_beq (show (d == _) = true from same)]
  rw [span?_eq] at found
  rcases Option.or_eq_some_iff.1 found with literal | ⟨-, found⟩
  · obtain ⟨contents, word, behind, split, all, same⟩ :=
      exists_of_inline Separation.isLiteral_stringLiteral.isAscii rfl literal
    exact ⟨contents, word, behind, split, .inl (single all), same⟩
  rcases Option.or_eq_some_iff.1 found with distinction | ⟨-, parentheses⟩
  · obtain ⟨contents, word, behind, split, spelled, same⟩ :=
      exists_end_of_caseDistinction distinction
    exact ⟨contents, word, behind, split, .inr (.inr spelled), same⟩
  · obtain ⟨contents, word, behind, split, all, same⟩ :=
      exists_of_inline (Span.IsParenthesized.isAscii ⟨rfl, rfl, rfl, rfl, rfl⟩) rfl parentheses
    exact ⟨contents, word, behind, split, .inr (.inl (single all)), same⟩

end Symbol

/-! ### Free places -/

/-- No span encloses the place between what was read, with its last character first, and the rest:
no literal, case distinction or text in parentheses that is opened before it is closed behind it. -/
inductive Text.IsFree : (seen rest : Text) → Prop
  | start (t : Text) : IsFree [] t
  | char {seen : Text} {c : Char} {rest : Text} (before : IsFree seen (c :: rest))
    (none : Symbol.span? (c :: seen) rest = none) : IsFree (c :: seen) rest
  | span {seen : Text} {c : Char} {x rest : Text} (before : IsFree seen (c :: (x ++ rest)))
    (taken : Symbol.span? (c :: seen) (x ++ rest) = some (.extend x.length)) :
    IsFree (x.reverse ++ c :: seen) rest

namespace Text

/-- Where no span is opened, every place is free. -/
theorem isFree_of_passesOver {x : Text}
    (passes : Separation.passesOver ⟨false, [], false⟩ true [] x = true) (rest : Text) :
    IsFree x.reverse rest := by
  have ahead : ∀ ahead read : Text, Separation.passesOver ⟨false, [], false⟩ true read ahead = true →
      IsFree read (ahead ++ rest) → IsFree (ahead.reverse ++ read) rest := by
    intro ahead
    induction ahead with
    | nil => exact fun _ _ free => free
    | cons c ahead ih =>
      intro read passes free
      rw [Separation.passesOver, Bool.and_eq_true] at passes
      have missed := @Separation.firstMatch?_eq_none_of_misses _
        { symbols := [.stringLiteral, .caseDistinction, .parentheses] } rfl [] _ _ passes.1
        (fun _ => rfl) (ahead ++ rest)
      rw [List.append_nil] at missed
      rw [List.reverse_cons, List.append_assoc]
      exact ih (c :: read) passes.2 (.char free missed)
  have found := ahead x [] passes (.start _)
  rwa [List.append_nil] at found

/-- What closes a span stands in front of a text that closes none. -/
theorem exists_of_closer {contents word behind ahead rest : Text}
    (start : ∀ d ∈ rest.head?, d.isAlpha = false)
    (unclosing : ∀ d ∈ rest, d ≠ '"' ∧ d ≠ ')' ∧ agree true 'E' d = false)
    (closer : Symbol.IsCloser word) (split : ahead ++ rest = contents ++ (word ++ behind)) :
    ∃ more, ahead = contents ++ (word ++ more) := by
  have first : ∀ d ∈ word.head?, d ∉ rest := by
    intro d head mem
    obtain ⟨quote, parenthesis, letter⟩ := unclosing d mem
    rcases closer with rfl | rfl | same
    · exact quote (Option.some.inj head).symm
    · exact parenthesis (Option.some.inj head).symm
    · obtain ⟨e, word, rfl, agrees⟩ := exists_cons_of_sameLetters same
      cases head
      rw [agrees] at letter
      cases letter
  have nonempty : word ≠ [] := by
    rintro rfl
    rcases closer with closer | closer | closer
    all_goals cases closer
  rw [← List.append_assoc] at split
  rcases List.append_eq_append_iff.1 split with ⟨excess, whole, same⟩ | ⟨more, rfl, -⟩
  · cases excess with
    | nil => exact ⟨[], by rw [List.append_nil] at whole ⊢; exact whole.symm⟩
    | cons d excess =>
      -- the word would reach into the rest
      have head : d ∈ rest.head? := by
        rw [same]
        rfl
      have letter := start d head
      rcases List.append_eq_append_iff.1 whole with ⟨begun, -, begins⟩ | ⟨later, -, reaches⟩
      · obtain ⟨quote, parenthesis, -⟩ := unclosing d (List.mem_of_mem_head? head)
        have inside : d ∈ word := by simp [begins]
        rcases closer with rfl | rfl | same
        · exact absurd (List.mem_singleton.1 inside) quote
        · exact absurd (List.mem_singleton.1 inside) parenthesis
        · rw [isAlpha_of_forall₂ letters_endKeyword (sameLetters_iff.1 same) d inside] at letter
          cases letter
      · obtain ⟨e, word, rfl⟩ := List.exists_cons_of_ne_nil nonempty
        refine absurd ?_ (first e rfl)
        rw [same, reaches]
        simp
  · exact ⟨more, List.append_assoc ..⟩

/-- Behind any text a place is free, if nothing ahead closes a span. -/
theorem isFree_of_unclosing {rest : Text} (start : ∀ d ∈ rest.head?, d.isAlpha = false)
    (unclosing : ∀ d ∈ rest, d ≠ '"' ∧ d ≠ ')' ∧ agree true 'E' d = false) (x : Text) :
    IsFree x.reverse rest := by
  -- the induction is on the length of what is still ahead of the place
  have ahead : ∀ n (ahead read : Text), ahead.length ≤ n → IsFree read (ahead ++ rest) →
      IsFree (ahead.reverse ++ read) rest := by
    intro n
    induction n with
    | zero =>
      intro ahead read short free
      obtain rfl := List.length_eq_zero_iff.1 (Nat.le_zero.1 short)
      exact free
    | succ n ih =>
      intro ahead read short free
      cases ahead with
      | nil => exact free
      | cons c ahead =>
        rw [List.length_cons, Nat.succ_le_succ_iff] at short
        rw [List.reverse_cons, List.append_assoc]
        cases found : Symbol.span? (c :: read) (ahead ++ rest) with
        | none => exact ih ahead (c :: read) short (.char free found)
        | some m =>
          obtain ⟨contents, word, behind, split, closer, rfl⟩ := Symbol.exists_of_span? found
          obtain ⟨more, rfl⟩ := exists_of_closer start unclosing closer split
          have behind := ih more ((contents ++ word).reverse ++ c :: read)
            (by simp only [List.length_append] at short; omega)
            (.span (by simpa using free) (by simpa using found))
          simpa using behind
  have found := ahead x.length x [] (Nat.le_refl _) (.start _)
  rwa [List.append_nil] at found

/-- A literal at the start of the text is closed in front of a free place. -/
theorem IsFree.exists_of_literal {seen rest behind contents tail : Text} (free : IsFree seen rest)
    (begun : seen ≠ []) (whole : seen.reverse ++ rest = '"' :: behind)
    (read : literal? behind = some (contents, tail)) : ∃ z, tail = z ++ rest := by
  obtain ⟨rfl, -⟩ := exists_of_literalFrom? (by decide) read
  have taken : Symbol.span? ['"'] (contents ++ '"' :: tail)
      = some (.extend (contents.length + 1)) := by
    have found := Separation.stringLiteral_match?_closed read [] tail
    rw [List.append_assoc, List.singleton_append, List.length_append] at found
    rw [Symbol.span?_eq, found]
    rfl
  induction free with
  | start => exact absurd rfl begun
  | @char seen c rest _ none ih =>
    cases seen with
    | nil =>
      obtain ⟨rfl, rfl⟩ := List.cons.inj whole
      rw [taken] at none
      cases none
    | cons d seen =>
      obtain ⟨z, rfl⟩ := ih (List.cons_ne_nil d seen) (by simpa using whole)
      exact ⟨z ++ [c], by simp⟩
  | @span seen c x rest _ found ih =>
    cases seen with
    | nil =>
      have split : '"' :: (contents ++ '"' :: tail) = c :: (x ++ rest) := by simpa using whole.symm
      obtain ⟨rfl, same⟩ := List.cons.inj split
      rw [same] at taken
      rw [taken] at found
      injection found with found
      injection found with length
      have split : contents ++ ['"'] ++ tail = x ++ rest := by simpa using same
      exact ⟨[], (List.append_inj split (by simpa using length)).2⟩
    | cons d seen =>
      obtain ⟨z, rfl⟩ := ih (List.cons_ne_nil d seen) (by simpa using whole)
      exact ⟨z ++ c :: x, by simp⟩

end Text

namespace Separation

section Reading

variable {s : Separation} {t : Tokenizer} (layout : t.symbols = s.symbols)
  {c : Char} {seen rest : Text}
include layout

/-- Where no span is found there is no group either. -/
theorem firstMatch?_of_span?_eq_none (none : Symbol.span? (c :: seen) rest = none) :
    t.firstMatch? (c :: seen) rest = s.separators.findSome? fun separator =>
      (Symbol.literal separator s.ignoreCase).match? (c :: seen) rest := by
  rw [Symbol.span?_eq, Option.or_eq_none_iff, Option.or_eq_none_iff] at none
  obtain ⟨literal, distinction, parentheses⟩ := none
  have group : Connected.group.match? (c :: seen) rest = Option.none := by
    cases found : Connected.group.match? (c :: seen) rest with
    | none => rfl
    | some m =>
      obtain ⟨contents, behind, rfl, closes, -⟩ := exists_of_group found
      have opened : Span.openAtEnd? { opening := ['('], closing := [')'], interior := .inline
                                      quote := Byte.ofAscii '"' } ('(' :: seen) rest
          = some seen.reverse := Span.openAtEnd?_cons rfl rfl seen rest
      have parenthesized : Span.IsParenthesized { opening := ['('], closing := [')']
                                                  interior := .inline, quote := Byte.ofAscii '"' } :=
        ⟨rfl, rfl, rfl, rfl, rfl⟩
      rw [Symbol.parentheses, Symbol.match?, opened] at parentheses
      simp [parenthesized.close?_eq_closing?, closes] at parentheses
  rw [firstMatch?_eq layout, literal, distinction, parentheses, group]
  cases s.groups <;> rfl

/-- A span that is found is taken whole, or out as a group. -/
theorem firstMatch?_of_span? {m : Match} (found : Symbol.span? (c :: seen) rest = some m) :
    t.firstMatch? (c :: seen) rest = some m
      ∨ ∃ contents behind, c = '(' ∧ rest = contents ++ ')' :: behind
        ∧ m = .extend (contents.length + 1)
        ∧ t.firstMatch? (c :: seen) rest
          = some (.split seen.reverse [.interior contents] (contents.length + 1)) := by
  rw [firstMatch?_eq layout]
  rw [Symbol.span?_eq] at found
  rcases Option.or_eq_some_iff.1 found with literal | ⟨literal, found⟩
  · exact .inl (by rw [literal]; rfl)
  rcases Option.or_eq_some_iff.1 found with distinction | ⟨distinction, parentheses⟩
  · exact .inl (by rw [literal, distinction]; rfl)
  rw [literal, distinction, parentheses]
  cases group : if s.groups then Connected.group.match? (c :: seen) rest else none with
  | none => exact .inl rfl
  | some split =>
    have taken : Connected.group.match? (c :: seen) rest = some split := by
      split at group
      · exact group
      · cases group
    obtain ⟨contents, behind, rfl, closes, rfl, -, -, rfl⟩ := exists_of_group taken
    refine .inr ⟨contents, behind, rfl, rfl, ?_, rfl⟩
    obtain ⟨_, contents', behind', -, closes', rfl⟩ := Symbol.exists_of_match? rfl parentheses
    have parenthesized : Span.IsParenthesized { opening := ['('], closing := [')']
                                                interior := .inline, quote := Byte.ofAscii '"' } :=
      ⟨rfl, rfl, rfl, rfl, rfl⟩
    rw [parenthesized.close?_eq_closing?, closes] at closes'
    cases closes'
    congr 1
    simp only [List.length_append, List.length_cons]
    omega

omit layout in
theorem cut_of_separator (closed : s.closed = true) {separator front : Text}
    (mem : separator ∈ s.separators)
    (after : after? s.ignoreCase separator.reverse (c :: seen) = some front) :
    c = ' ' ∨ c = ',' := by
  have last := List.all_eq_true.1 closed separator mem
  rw [← List.head?_reverse] at last
  cases reversed : separator.reverse with
  | nil =>
    rw [reversed] at last
    cases last
  | cons d start =>
    rw [reversed] at last after
    have mark : d = ' ' ∨ d = ',' := by simpa using last
    obtain ⟨word, all, split⟩ := after?_eq_some_iff.1 after
    cases all with
    | cons same _ =>
      obtain ⟨rfl, -⟩ := List.cons.inj split
      rcases mark with rfl | rfl
      · exact .inl (eq_of_agree rfl same).symm
      · exact .inr (eq_of_agree rfl same).symm

/-- **Where a place is free, a tokenizer reads on from there.** The current token is all that was
read, or what was read since the last cut. -/
theorem run_of_isFree (closed : s.closed = true)
    (written : ∀ separator ∈ s.separators, t.flat separator ≠ []) (free : IsFree seen rest)
    (inner : Text → List Token) :
    ∃ tokens buffer before, seen = buffer ++ before
      ∧ (before = [] ↔ tokens = []) ∧ Symbol.IsCut before
      ∧ t.run inner [] .read (seen.reverse ++ rest) = tokens ++ t.run inner buffer .read rest := by
  induction free with
  | start rest => exact ⟨[], [], [], rfl, by simp, nofun, rfl⟩
  | @char seen c rest _ none ih =>
    obtain ⟨tokens, buffer, before, rfl, first, cut, run⟩ := ih
    rw [Symbol.span?_append cut] at none
    have whole : (c :: (buffer ++ before)).reverse ++ rest
        = (buffer ++ before).reverse ++ c :: rest := by simp
    rw [whole, run, Tokenizer.run_read_cons]
    cases found : t.firstMatch? (c :: buffer) rest with
    | none => exact ⟨tokens, c :: buffer, before, rfl, first, cut, rfl⟩
    | some m =>
      rw [firstMatch?_of_span?_eq_none layout none] at found
      obtain ⟨separator, mem, found⟩ := List.exists_of_findSome?_eq_some found
      obtain ⟨front, after, rfl⟩ := Symbol.exists_of_literal found
      refine ⟨tokens ++ (t.flat front.reverse ++ t.flat separator), [], c :: (buffer ++ before), rfl,
        by simp [written separator mem], ?_, ?_⟩
      · rintro d ⟨⟩
        rcases cut_of_separator closed mem after with rfl | rfl
        · exact .inl rfl
        · exact .inr (.inl rfl)
      · simp [Tokenizer.ofPiece, Tokenizer.run_drop_zero]
  | @span seen c x rest _ taken ih =>
    obtain ⟨tokens, buffer, before, rfl, first, cut, run⟩ := ih
    rw [Symbol.span?_append cut] at taken
    have whole : (x.reverse ++ c :: (buffer ++ before)).reverse ++ rest
        = (buffer ++ before).reverse ++ c :: (x ++ rest) := by simp
    rw [whole, run, Tokenizer.run_read_cons]
    rcases firstMatch?_of_span? layout taken with extend | ⟨contents, behind, rfl, split, same, group⟩
    · rw [extend]
      refine ⟨tokens, x.reverse ++ c :: buffer, before, by simp, first, cut, ?_⟩
      simp only [Tokenizer.run_draw]
    · have length : x.length = contents.length + 1 := by
        injection same
      have closes : contents ++ ')' :: behind = contents ++ [')'] ++ behind := by simp
      rw [closes] at split
      obtain ⟨rfl, rfl⟩ := List.append_inj split (by simp [length])
      rw [group]
      refine ⟨tokens ++ (t.flat buffer.reverse ++ [.nested (inner contents)]), [],
        (contents ++ [')']).reverse ++ '(' :: (buffer ++ before), rfl, by simp, ?_, ?_⟩
      · rw [List.reverse_append]
        rintro d ⟨⟩
        exact .inr (.inr rfl)
      · simp only [List.flatMap_cons, List.flatMap_nil, Tokenizer.ofPiece, List.append_nil,
          List.append_assoc, List.singleton_append, Tokenizer.run_drop_closed]

end Reading

end Separation

end RecordMapper
