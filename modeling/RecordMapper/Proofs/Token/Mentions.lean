import RecordMapper.Proofs.Text.Mentions
import RecordMapper.Proofs.Token.Seek

/-!
Tokenizers keep the field references that a text mentions.

A span that knows quotes ends outside literals, as the scan of literals has it
(`Span.across_of_seek?`), and the tokenizer takes a literal for closed where the scan does
(`Span.IsLiteral.close?_eq_literal?`). So one step of a tokenizer draws whole spans into the current
token, takes out a group or splits at a separator (`Separation.Step`), and none of that cuts a
reference: **what a text mentions is mentioned in one of the parts that its tokens are made of**
(`Separation.divided_run`).
-/

namespace RecordMapper

open Text

/-! ### Spans -/

namespace Span

variable {s : Span} {depth skip : Nat} {quoted : Bool} {before : Option Char} {t : Text}

theorem sameByte_iff {c d : Char} (ascii : Text.IsAscii d) :
    (decide (Text.IsAscii c) && some (Byte.ofAscii d) == some (Byte.ofAscii c)) = true ↔ c = d := by
  rw [Bool.and_eq_true, decide_eq_true_iff, beq_iff_eq, Option.some.injEq]
  constructor
  · rintro ⟨ascii_c, same⟩
    exact ((ofAscii_inj ascii ascii_c).1 same).symm
  · rintro rfl
    exact ⟨ascii, rfl⟩

/-- What agrees with a delimiter holds no quote, if the delimiter holds none. -/
theorem unquoted_of_standing? {delimiter rest : Text} (unquoted : '"' ∉ delimiter)
    (found : s.standing? delimiter before t = some rest) : '"' ∉ t.take delimiter.length := by
  obtain ⟨word, all, rfl⟩ := exists_of_standing? found
  rw [all.length_eq, List.take_left]
  intro mem
  obtain ⟨a, member, same⟩ := exists_agree_of_mem all mem
  rw [agree_comm] at same
  exact unquoted (eq_of_agree rfl same ▸ member)

/-! ### Spans that know quotes -/

/-- Where the search for the close of a span stands with respect to literals. -/
def mode (quoted : Bool) (skip : Nat) : Mode :=
  if quoted then if skip = 0 then .quoted else .escaped else .plain

/-- The search knows quotes, and there are none in the delimiters. -/
structure KnowsQuotes (s : Span) : Prop where
  quote : s.quote = some (Byte.ofAscii '"')
  escape : s.escape = none
  opening : '"' ∉ s.opening
  closing : '"' ∉ s.closing

/-- What the search does not look at: in a literal the character behind a backslash, and outside
literals the rest of a delimiter, which holds no quote. -/
def Skips (skip : Nat) (quoted : Bool) (t : Text) : Prop :=
  if quoted then skip ≤ 1 else '"' ∉ t.take skip

theorem skips_zero (quoted : Bool) (t : Text) : Skips 0 quoted t := by
  cases quoted with
  | true => exact Nat.zero_le 1
  | false => exact List.not_mem_nil

/-- Behind its first character a delimiter without quotes is skipped. -/
theorem skips_of_unquoted {n : Nat} (unquoted : '"' ∉ (c :: t).take n) : Skips (n - 1) false t := by
  cases n with
  | zero => exact skips_zero false t
  | succ n => exact fun mem => unquoted (List.mem_cons_of_mem c mem)

/-- A step of the search: it ends outside literals, or goes on behind a character, and then it
stands in a literal if the character leaves it in one. -/
theorem exists_of_seek?_cons (knows : s.KnowsQuotes) {inner behind : Text}
    (found : seek? s depth skip quoted before (c :: t) = some (inner, behind))
    (skipped : Skips skip quoted (c :: t)) :
    mode quoted skip = .plain ∧ inner = [] ∨
      ∃ depth' skip' quoted', prependFound c (seek? s depth' skip' quoted' (some c) t)
          = some (inner, behind)
        ∧ (mode quoted skip).after c = mode quoted' skip' ∧ Skips skip' quoted' t := by
  have quote : s.isQuote c = true ↔ c = '"' := by
    rw [isQuote, knows.quote]
    exact sameByte_iff (by decide)
  cases quoted with
  | true =>
    cases skip with
    | succ skip =>
      obtain rfl : skip = 0 := by simpa [Skips] using skipped
      rw [seek?] at found
      exact .inr ⟨_, _, _, found, rfl, skips_zero true t⟩
    | zero =>
      rw [seek?] at found
      split at found
      · rename_i backslash
        exact .inr ⟨_, _, _, found, by simp [mode, Mode.after, backslash], Nat.le_refl 1⟩
      · rename_i other
        refine .inr ⟨_, _, _, found, ?_, skips_zero _ t⟩
        by_cases closes : c = '"'
        · rw [quote.2 closes]
          simp [mode, Mode.after, closes]
        · rw [Bool.eq_false_iff.2 (mt quote.1 closes)]
          simp [mode, Mode.after, closes, other]
  | false =>
    have unquoted : c ≠ '"' → (mode false skip).after c = .plain := after_plain_of_ne
    cases skip with
    | succ skip =>
      have first : c ≠ '"' := fun same => skipped (same ▸ List.mem_cons_self ..)
      rw [seek?] at found
      exact .inr ⟨_, _, _, found, unquoted first, skips_of_unquoted skipped⟩
    | zero =>
      have escape : s.isEscape c = false := by simp [isEscape, knows.escape]
      simp only [seek?, escape, quote, Bool.false_eq_true, if_false] at found
      split at found
      · rename_i opens
        exact .inr ⟨_, _, _, found, by simp [mode, Mode.after, opens], skips_zero true t⟩
      · rename_i other
        split at found
        · obtain ⟨rfl, -⟩ := Prod.mk.inj (Option.some.inj found)
          exact .inl ⟨rfl, rfl⟩
        · rename_i closed
          exact .inr ⟨_, _, _, found, unquoted other,
            skips_of_unquoted (unquoted_of_standing? knows.closing closed)⟩
        · split at found
          · rename_i opens
            obtain ⟨rest, opened⟩ := Option.isSome_iff_exists.1 opens.2
            exact .inr ⟨_, _, _, found, unquoted other,
              skips_of_unquoted (unquoted_of_standing? knows.opening opened)⟩
          · exact .inr ⟨_, _, _, found, unquoted other, skips_zero false t⟩

/-- **A span that knows quotes ends outside literals.** -/
theorem across_of_seek? (knows : s.KnowsQuotes) {inner behind : Text}
    (found : seek? s depth skip quoted before t = some (inner, behind))
    (skipped : Skips skip quoted t) : (mode quoted skip).across inner = .plain := by
  induction t generalizing depth skip quoted before inner with
  | nil => simp [seek?] at found
  | cons c t ih =>
    rcases exists_of_seek?_cons knows found skipped with
      ⟨plain, rfl⟩ | ⟨depth', skip', quoted', prepended, next, skipped'⟩
    · exact plain
    · obtain ⟨inner', later, rfl⟩ := exists_of_prependFound prepended
      rw [Mode.across_cons, next]
      exact ih later skipped'

theorem IsParenthesized.knowsQuotes (parenthesized : s.IsParenthesized) : s.KnowsQuotes := by
  obtain ⟨opening, closing, -, quote, escape⟩ := parenthesized
  exact ⟨quote, escape, by simp [opening], by simp [closing]⟩

theorem IsCase.knowsQuotes (distinction : s.IsCase) : s.KnowsQuotes := by
  obtain ⟨opening, closing, -, quote, escape⟩ := distinction
  exact ⟨quote, escape, by simp [opening, caseKeyword], by simp [closing, endKeyword]⟩

/-- What a span encloses, the closing delimiter as it is written, and the rest make up the text. -/
theorem exists_of_close? (ascii : s.IsAscii) (knows : s.KnowsQuotes) {inner behind : Text}
    (found : s.close? t = some (inner, behind)) :
    ∃ word, List.Forall₂ (fun a b => agree s.keyword a b = true) s.closing word
      ∧ t = inner ++ (word ++ behind) ∧ Mode.plain.across inner = .plain := by
  rw [ascii.close?_eq_seek?] at found
  obtain ⟨rest, rfl, closing⟩ := exists_of_seek? found
  obtain ⟨word, all, rfl⟩ := exists_of_standing? closing
  exact ⟨word, all, rfl, across_of_seek? knows found List.not_mem_nil⟩

/-! ### String literals -/

/-- The search for the quote that closes a literal is the scan for it. -/
theorem IsLiteral.seek?_eq (literal : s.IsLiteral) (small : skip ≤ 1) (before : Option Char) :
    seek? s 0 skip false before t = literalFrom? (mode true skip) t := by
  have quote : ∀ c, s.isQuote c = false := by simp [isQuote, literal.quote]
  have escape : ∀ {c}, s.isEscape c = true ↔ c = '\\' := by
    intro c
    rw [isEscape, literal.escape]
    exact sameByte_iff (by decide)
  have same : s.opening = s.closing := literal.opening.trans literal.closing.symm
  induction t generalizing skip before with
  | nil => cases skip <;> simp [seek?, literalFrom?]
  | cons c t ih =>
    rcases Nat.le_one_iff_eq_zero_or_eq_one.1 small with rfl | rfl
    · have closing : s.standing? s.closing before (c :: t) = if c = '"' then some t else none := by
        simp only [standing?, literal.closing, literal.keyword, after?, agree]
        by_cases closes : c = '"'
        · simp [closes]
        · simp [closes, Ne.symm closes]
      simp only [seek?, escape, quote, closing, same]
      by_cases backslash : c = '\\'
      · simp [literalFrom?, mode, Mode.after, backslash, ih, prependFound]
      · by_cases closes : c = '"'
        · simp [literalFrom?, mode, Mode.after, closes]
        · simp [literalFrom?, mode, Mode.after, backslash, closes, ih, prependFound]
    · simp [seek?, literalFrom?, mode, Mode.after, ih, prependFound]

theorem IsLiteral.close?_eq_literal? (literal : s.IsLiteral) : s.close? t = literal? t := by
  rw [literal.isAscii.close?_eq_seek?]
  exact literal.seek?_eq (Nat.zero_le 1) none

/-! ### Parentheses -/

/-- The search for the parenthesis that closes one is the scan for it. -/
theorem IsParenthesized.seek?_eq (parenthesized : s.IsParenthesized) (small : skip ≤ 1)
    (free : quoted = false → skip = 0) (before : Option Char) :
    seek? s depth skip quoted before t = closingFrom? depth (mode quoted skip) t := by
  have quote : ∀ {c}, s.isQuote c = decide (c = '"') := by
    intro c
    rw [isQuote, parenthesized.quote, Bool.eq_iff_iff, decide_eq_true_iff]
    exact sameByte_iff (by decide)
  have escape : ∀ c, s.isEscape c = false := by simp [isEscape, parenthesized.escape]
  have closing : ∀ before c t, s.standing? s.closing before (c :: t)
      = if c = ')' then some t else none := by
    intro before c t
    simp only [standing?, parenthesized.closing, parenthesized.keyword, after?, agree]
    by_cases closes : c = ')'
    · simp [closes]
    · simp [closes, Ne.symm closes]
  have opening : ∀ before c t,
      (s.standing? s.opening before (c :: t)).isSome = decide (c = '(') := by
    intro before c t
    simp only [standing?, parenthesized.opening, parenthesized.keyword, after?, agree]
    by_cases opens : c = '('
    · simp [opens]
    · simp [opens, Ne.symm opens]
  have differ : s.opening ≠ s.closing := by simp [parenthesized.opening, parenthesized.closing]
  have single : s.closing.length - 1 = 0 ∧ s.opening.length - 1 = 0 := by
    simp [parenthesized.opening, parenthesized.closing]
  induction t generalizing depth skip quoted before with
  | nil => cases skip <;> simp [seek?, closingFrom?]
  | cons c t ih =>
    cases quoted with
    | true =>
      rcases Nat.le_one_iff_eq_zero_or_eq_one.1 small with rfl | rfl
      · by_cases backslash : c = '\\'
        · simp [seek?, closingFrom?, mode, Mode.after, backslash, ih, prependFound]
        · by_cases closes : c = '"'
          · simp [seek?, closingFrom?, mode, Mode.after, closes, quote, ih, prependFound]
          · simp [seek?, closingFrom?, mode, Mode.after, backslash, closes, quote, ih,
              prependFound]
      · simp [seek?, closingFrom?, mode, Mode.after, ih, prependFound]
    | false =>
      obtain rfl := free rfl
      by_cases quotes : c = '"'
      · simp [seek?, closingFrom?, mode, Mode.after, quotes, quote, escape, ih, prependFound]
      · by_cases closes : c = ')'
        · cases depth with
          | zero => simp [seek?, closingFrom?, mode, closes, quote, escape, closing]
          | succ depth =>
            simp [seek?, closingFrom?, mode, Mode.after, closes, quote, escape, closing, single,
              ih, prependFound]
        · by_cases opens : c = '('
          · simp [seek?, closingFrom?, mode, Mode.after, opens, quote, escape, closing, opening,
              differ, single, ih, prependFound]
          · simp [seek?, closingFrom?, mode, Mode.after, quotes, closes, opens, quote, escape,
              closing, opening, ih, prependFound]

theorem IsParenthesized.close?_eq_closing? (parenthesized : s.IsParenthesized) :
    s.close? t = closing? t := by
  rw [parenthesized.isAscii.close?_eq_seek?]
  exact parenthesized.seek?_eq (Nat.zero_le 1) (fun _ => rfl) none

end Span

/-! ### One step -/

namespace Separation

/-- What a tokenizer recognizes behind a character: a span that ends outside literals, a group that
does, or a separator. -/
inductive Step (s : Separation) (c : Char) (seen rest : Text) : Match → Prop
  | drawn {x behind : Text} (split : rest = x ++ behind)
    (plain : (Mode.plain.after c).across x = .plain) : Step s c seen rest (.extend x.length)
  | grouped {contents behind : Text} (groups : s.groups = true) (opens : c = '(')
    (split : rest = contents ++ ')' :: behind) (plain : Mode.plain.across contents = .plain) :
    Step s c seen rest (.split seen.reverse [.interior contents] (contents.length + 1))
  | separated {separator word before : Text} (mem : separator ∈ s.separators)
    (read : c :: seen = word.reverse ++ before)
    (agrees : List.Forall₂ (fun a b => agree s.ignoreCase a b = true) separator word) :
    Step s c seen rest (.split before.reverse [.flat separator] 0)

variable {s : Separation} {c : Char} {seen rest : Text} {m : Match}

/-- A span that knows quotes is opened by no quote. -/
theorem ne_quote_of_openAtEnd? {span : Span} (ascii : span.IsAscii) (knows : span.KnowsQuotes)
    {front : Text} (opened : span.openAtEnd? (c :: seen) rest = some front) : c ≠ '"' := by
  rintro rfl
  obtain ⟨before, found, -, -⟩ := Span.exists_of_openAtEnd? opened
  obtain ⟨word, all, split⟩ := after?_eq_some_iff.1 found
  cases word with
  | nil =>
    have empty := all.length_eq
    rw [List.length_reverse, List.length_nil, List.length_eq_zero_iff] at empty
    exact ascii.opening.1 empty
  | cons d word =>
    obtain ⟨rfl, -⟩ := List.cons.inj split
    obtain ⟨a, mem, same⟩ := exists_agree_of_mem all (List.mem_cons_self ..)
    rw [agree_comm] at same
    exact knows.opening (eq_of_agree rfl same ▸ List.mem_reverse.1 mem)

theorem Step.of_inline {span : Span} (inline : span.interior = .inline) (ascii : span.IsAscii)
    (knows : span.KnowsQuotes) (found : Symbol.match? (c :: seen) rest (.span span) = some m) :
    s.Step c seen rest m := by
  obtain ⟨_, contents, behind, opened, closed, rfl⟩ := Symbol.exists_of_match? inline found
  obtain ⟨word, all, rfl, plain⟩ := Span.exists_of_close? ascii knows closed
  have unquoted : '"' ∉ word := by
    intro mem
    obtain ⟨a, member, same⟩ := exists_agree_of_mem all mem
    rw [agree_comm] at same
    exact knows.closing (eq_of_agree rfl same ▸ member)
  have length : (contents ++ (word ++ behind)).length - behind.length
      = (contents ++ word).length := by
    simp only [List.length_append]
    omega
  rw [length]
  refine .drawn (List.append_assoc contents word behind).symm ?_
  rw [after_plain_of_ne (ne_quote_of_openAtEnd? ascii knows opened), Mode.across_append, plain,
    Mode.across_unquoted unquoted]

theorem isLiteral_stringLiteral :
    Span.IsLiteral { opening := ['"'], closing := ['"'], interior := .inline
                     escape := Byte.ofAscii '\\' } :=
  ⟨rfl, rfl, rfl, rfl, rfl⟩

/-- A literal is taken whole. -/
theorem stringLiteral_match?_closed {contents behind : Text}
    (closed : literal? (contents ++ '"' :: behind) = some (contents, behind)) (seen rest : Text) :
    Symbol.stringLiteral.match? ('"' :: seen) (contents ++ ['"'] ++ rest)
      = some (.extend (contents ++ ['"']).length) := by
  have opened : Span.openAtEnd? { opening := ['"'], closing := ['"'], interior := .inline
                                  escape := Byte.ofAscii '\\' } ('"' :: seen)
      ((contents ++ ['"']) ++ rest) = some seen.reverse := Span.openAtEnd?_cons rfl rfl seen _
  have closes := literal?_closed closed rest
  rw [← isLiteral_stringLiteral.close?_eq_literal?] at closes
  exact Symbol.match?_of_close? rfl (fun _ _ => rfl) opened (by simpa using closes)

theorem Step.of_stringLiteral (found : Symbol.stringLiteral.match? (c :: seen) rest = some m) :
    s.Step c seen rest m := by
  obtain ⟨_, contents, behind, opened, closed, rfl⟩ := Symbol.exists_of_match? rfl found
  obtain ⟨before, after, -, -⟩ := Span.exists_of_openAtEnd? opened
  obtain ⟨rfl, -⟩ := List.cons.inj (after?_false_iff.1 after)
  rw [isLiteral_stringLiteral.close?_eq_literal?] at closed
  obtain ⟨rfl, plain⟩ := exists_of_literalFrom? (by decide) closed
  have length : (contents ++ '"' :: behind).length - behind.length
      = (contents ++ ['"']).length := by
    simp only [List.length_append, List.length_cons, List.length_nil]
    omega
  have split : contents ++ '"' :: behind = contents ++ ['"'] ++ behind := by simp
  rw [length]
  exact .drawn split plain

theorem isParenthesized_group :
    Span.IsParenthesized { opening := ['('], closing := [')'], interior := .recursive
                           quote := Byte.ofAscii '"', guard := Connected.isGroup } :=
  ⟨rfl, rfl, rfl, rfl, rfl⟩

/-- A group that is recognized stands where one may stand. -/
theorem exists_of_group (found : Connected.group.match? (c :: seen) rest = some m) :
    ∃ contents behind, c = '(' ∧ closing? rest = some (contents, behind)
      ∧ rest = contents ++ ')' :: behind ∧ Mode.plain.across contents = .plain
      ∧ Connected.isGroup seen.reverse behind = true
      ∧ m = .split seen.reverse [.interior contents] (contents.length + 1) := by
  obtain ⟨front, contents, behind, opened, closed, stands, rfl⟩ := Symbol.exists_of_span found
  obtain ⟨before, after, -, rfl⟩ := Span.exists_of_openAtEnd? opened
  obtain ⟨rfl, rfl⟩ := List.cons.inj (after?_false_iff.1 after)
  have closes : closing? rest = some (contents, behind) :=
    isParenthesized_group.close?_eq_closing?.symm.trans closed
  obtain ⟨word, all, rfl, plain⟩ := Span.exists_of_close? isParenthesized_group.isAscii
    isParenthesized_group.knowsQuotes closed
  obtain rfl : word = [')'] := by
    cases all with
    | cons same none =>
      cases none
      rw [← eq_of_agree rfl same]
  have length : (contents ++ ([')'] ++ behind)).length - behind.length = contents.length + 1 := by
    simp only [List.length_append, List.length_cons, List.length_nil]
    omega
  rw [length]
  exact ⟨contents, behind, rfl, closes, rfl, plain, stands, rfl⟩

theorem Step.of_group (groups : s.groups = true)
    (found : Connected.group.match? (c :: seen) rest = some m) : s.Step c seen rest m := by
  obtain ⟨contents, behind, opens, -, split, plain, -, rfl⟩ := exists_of_group found
  exact .grouped groups opens split plain

theorem Step.of_separator {separator : Text} (mem : separator ∈ s.separators)
    (found : (Symbol.literal separator s.ignoreCase).match? (c :: seen) rest = some m) :
    s.Step c seen rest m := by
  obtain ⟨before, after, rfl⟩ := Symbol.exists_of_literal found
  obtain ⟨word, all, split⟩ := after?_eq_some_iff.1 after
  have read : c :: seen = word.reverse.reverse ++ before := by rw [List.reverse_reverse, split]
  exact .separated mem read (by simpa using List.forall₂_reverse_iff.2 all)

/-- **What a tokenizer recognizes is a step.** -/
theorem step_of_firstMatch? {t : Tokenizer} (layout : t.symbols = s.symbols)
    (found : t.firstMatch? (c :: seen) rest = some m) : s.Step c seen rest m := by
  rw [firstMatch?_eq layout] at found
  rcases Option.or_eq_some_iff.1 found with literal | ⟨-, found⟩
  · exact .of_stringLiteral literal
  rcases Option.or_eq_some_iff.1 found with distinction | ⟨-, found⟩
  · have isCase : Span.IsCase { opening := caseKeyword, closing := endKeyword, interior := .inline
                                keyword := true, quote := Byte.ofAscii '"' } :=
      ⟨rfl, rfl, rfl, rfl, rfl⟩
    exact .of_inline rfl isCase.isAscii isCase.knowsQuotes distinction
  rcases Option.or_eq_some_iff.1 found with group | ⟨-, found⟩
  · split at group
    · rename_i groups
      exact .of_group groups group
    · cases group
  rcases Option.or_eq_some_iff.1 found with parentheses | ⟨-, found⟩
  · have parenthesized : Span.IsParenthesized { opening := ['('], closing := [')']
                                                interior := .inline, quote := Byte.ofAscii '"' } :=
      ⟨rfl, rfl, rfl, rfl, rfl⟩
    exact .of_inline rfl parenthesized.isAscii parenthesized.knowsQuotes parentheses
  · obtain ⟨separator, mem, found⟩ := List.exists_of_findSome?_eq_some found
    exact .of_separator mem found

/-- A quote behind which nothing is recognized opens a literal that is never closed. -/
theorem literal?_of_firstMatch? {t : Tokenizer} (layout : t.symbols = s.symbols)
    (missed : t.firstMatch? ('"' :: seen) rest = none) : literal? rest = none := by
  rw [firstMatch?_eq layout, Option.or_eq_none_iff] at missed
  have opened : Span.openAtEnd? { opening := ['"'], closing := ['"'], interior := .inline
                                  escape := Byte.ofAscii '\\' } ('"' :: seen) rest
      = some seen.reverse := Span.openAtEnd?_cons rfl rfl seen rest
  have none := missed.1
  rw [Symbol.stringLiteral, Symbol.match?, opened] at none
  cases closed : literal? rest with
  | none => rfl
  | some split =>
    rw [← isLiteral_stringLiteral.close?_eq_literal?] at closed
    simp [closed] at none

/-! ### Runs -/

/-- **A run goes step by step**: it passes a character, draws a span into the current token, takes
out a group or splits at a separator, and goes on behind that. -/
theorem run_induction {t : Tokenizer} (layout : t.symbols = s.symbols)
    {inner : Text → List Token} {motive : (seen ahead : Text) → List Token → Prop}
    (last : ∀ seen, motive seen [] (t.flat seen.reverse))
    (passed : ∀ {c : Char} {seen rest : Text} {tokens : List Token},
      t.firstMatch? (c :: seen) rest = none → motive (c :: seen) rest tokens →
        motive seen (c :: rest) tokens)
    (drawn : ∀ {c : Char} {seen x rest : Text} {tokens : List Token},
      t.firstMatch? (c :: seen) (x ++ rest) = some (.extend x.length) →
        (Mode.plain.after c).across x = .plain →
          motive (x.reverse ++ c :: seen) rest tokens → motive seen (c :: (x ++ rest)) tokens)
    (grouped : ∀ {seen contents rest : Text} {tokens : List Token},
      t.firstMatch? ('(' :: seen) (contents ++ ')' :: rest)
          = some (.split seen.reverse [.interior contents] (contents.length + 1)) →
        s.groups = true → Mode.plain.across contents = .plain →
          tokens = t.run inner [] .read rest → motive [] rest tokens →
            motive seen ('(' :: (contents ++ ')' :: rest))
              (t.flat seen.reverse ++ .nested (inner contents) :: tokens))
    (separated : ∀ {c : Char} {seen separator word before rest : Text} {tokens : List Token},
      separator ∈ s.separators → c :: seen = word.reverse ++ before →
        List.Forall₂ (fun a b => agree s.ignoreCase a b = true) separator word →
          tokens = t.run inner [] .read rest → motive [] rest tokens →
            motive seen (c :: rest) (t.flat before.reverse ++ (t.flat separator ++ tokens)))
    (seen ahead : Text) : motive seen ahead (t.run inner seen .read ahead) := by
  induction size : ahead.length using Nat.strong_induction_on generalizing seen ahead with
  | h length ih =>
    subst size
    cases ahead with
    | nil => exact last seen
    | cons c rest =>
      have later : ∀ (seen behind : Text), behind.length ≤ rest.length →
          motive seen behind (t.run inner seen .read behind) :=
        fun seen behind le => ih behind.length (Nat.lt_succ_of_le le) seen behind rfl
      rw [Tokenizer.run_read_cons]
      cases found : t.firstMatch? (c :: seen) rest with
      | none => exact passed found (later _ rest (Nat.le_refl _))
      | some m =>
        cases step_of_firstMatch? layout found with
        | @drawn x behind split plain =>
          subst split
          simp only [Tokenizer.run_draw]
          exact drawn found plain (later _ behind (List.length_append ▸ Nat.le_add_left _ _))
        | @grouped contents behind groups opens split plain =>
          subst opens split
          have shorter : behind.length ≤ (contents ++ ')' :: behind).length := by
            simp only [List.length_append, List.length_cons]
            omega
          have behind' := grouped found groups plain rfl (later [] behind shorter)
          simpa [Tokenizer.ofPiece, Tokenizer.run_drop_closed] using behind'
        | @separated separator word before mem read agrees =>
          have behind := separated mem read agrees rfl (later [] rest (Nat.le_refl _))
          simpa [Tokenizer.ofPiece, Tokenizer.run_drop_zero] using behind

/-- Every separator holds a space or a comma, and neither quotes nor braces. -/
def foreign (s : Separation) : Bool :=
  s.separators.all fun separator =>
    separator.any (fun c => c == ' ' || c == ',')
      && separator.all fun c => c != '"' && c != '\x7b' && c != '\x7d'

/-- A separator as it is written cuts no reference. -/
theorem exists_mem_of_foreign (foreign : s.foreign = true) {separator word : Text}
    (mem : separator ∈ s.separators)
    (agrees : List.Forall₂ (fun a b => agree s.ignoreCase a b = true) separator word)
    (r : Qualified) : IsNeutral word ∧ ∃ c ∈ word, c ∉ r.text := by
  have checked := List.all_eq_true.1 foreign separator mem
  simp only [Bool.and_eq_true, List.any_eq_true] at checked
  obtain ⟨⟨c, member, mark⟩, free⟩ := checked
  refine ⟨(isNeutral_of_checked free).of_agree agrees, ?_⟩
  rw [Bool.or_eq_true, beq_iff_eq, beq_iff_eq] at mark
  rcases mark with rfl | rfl
  · exact ⟨' ', (mem_iff_of_agree rfl agrees).2 member, r.not_mem_text rfl (by decide)⟩
  · exact ⟨',', (mem_iff_of_agree rfl agrees).2 member, r.not_mem_text rfl (by decide)⟩

/-- A text is divided into the parts that its tokens are made of: texts between separators, and the
contents of groups. The cuts stand outside literals, or in one that nothing in the text closes. -/
inductive Divided (s : Separation) (t : Tokenizer) (inner : Text → List Token) :
    Text → List Token → Prop
  | last (x : Text) : Divided s t inner x (t.flat x)
  | separated {x separator word rest : Text} {tokens : List Token} (mem : separator ∈ s.separators)
    (agrees : List.Forall₂ (fun a b => agree s.ignoreCase a b = true) separator word)
    (settled : Settled (Mode.plain.across (x ++ word)) rest)
    (behind : Divided s t inner rest tokens) :
    Divided s t inner (x ++ (word ++ rest)) (t.flat x ++ t.flat separator ++ tokens)
  | grouped {x contents rest : Text} {tokens : List Token} (groups : s.groups = true)
    (settled : Settled (Mode.plain.across x) ('(' :: (contents ++ ')' :: rest)))
    (plain : Mode.plain.across contents = .plain) (behind : Divided s t inner rest tokens) :
    Divided s t inner (x ++ '(' :: (contents ++ ')' :: rest))
      (t.flat x ++ [.nested (inner contents)] ++ tokens)

/-- A group does not cut what is mentioned before, in and behind it. -/
theorem mentioned_of_grouped {r : Qualified} {front contents behind : Text}
    (mentioned : r.MentionedIn (front ++ '(' :: (contents ++ ')' :: behind)))
    (settled : Settled (Mode.plain.across front) ('(' :: (contents ++ ')' :: behind)))
    (plain : Mode.plain.across contents = .plain) :
    r.MentionedIn front ∨ r.MentionedIn contents ∨ r.MentionedIn behind := by
  rcases mentioned.cut_at (r.not_mem_text rfl (by decide)) with before | ahead
  · exact .inl before
  · have opened := settled.across (x := ['(']) rfl
    rcases (ahead.of_settled opened).cut_at (r.not_mem_text rfl (by decide)) with within | behind
    · exact .inr (.inl within)
    · rw [plain, after_plain_of_ne (by decide)] at behind
      exact .inr (.inr behind)

/-- A separator does not cut what is mentioned before and behind it. -/
theorem mentioned_of_separated {r : Qualified} (foreign : s.foreign = true)
    {x separator word : Text} (mem : separator ∈ s.separators)
    (agrees : List.Forall₂ (fun a b => agree s.ignoreCase a b = true) separator word)
    (settled : Settled (Mode.plain.across (x ++ word)) rest)
    (mentioned : r.MentionedIn (x ++ (word ++ rest))) : r.MentionedIn x ∨ r.MentionedIn rest := by
  obtain ⟨neutral, d, member, other⟩ := exists_mem_of_foreign foreign mem agrees r
  rcases mentioned.cut neutral member other with front | ahead
  · exact .inl front
  · exact .inr (ahead.of_settled settled)

/-- A separator that was read holds no quote, so the scan passes its last character. -/
theorem settled_of_separated (foreign : s.foreign = true) {separator word before : Text}
    (mem : separator ∈ s.separators) (read : c :: seen = word.reverse ++ before)
    (agrees : List.Forall₂ (fun a b => agree s.ignoreCase a b = true) separator word)
    (settled : Settled (Mode.plain.across seen.reverse) (c :: rest)) :
    Settled (Mode.plain.across (before.reverse ++ word)) rest := by
  have checked := List.all_eq_true.1 foreign separator mem
  rw [Bool.and_eq_true] at checked
  have neutral : IsNeutral word := (isNeutral_of_checked checked.2).of_agree agrees
  have letter : c ≠ '"' := by
    cases reversed : word.reverse with
    | nil =>
      obtain rfl := List.reverse_eq_nil_iff.1 reversed
      cases agrees
      cases checked.1
    | cons e word' =>
      rw [reversed] at read
      obtain ⟨rfl, -⟩ := List.cons.inj read
      exact (neutral c (List.mem_reverse.1 (reversed ▸ List.mem_cons_self ..))).1
  have split : seen.reverse ++ [c] = before.reverse ++ word := by
    rw [← List.reverse_cons, read]
    simp
  have passed := settled.across (x := [c]) (after_plain_of_ne letter)
  rwa [← Mode.across_append, split] at passed

/-- Where nothing is recognized the scan stays outside literals, or in one that is never closed. -/
theorem settled_of_firstMatch? {t : Tokenizer} (layout : t.symbols = s.symbols)
    (missed : t.firstMatch? (c :: seen) rest = none)
    (settled : Settled (Mode.plain.across seen.reverse) (c :: rest)) :
    Settled (Mode.plain.across (c :: seen).reverse) rest := by
  have mode : Mode.plain.across (c :: seen).reverse
      = (Mode.plain.across seen.reverse).after c := by simp
  rw [mode]
  by_cases quote : c = '"'
  · subst quote
    rcases settled with plain | unclosed
    · rw [plain]
      exact .inr ⟨by decide, literal?_of_firstMatch? layout missed⟩
    · exact .inr (unclosed.across (x := ['"']))
  · exact settled.across (x := [c]) (after_plain_of_ne quote)

/-- **A run divides its text.** -/
theorem divided_run {t : Tokenizer} (layout : t.symbols = s.symbols) (foreign : s.foreign = true)
    (inner : Text → List Token) {seen ahead : Text}
    (settled : Settled (Mode.plain.across seen.reverse) ahead) :
    Divided s t inner (seen.reverse ++ ahead) (t.run inner seen .read ahead) := by
  refine run_induction layout
    (motive := fun seen ahead tokens => Settled (Mode.plain.across seen.reverse) ahead →
      Divided s t inner (seen.reverse ++ ahead) tokens) ?last ?passed ?drawn ?grouped ?separated
    seen ahead settled
  case last =>
    intro seen _
    rw [List.append_nil]
    exact .last seen.reverse
  case passed =>
    intro c seen rest tokens missed ih settled
    have joined : seen.reverse ++ c :: rest = (c :: seen).reverse ++ rest := by simp
    rw [joined]
    exact ih (settled_of_firstMatch? layout missed settled)
  case drawn =>
    intro c seen x rest tokens _ plain ih settled
    have whole : seen.reverse ++ c :: (x ++ rest) = (x.reverse ++ c :: seen).reverse ++ rest := by
      simp
    have passed := settled.across (x := c :: x) plain
    rw [← Mode.across_append] at passed
    rw [whole]
    exact ih (by simpa using passed)
  case grouped =>
    intro seen contents rest tokens _ groups plain _ ih settled
    have divided := Divided.grouped groups settled plain (ih (.inl rfl))
    simpa using divided
  case separated =>
    intro c seen separator word before rest tokens mem read agrees _ ih settled
    have whole : seen.reverse ++ c :: rest = before.reverse ++ (word ++ rest) := by
      rw [← List.append_assoc, ← List.reverse_reverse word, ← List.reverse_append, ← read]
      simp
    have divided := Divided.separated mem agrees
      (settled_of_separated foreign mem read agrees settled) (ih (.inl rfl))
    rwa [whole, ← List.append_assoc (t.flat before.reverse)]

/-- **A text is divided into its tokens.** -/
theorem divided_tokenizeWithin {t : Tokenizer} (layout : t.symbols = s.symbols)
    (foreign : s.foreign = true) (depth : Nat) (text : Text) :
    Divided s t (t.tokenizeWithin depth) text (t.tokenizeWithin (depth + 1) text) :=
  @divided_run s t layout foreign (t.tokenizeWithin depth) [] text (.inl rfl)

end Separation

/-! ### Tokens -/

/-- The reference is mentioned in a flat token, or in one of the tokens of a nested one. -/
inductive Token.Mentions (r : Qualified) : Token → Prop
  | text {t : Text} (mentioned : r.MentionedIn t) : Mentions r (.text t)
  | nested {tokens : List Token} {token : Token} (mem : token ∈ tokens)
    (inside : Mentions r token) : Mentions r (.nested tokens)

theorem Tokenizer.flat_of_mentioned {t : Tokenizer} (trims : t.trim = true) {r : Qualified}
    {x : Text} (mentioned : r.MentionedIn x) : t.flat x = [.text x.trim] := by
  simp [flat, trims, mentioned.trim.isEmpty_eq_false]

namespace Separation

variable {s : Separation} {t : Tokenizer} {r : Qualified}

/-- A flat token or the contents of a nested one, which are shorter than the text, mention what the
text mentions. -/
theorem Divided.exists_part (foreign : s.foreign = true) (trims : t.trim = true)
    {inner : Text → List Token} {whole : Text} {tokens : List Token}
    (divided : Divided s t inner whole tokens) (mentioned : r.MentionedIn whole) :
    (∃ x, Token.text x ∈ tokens ∧ r.MentionedIn x)
      ∨ s.groups = true ∧ ∃ contents, contents.length < whole.length ∧ r.MentionedIn contents
        ∧ Token.nested (inner contents) ∈ tokens := by
  induction divided with
  | last x =>
    refine .inl ⟨x.trim, ?_, mentioned.trim⟩
    rw [Tokenizer.flat_of_mentioned trims mentioned]
    exact List.mem_singleton_self _
  | @separated x separator word rest tokens mem agrees settled _ ih =>
    rcases mentioned_of_separated foreign mem agrees settled mentioned with front | behind
    · refine .inl ⟨x.trim, ?_, front.trim⟩
      simp [Tokenizer.flat_of_mentioned trims front]
    · rcases ih behind with ⟨y, mem, found⟩ | ⟨groups, contents, shorter, found, mem⟩
      · exact .inl ⟨y, List.mem_append_right _ mem, found⟩
      · refine .inr ⟨groups, contents, ?_, found, List.mem_append_right _ mem⟩
        simp only [List.length_append]
        omega
  | @grouped x contents rest tokens groups settled plain _ ih =>
    rcases mentioned_of_grouped mentioned settled plain with front | within | behind
    · refine .inl ⟨x.trim, ?_, front.trim⟩
      simp [Tokenizer.flat_of_mentioned trims front]
    · refine .inr ⟨groups, contents, ?_, within, by simp⟩
      simp only [List.length_append, List.length_cons]
      omega
    · rcases ih behind with ⟨y, mem, found⟩ | ⟨groups, contents', shorter, found, mem⟩
      · exact .inl ⟨y, List.mem_append_right _ mem, found⟩
      · refine .inr ⟨groups, contents', ?_, found, List.mem_append_right _ mem⟩
        simp only [List.length_append, List.length_cons]
        omega

section Tokenizing

variable (layout : t.symbols = s.symbols) (foreign : s.foreign = true) (trims : t.trim = true)
include layout foreign trims

/-- **A tokenizer without groups has a flat token for every reference.** -/
theorem exists_text_of_mentioned (ungrouped : s.groups = false) {text : Text}
    (mentioned : r.MentionedIn text) : ∃ x, Token.text x ∈ t.tokenize text ∧ r.MentionedIn x := by
  have divided := divided_tokenizeWithin layout foreign text.length text
  rcases divided.exists_part foreign trims mentioned with flat | ⟨groups, -⟩
  · exact flat
  · rw [ungrouped] at groups
    cases groups

/-- **A tokenizer has a token for every reference**, perhaps in groups. -/
theorem exists_token_of_mentioned {depth : Nat} {text : Text} (short : text.length < depth)
    (mentioned : r.MentionedIn text) :
    ∃ token ∈ t.tokenizeWithin depth text, token.Mentions r := by
  induction depth generalizing text with
  | zero => cases short
  | succ depth ih =>
    have divided := divided_tokenizeWithin layout foreign depth text
    rcases divided.exists_part foreign trims mentioned with
      ⟨x, mem, found⟩ | ⟨-, contents, shorter, found, mem⟩
    · exact ⟨.text x, mem, .text found⟩
    · obtain ⟨token, member, inside⟩ := ih (by omega) found
      exact ⟨.nested _, mem, .nested member inside⟩

end Tokenizing

end Separation

end RecordMapper
