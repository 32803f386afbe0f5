import Mathlib
import RecordMapper.Proofs.Query.Acceptance
import RecordMapper.Proofs.Query.Parentheses
import RecordMapper.Proofs.Query.SpacedTokens
import RecordMapper.Proofs.Token.Adjacent

/-!
Separators with a part missing between them.

Two operators of a chain with spaces of their own and nothing but blanks between them are tokens next
to one another (`Chain.exists_tokens_of_lacks`), and so are two keywords of a case distinction
(`CaseBody.exists_tokens_of_lacks`). In a chain that is read no operator follows another one
(`Grammar.tokens_of_chain?`), and in a case distinction no keyword
(`Grammar.isChain_of_caseParts`). So **a text in which a part is missing is a fault**
(`Parser.expression_isFault_of_lacks`): no separator is taken for a part.
-/

namespace RecordMapper

open Text

/-! ### Operators -/

namespace Chain

/-- An operator between spaces is a token of its own. -/
theorem splits (op : MathOp) : tokenizer.Splits [op.symbol] [op.symbol] where
  nonempty := List.cons_ne_nil _ _
  plain := op.plain_symbol
  found := firstMatch?_operator op
  flat := by cases op <;> rfl
  passes _ _ rest _ := by
    refine Separation.passes_marks symbols_eq rfl (List.forall_mem_singleton.2 ?_) _
    cases op <;> simp [Separation.IsPlain, MathOp.symbol]

/-- Between two operators with spaces of their own stands nothing but blanks, behind something else:
in the chain or in the parentheses that wrap it. -/
inductive Lacks : Text → Prop
  | here {op op' : MathOp} {l gap r : Text} (begun : ∃ c ∈ l, isBlank c = false)
    (blank : ∀ c ∈ gap, isBlank c = true)
    (free : IsFree l.reverse (' ' :: op.symbol :: ' ' :: (gap ++ ' ' :: op'.symbol :: ' ' :: r))) :
    Lacks (l ++ ' ' :: op.symbol :: ' ' :: (gap ++ ' ' :: op'.symbol :: ' ' :: r))
  | wrapped {t inner : Text} (unwraps : unwrapped? t.trim = some inner) (lacks : Lacks inner) :
    Lacks t

/-- Text in parentheses is one token. -/
theorem tokenize_of_closing? {lead inner trail : Text} (blank : ∀ c ∈ lead, isBlank c = true)
    (blank' : ∀ c ∈ trail, isBlank c = true)
    (closed : closing? (inner ++ [')']) = some (inner, [])) :
    tokenizer.tokenize (lead ++ ('(' :: (inner ++ [')']) ++ trail))
      = [.text ('(' :: (inner ++ [')']))] := by
  have encloses : ∀ rest, Span.Encloses inner rest := by
    intro rest s parenthesized
    rw [parenthesized.close?_eq_closing?]
    exact closing?_closed closed rest
  have settled : Settled (('(' :: (inner ++ [')'])).reverse ++ (lead.reverse ++ [])) := by
    rw [← List.cons_append, List.reverse_append]
    exact settled_cons (fun op => by cases op <;> decide) _
  have passes : ∀ tokenize,
      tokenizer.Passes tokenize [] (lead ++ ('(' :: (inner ++ [')']) ++ trail)) [] := by
    intro tokenize
    refine (passes_blanks tokenize settled_nil blank _).1.append (.append ?_ ?_)
    · exact Separation.passes_parenthesized symbols_eq (encloses _) nofun
    · exact (passes_blanks tokenize settled blank' []).1
  have run : tokenizer.tokenize (lead ++ ('(' :: (inner ++ [')']) ++ trail))
      = tokenizer.flat _ := Tokenizer.run_last (passes _)
  exact run.trans (Tokenizer.flat_of_blanks rfl (isTrimmed_parenthesized inner) blank blank')

theorem tokenize_of_unwrapped? {t inner : Text} (unwraps : unwrapped? t.trim = some inner) :
    tokenizer.tokenize t = [.text t.trim] := by
  obtain ⟨whole, closed⟩ := exists_of_unwrapped? unwraps
  obtain ⟨lead, trail, split, blank, blank'⟩ := exists_blanks_trim t
  rw [whole] at split ⊢
  rw [split, tokenize_of_closing? blank blank' closed]

/-- The tokens of a text in parentheses are those of what they wrap. -/
theorem tokens_of_unwrapped? {t inner : Text} (unwraps : unwrapped? t.trim = some inner) :
    tokens t = tokens inner := by
  obtain ⟨whole, -⟩ := exists_of_unwrapped? unwraps
  have shorter : inner.length < t.length := by
    have trimmed := (isInfix_trim t).length_le
    rw [whole, List.length_cons, List.length_append] at trimmed
    omega
  obtain ⟨n, size⟩ := Nat.exists_eq_add_one_of_ne_zero (Nat.ne_zero_of_lt shorter)
  rw [tokens, tokensBy, size, tokensWithin, tokenize_of_unwrapped? unwraps]
  simp only [trim_trim, unwraps]
  exact tokensWithin_eq (by omega)

/-- **In the tokens of a chain with a missing operand an operator follows another one.** -/
theorem exists_tokens_of_lacks {t : Text} (lacks : Lacks t) :
    ∃ (front : List Token) (op op' : MathOp) (behind : List Token), front ≠ []
      ∧ tokens t = front ++ .text [op.symbol] :: .text [op'.symbol] :: behind := by
  induction lacks with
  | @here op op' l gap r begun blank free =>
    obtain ⟨front, z, run, word, more⟩ := Separation.exists_adjacent_of_isFree symbols_eq isWordy rfl
      (tokenizer.tokenizeWithin
        (l ++ ' ' :: op.symbol :: ' ' :: (gap ++ ' ' :: op'.symbol :: ' ' :: r)).length)
      (splits op) rfl (splits op') blank free
    obtain rfl : z = [op.symbol] := word.elim id And.left
    have found : tokenizer.tokenize
        (l ++ ' ' :: op.symbol :: ' ' :: (gap ++ ' ' :: op'.symbol :: ' ' :: r)) = front ++ _ := run
    refine ⟨front, op, op', _, more begun, Eq.trans (tokens_eq_tokenize fun one single => ?_) found⟩
    have lengths := congrArg List.length (found.symm.trans single)
    simp only [List.length_append, List.length_cons, List.length_nil] at lengths
    omega
  | wrapped unwraps _ ih =>
    rw [tokens_of_unwrapped? unwraps]
    exact ih

/-- Such a text is neither a field reference nor a literal, with an alias or without one. -/
theorem form_of_lacks {t naming : Text} (lacks : Lacks t) (start : ∀ c ∈ t.head?, isBlank c = false)
    (unquoted : '"' ∉ naming) :
    Form.field? (t ++ naming) = none ∧ Form.literal? (t ++ naming) = none := by
  cases lacks with
  | @here op op' l gap r begun blank free =>
    refine ⟨Form.field?_eq_none_of_symbol op (by simp), ?_⟩
    rw [Option.eq_none_iff_forall_ne_some]
    rintro ⟨literal, a⟩ found
    obtain ⟨c, l, rfl⟩ : ∃ c x, l = c :: x := by
      obtain ⟨c, mem, -⟩ := begun
      exact List.exists_cons_of_ne_nil (List.ne_nil_of_mem mem)
    obtain ⟨behind, contents, tail, whole, read, outside⟩ :=
      Form.exists_string_of_literal? op (by simp) found
    obtain ⟨rfl, rfl⟩ := List.cons.inj whole
    -- the literal is closed in front of the alias, and so in front of the operator
    obtain ⟨split, -⟩ := exists_of_literalFrom? (by decide) read
    obtain ⟨z, closed, rfl⟩ := exists_of_not_mem split.symm unquoted
    rw [split] at read
    obtain ⟨z', rfl⟩ := free.exists_of_literal (by simp) (by simpa using congrArg ('"' :: ·) closed)
      (literal?_closed read z)
    exact outside (by simp)
  | @wrapped _ inner unwraps _ =>
    obtain ⟨whole, -⟩ := exists_of_unwrapped? unwraps
    obtain ⟨lead, trail, split, blank, -⟩ := exists_blanks_trim t
    rw [whole] at split
    obtain rfl : lead = [] := by
      cases lead with
      | nil => rfl
      | cons d lead =>
        have solid := start d (by rw [split]; rfl)
        rw [blank d (List.mem_cons_self ..)] at solid
        cases solid
    rw [split]
    exact ⟨Form.field?_cons_eq_none (by decide) _,
      Form.literal?_cons_eq_none (by decide) (by decide) rfl _⟩

end Chain

/-! ### Keywords -/

namespace CaseBody

theorem letters_keywords : ∀ w ∈ keywords, ∀ a ∈ w, a.isAlpha = true := by
  simp [keywords, whenKeyword, thenKeyword, elseKeyword]

/-- The separators are words between spaces that end in different letters. -/
theorem unambiguous {w : Text} (mem : w ∈ keywords) : ∀ separator ∈ separation.separators,
    ∃ other, separator = ' ' :: (other ++ [' '])
      ∧ (other = w ∨ diverges false true other.reverse w.reverse = true) := by
  have checked : ∀ w ∈ keywords, ∀ other ∈ keywords,
      other = w ∨ diverges false true other.reverse w.reverse = true := by decide
  intro separator member
  obtain ⟨other, mem', rfl⟩ := List.mem_map.1 member
  exact ⟨other, rfl, checked w mem other mem'⟩

/-- A keyword between spaces is a token of its own. -/
theorem splits {w k : Text} (mem : w ∈ keywords) (spelled : sameLetters w k = true) :
    tokenizer.Splits w k := by
  have checked : ∀ w ∈ keywords, w ≠ [] ∧ sameLetters caseKeyword w = false := by decide
  obtain ⟨nonempty, other⟩ := checked w mem
  exact Separation.splits symbols_eq rfl rfl rfl (List.mem_map_of_mem mem) (letters_keywords w mem)
    nonempty other (unambiguous mem) spelled

/-- Between two keywords with spaces of their own stands nothing but blanks. The first one is in
upper case, or the space before it belongs to no other keyword. -/
inductive Lacks (body : Text) : Prop
  | intro {w w' k k' l gap r : Text} (mem : w ∈ keywords) (mem' : w' ∈ keywords)
    (spelled : sameLetters w k = true) (spelled' : sameLetters w' k' = true)
    (blank : ∀ c ∈ gap, isBlank c = true) (own : k = w ∨ ¬ separation.EndsInWord l.reverse)
    (free : IsFree l.reverse (' ' :: (k ++ ' ' :: (gap ++ ' ' :: (k' ++ ' ' :: r)))))
    (whole : ' ' :: flattenBlanks body
      = l ++ ' ' :: (k ++ ' ' :: (gap ++ ' ' :: (k' ++ ' ' :: r))))

/-- **In the tokens of a body with a missing part a keyword follows another one.** -/
theorem exists_tokens_of_lacks {body : Text} (lacks : Lacks body) :
    ∃ front, ∃ w ∈ keywords, ∃ w' ∈ keywords, ∃ behind,
      tokens body = front ++ .text w :: .text w' :: behind := by
  obtain ⟨mem, mem', spelled, spelled', blank, own, free, whole⟩ := lacks
  rename_i w w' k k' l gap r
  obtain ⟨front, z, run, word, -⟩ := Separation.exists_adjacent_of_isFree symbols_eq isWordy rfl
    (tokenizer.tokenizeWithin (' ' :: flattenBlanks body).length) (splits mem spelled) rfl
    (splits mem' spelled') blank free
  obtain rfl : z = w := by
    rcases word with same | ⟨rfl, ends⟩
    · exact same
    · exact own.resolve_right (not_not_intro ends)
  rw [← whole] at run
  exact ⟨front, z, mem, w', mem', _, run⟩

end CaseBody

/-! ### What is read -/

namespace Grammar

variable {bindings : Option Bindings} {parse : Text → Result Expr} {t : Text}

/-- An operand is no operator. -/
theorem operand_eq_ok_iff {whole : Text} {e : Expr} :
    operand parse whole t = .ok e ↔ MathOp.ofSymbol? t = none ∧ parse t = .ok e := by
  rw [operand]
  cases MathOp.ofSymbol? t with
  | none => simp
  | some op => simp [Error.invalidExpression, Error.throw]

/-- In an operand and what follows it, one of each two neighbours is an operand, and those are
read. -/
theorem texts_of_links {whole : Text} {texts : List Text} {others : List (Option MathOp × Expr)}
    (read : links parse whole texts = .ok others) (even : texts.length % 2 = 0)
    (first : MathOp.ofSymbol? t = none) :
    (t :: texts).IsChain (fun x y => MathOp.ofSymbol? x = none ∨ MathOp.ofSymbol? y = none)
      ∧ ∀ x ∈ texts, MathOp.ofSymbol? x = none → ∃ e, parse x = .ok e := by
  induction texts using links.induct generalizing t others with
  | case1 sign x rest noSign =>
    rw [links, noSign] at read
    cases read
  | case2 sign x rest op isSign ih =>
    rw [links, isSign] at read
    obtain ⟨e, value, more⟩ := Result.exists_of_bind read
    obtain ⟨others', behind, -⟩ := Result.exists_of_bind more
    obtain ⟨other, found⟩ := operand_eq_ok_iff.1 value
    simp only [List.length_cons] at even
    obtain ⟨chain, values⟩ := ih behind (by omega) other
    refine ⟨.cons_cons (.inl first) (.cons_cons (.inr other) chain), ?_⟩
    have operands := List.forall_mem_cons.2 ⟨fun _ => ⟨e, found⟩, values⟩
    refine List.forall_mem_cons.2 ⟨fun none => ?_, operands⟩
    rw [isSign] at none
    cases none
  | case3 texts short =>
    cases texts with
    | nil => exact ⟨.singleton t, List.forall_mem_nil _⟩
    | cons sign texts =>
      cases texts with
      | nil => cases even
      | cons x rest => exact absurd rfl (short sign x rest)

/-- **In a chain that is read no operator follows another one**, and each operand is read. -/
theorem tokens_of_chain? (several : 3 ≤ (Chain.tokens (Form.splitAlias t).1).length)
    {found : Option Expr} (read : chain? parse t = .ok found) :
    ∃ texts : List Text, Chain.tokens (Form.splitAlias t).1 = texts.map .text
      ∧ texts.IsChain (fun x y => MathOp.ofSymbol? x = none ∨ MathOp.ofSymbol? y = none)
      ∧ ∀ x ∈ texts, MathOp.ofSymbol? x = none → ∃ e, parse x = .ok e := by
  cases split : Form.splitAlias t with
  | mk body a =>
    rw [split] at several
    obtain ⟨x, texts, e, others, tokens, even, first, behind, -⟩ :=
      exists_operands_of_chain? split several read
    obtain ⟨other, value⟩ := operand_eq_ok_iff.1 first
    obtain ⟨chain, values⟩ := texts_of_links behind even other
    exact ⟨x :: texts, tokens, chain, List.forall_mem_cons.2 ⟨fun _ => ⟨e, value⟩, values⟩⟩

/-- **In the parts of a case distinction that is read no keyword follows another one.** -/
theorem isChain_of_caseParts {body : Text} {hasBranch : Bool} {texts : List Text}
    {parts : List (Condition × Expr) × Option Expr}
    (read : caseParts bindings parse body hasBranch texts = .ok parts) :
    texts.IsChain fun x y => x ∉ CaseBody.keywords ∨ y ∉ CaseBody.keywords := by
  fun_induction caseParts bindings parse body hasBranch texts generalizing parts with
  | case1 => exact .nil
  | case2 => cases read
  | case3 => cases read
  | case4 => cases read
  | case5 => cases read
  | case6 _ c _ t rest condition _ value ih =>
    obtain ⟨_, -, more⟩ := Result.exists_of_bind read
    obtain ⟨_, -, more⟩ := Result.exists_of_bind more
    obtain ⟨_, others, -⟩ := Result.exists_of_bind more
    simp only [List.contains_iff_mem] at condition value
    have behind := List.isChain_cons.2 ⟨fun _ _ => .inl value, ih others⟩
    exact .cons_cons (.inr condition) (.cons_cons (.inl condition) (.cons_cons (.inr value) behind))
  | case7 =>
    obtain ⟨_, -, more⟩ := Result.exists_of_bind read
    dsimp only at more
    split at more <;> cases more
  | case8 _ keyword tokens =>
    obtain ⟨e, default, -⟩ := Result.exists_of_bind read
    obtain ⟨t, tokens, value, -⟩ := caseDefault_eq_ok_iff.1 default
    exact tokens ▸ .cons_cons (.inr value) (.singleton t)
  | case9 => cases read

/-- A body in which a part is missing is not read. -/
theorem caseBody_ne_ok {body : Text} (lacks : CaseBody.Lacks body)
    (parts : List (Condition × Expr) × Option Expr) : caseBody bindings parse body ≠ .ok parts := by
  intro read
  obtain ⟨front, w, mem, w', mem', behind, tokens⟩ := CaseBody.exists_tokens_of_lacks lacks
  have chain := isChain_of_caseParts read
  rw [tokens, List.map_append, List.map_cons, List.map_cons] at chain
  obtain ⟨-, turns, -⟩ := List.isChain_append_cons_cons.1 chain
  rcases turns with other | other
  · exact other mem
  · exact other mem'

/-- A chain in which an operand is missing is not read. -/
theorem chain?_ne_ok (lacks : Chain.Lacks (Form.splitAlias t).1) (found : Option Expr) :
    chain? parse t ≠ .ok found := by
  intro read
  obtain ⟨front, op, op', behind, nonempty, tokens⟩ := Chain.exists_tokens_of_lacks lacks
  have several : 3 ≤ (Chain.tokens (Form.splitAlias t).1).length := by
    have more := List.length_pos_iff.2 nonempty
    rw [tokens, List.length_append, List.length_cons, List.length_cons]
    omega
  obtain ⟨texts, same, chain, -⟩ := tokens_of_chain? several read
  obtain ⟨_, _, rfl, -, more⟩ := List.map_eq_append_iff.1 (same.symm.trans tokens)
  obtain ⟨_, _, rfl, ⟨⟩, others⟩ := List.map_eq_cons_iff.1 more
  obtain ⟨_, _, rfl, ⟨⟩, -⟩ := List.map_eq_cons_iff.1 others
  obtain ⟨-, turns, -⟩ := List.isChain_append_cons_cons.1 chain
  simp [ofSymbol?_symbol] at turns

/-- A case distinction in which a part is missing is not read. -/
theorem case?_ne_ok {c : Form.Case} (found : Form.case? t = some c) (both : c.opened = c.closed)
    (lacks : CaseBody.Lacks c.body) (e : Option Expr) : case? bindings parse t ≠ .ok e := by
  rw [case?, found]
  simp only [ne_eq, both, not_true_eq_false, if_false]
  intro read
  obtain ⟨parts, body, -⟩ := Result.exists_of_bind read
  exact caseBody_ne_ok lacks parts body

/-- What is neither a field reference nor a literal is read as a chain or by one of the rules behind
that. -/
theorem chain?_of_expression (noField : Form.field? t.trim = none)
    (noLiteral : Form.literal? t.trim = none) {e : Expr} (read : expression none parse t = .ok e) :
    chain? parse t.trim = .ok (some e)
      ∨ chain? parse t.trim = .ok none
        ∧ (call? parse t.trim = .ok (some e) ∨ ∃ found, case? none parse t.trim = .ok found) := by
  cases readBy_of_expression read with
  | field found =>
    rw [noField] at found
    cases found
  | bound found => cases found
  | scalar found =>
    have none : scalar? none t.trim = .ok none := scalar?_of_literal noLiteral
    rw [none] at found
    cases found
  | chain found => exact .inl found
  | call noChain found => exact .inr ⟨noChain, .inl found⟩
  | case noChain _ found => exact .inr ⟨noChain, .inr ⟨_, found⟩⟩
  | raw noChain _ noCase => exact .inr ⟨noChain, .inr ⟨_, noCase⟩⟩

/-- What is neither a field reference nor a literal nor a chain that is read is not read. -/
theorem expression_ne_ok (noField : Form.field? t.trim = none)
    (noLiteral : Form.literal? t.trim = none) (refused : ∀ found, chain? parse t.trim ≠ .ok found)
    (e : Expr) : expression none parse t ≠ .ok e := by
  intro read
  rcases chain?_of_expression noField noLiteral read with found | ⟨noChain, -⟩
  · exact refused _ found
  · exact refused _ noChain

end Grammar

namespace Form

/-- Behind what an alias is split off there are blanks and word characters only. -/
theorem exists_naming (t : Text) :
    ∃ naming, t = (splitAlias t).1 ++ naming ∧ ∀ c ∈ naming, isBlank c = true ∨ isWord c = true := by
  cases split : splitAlias t with
  | mk body a =>
    cases a with
    | none => exact ⟨[], by simp [splitAlias_eq_of_none split], List.forall_mem_nil _⟩
    | some name =>
      obtain ⟨-, -, -, naming, named, whole⟩ := exists_of_splitAlias split
      exact ⟨naming, whole, named.mem⟩

/-- A case distinction is neither a field reference nor a literal. -/
theorem form_of_case? {t : Text} {c : Case} (found : case? t = some c)
    (start : ∀ d ∈ t.head?, isBlank d = false) : field? t = none ∧ literal? t = none := by
  have known : ∃ d x, t = d :: x ∧ d ∈ ['(', 'c', 'C'] := by
    obtain ⟨lead, word, gap, tail, whole, blank, written, -⟩ := exists_of_case? found
    cases opened : c.opened with
    | true =>
      rw [opened] at whole
      exact ⟨_, _, whole, by simp⟩
    | false =>
      rw [opened] at whole
      cases lead with
      | nil =>
        cases word with
        | nil => cases written
        | cons d word =>
          have letter : 'C'.isAlpha = true := by decide
          refine ⟨d, _, whole, ?_⟩
          rcases agree_of_fold letter (List.cons.inj written).1 with same | ⟨-, other⟩
          · rcases eq_or_of_agree (by decide) same with rfl | rfl
            · decide
            · decide
          · cases other
      | cons d lead =>
        have solid := start d (by rw [whole]; rfl)
        rw [blank d (List.mem_cons_self ..)] at solid
        cases solid
  obtain ⟨d, x, rfl, mem⟩ := known
  have other : ∀ d ∈ ['(', 'c', 'C'], d ≠ '\x7b' ∧ d ≠ '"' ∧ d ≠ '-' ∧ Text.isDigit d = false := by
    simp [isDigit]
  obtain ⟨brace, quote, minus, digit⟩ := other d mem
  exact ⟨field?_cons_eq_none brace x, literal?_cons_eq_none quote minus digit x⟩

end Form

namespace Grammar

variable {parse : Text → Result Expr} {t : Text}

/-- A text is not read if it is a chain in which an operand is missing. -/
theorem expression_ne_ok_of_lacks (lacks : Chain.Lacks (Form.splitAlias t.trim).1) (e : Expr) :
    expression none parse t ≠ .ok e := by
  obtain ⟨naming, whole, plain⟩ := Form.exists_naming t.trim
  have unquoted : '"' ∉ naming := by
    intro mem
    rcases plain _ mem with blank | word
    · cases blank
    · cases word
  have start : ∀ c ∈ (Form.splitAlias t.trim).1.head?, isBlank c = false := by
    intro c mem
    refine start_trim t c ?_
    rw [whole, List.head?_append, mem]
    rfl
  obtain ⟨noField, noLiteral⟩ := Chain.form_of_lacks lacks start unquoted
  rw [← whole] at noField noLiteral
  exact expression_ne_ok noField noLiteral (chain?_ne_ok lacks) e

/-- A text is not read if it is a case distinction in which a part is missing. -/
theorem expression_ne_ok_of_case {c : Form.Case} (found : Form.case? t.trim = some c)
    (both : c.opened = c.closed) (noChain : chain? parse t.trim = .ok none)
    (noCall : Form.call? t.trim = none) (lacks : CaseBody.Lacks c.body) (e : Expr) :
    expression none parse t ≠ .ok e := by
  obtain ⟨noField, noLiteral⟩ := Form.form_of_case? found (start_trim t)
  intro read
  rcases chain?_of_expression noField noLiteral read with chain | ⟨-, call | ⟨_, case⟩⟩
  · rw [noChain] at chain
    cases chain
  · rw [call?, noCall] at call
    cases call
  · exact case?_ne_ok found both lacks _ case

/-- What is read from parentheses around a single operand is read from the operand. -/
theorem exists_of_wrapped_chain? {inner x : Text} (unwraps : unwrapped? t.trim = some inner)
    (single : Chain.tokens inner = [.text x]) {found : Option Expr}
    (read : chain? parse t.trim = .ok found) : ∃ e, parse x = .ok e := by
  obtain ⟨whole, -⟩ := exists_of_unwrapped? unwraps
  have split : Form.splitAlias t.trim = (t.trim, none) := whole ▸ splitAlias_parenthesized inner
  have tokens : Chain.tokens t.trim = [.text x] := by
    rw [← single]
    exact Chain.tokens_of_unwrapped? ((trim_trim t).symm ▸ unwraps)
  have other : x ≠ t.trim := by
    obtain ⟨texts, same, sub, -⟩ := Chain.exists_texts inner
    rw [single] at same
    obtain ⟨_, rest, rfl, ⟨⟩, -⟩ := List.map_eq_cons_iff.1 same.symm
    have short := sub.length_le
    rintro rfl
    simp only [whole, List.flatten_cons, List.length_append, List.length_cons] at short
    omega
  rw [chain?_of_single split tokens other] at read
  obtain ⟨e, value, -⟩ := Result.exists_of_bind read
  exact ⟨e, value⟩

end Grammar

/-! ### Texts with a missing part -/

namespace Parser

/-- A part is missing: an operand of the chain, or a value or condition of the case distinction that
the text is, in parentheses or not; or the same holds of an operand of the chain. -/
inductive Lacks : Text → Prop
  | chain {t : Text} (lacks : Chain.Lacks (Form.splitAlias t.trim).1) : Lacks t
  | case {t : Text} {c : Form.Case} (found : Form.case? t.trim = some c) (both : c.opened = c.closed)
    (noChain : ∀ parse, Grammar.chain? parse t.trim = .ok none) (noCall : Form.call? t.trim = none)
    (lacks : CaseBody.Lacks c.body) : Lacks t
  | operand {t x : Text} (noField : Form.field? t.trim = none)
    (noLiteral : Form.literal? t.trim = none)
    (several : 3 ≤ (Chain.tokens (Form.splitAlias t.trim).1).length)
    (mem : .text x ∈ Chain.tokens (Form.splitAlias t.trim).1) (lacks : Lacks x) : Lacks t
  | wrapped {t inner x : Text} (unwraps : unwrapped? t.trim = some inner)
    (single : Chain.tokens inner = [.text x]) (lacks : Lacks x) : Lacks t

/-- An operator alone is a raw expression. -/
theorem exists_expressionWithin_symbol (op : MathOp) :
    ∃ e, expressionWithin none 1 [op.symbol] = .ok e := by
  refine ⟨.raw (String.ofList [op.symbol]), ?_⟩
  cases op <;> cbv

/-- Such a text is no expression, however deep its parts may nest. -/
theorem expressionWithin_ne_ok {t : Text} (lacks : Lacks t) (depth : Nat) (e : Expr) :
    expressionWithin none depth t ≠ .ok e := by
  induction lacks generalizing depth e with
  | chain lacks =>
    cases depth with
    | zero => nofun
    | succ depth => exact Grammar.expression_ne_ok_of_lacks lacks e
  | case found both noChain noCall lacks =>
    cases depth with
    | zero => nofun
    | succ depth => exact Grammar.expression_ne_ok_of_case found both (noChain _) noCall lacks e
  | @operand t x noField noLiteral several mem lacks ih =>
    cases depth with
    | zero => nofun
    | succ depth =>
      refine Grammar.expression_ne_ok noField noLiteral (fun found read => ?_) e
      obtain ⟨texts, tokens, -, values⟩ := Grammar.tokens_of_chain? several read
      rw [tokens] at mem
      obtain ⟨_, inside, ⟨⟩⟩ := List.mem_map.1 mem
      have operand : MathOp.ofSymbol? x = none := by
        rw [Option.eq_none_iff_forall_ne_some]
        intro op symbol
        obtain ⟨e, raw⟩ := exists_expressionWithin_symbol op
        rw [MathOp.ofSymbol?] at symbol
        obtain rfl : x = [op.symbol] := by simpa using List.find?_some symbol
        exact ih 1 e raw
      obtain ⟨e, value⟩ := values x inside operand
      exact ih depth e value
  | @wrapped t inner x unwraps single lacks ih =>
    cases depth with
    | zero => nofun
    | succ depth =>
      obtain ⟨whole, -⟩ := exists_of_unwrapped? unwraps
      have noField : Form.field? t.trim = none := whole ▸ Form.field?_cons_eq_none (by decide) _
      have noLiteral : Form.literal? t.trim = none :=
        whole ▸ Form.literal?_cons_eq_none (by decide) (by decide) rfl _
      refine Grammar.expression_ne_ok noField noLiteral (fun found read => ?_) e
      obtain ⟨e, value⟩ := Grammar.exists_of_wrapped_chain? unwraps single read
      exact ih depth e value

/-- **A text in which a part is missing is a fault**: no operator is read as the beginning of an
operand, and no keyword as that of a value or condition. -/
theorem expression_isFault_of_lacks {t : Text} (lacks : Lacks t) : (expression t none).IsFault :=
  (expressionWithin_yields none (t.length + 1) t).isFault (expressionWithin_ne_ok lacks _)

theorem expression_isFault_of_lacks_value :
    (expression "{a} +  + {b}".toList none).IsFault
      ∧ (expression "CASE WHEN {a} = 1 THEN  ELSE 2 END".toList none).IsFault := by
  have spaced : Chain.Lacks "{a} +  + {b}".toList :=
    @Chain.Lacks.here .add .add "{a}".toList [] "{b}".toList ⟨'a', by decide, rfl⟩
      (List.forall_mem_nil _) (isFree_of_passesOver rfl _)
  have chain : Lacks "{a} +  + {b}".toList := .chain spaced
  have body : CaseBody.Lacks "WHEN {a} = 1 THEN  ELSE 2".toList :=
    @CaseBody.Lacks.intro _ CaseBody.thenKeyword CaseBody.elseKeyword "THEN".toList "ELSE".toList
      " WHEN {a} = 1".toList [] ['2'] (by decide) (by decide) rfl rfl (List.forall_mem_nil _)
      (.inl rfl) (isFree_of_passesOver rfl _) rfl
  have distinction : Lacks "CASE WHEN {a} = 1 THEN  ELSE 2 END".toList := by
    refine .case (c := ⟨false, "WHEN {a} = 1 THEN  ELSE 2".toList, false, none⟩) ?_ rfl ?_ ?_ body
    · cbv
    · intro parse
      cbv
    · cbv
  exact ⟨expression_isFault_of_lacks chain, expression_isFault_of_lacks distinction⟩

/-- Where two operators or keywords share a space, the second one begins a part. -/
theorem expression_of_shared_space :
    expression "{a} * * {b}".toList none
        = .ok (.math [(none, .field ⟨none, "a", none⟩), (some .mul, .raw "* {b}")] none)
      ∧ expression "CASE WHEN {a} = 1 THEN ELSE 2 END".toList none
        = .ok (.case [(.simple (.field ⟨none, "a", none⟩) .eq (.scalar (.int 1) none),
            .raw "ELSE 2")] none none) := by
  exact ⟨by cbv, by cbv⟩

end Parser

end RecordMapper
