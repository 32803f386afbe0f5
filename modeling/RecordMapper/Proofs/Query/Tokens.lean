import RecordMapper.Proofs.Query.Canonical
import RecordMapper.Proofs.Token.Passing

/-!
The tokens of printed trees.

Each of the four tokenizers divides the text of a canonical tree into the texts of its parts:
`FieldList.items` the arguments of a call, `Chain.tokens` the operands of a chain,
`Connected.tokens` the children of a condition, groups among them in turn, and `CaseBody.tokens` the
conditions and values of a case distinction.
-/

namespace RecordMapper

open Text

/-! ### Field lists -/

namespace FieldList

def separation : Separation := ⟨false, [separator], false⟩

theorem symbols_eq : tokenizer.symbols = separation.symbols :=
  rfl

theorem divides : separation.divides = true := by
  decide +kernel

theorem passesInfixes : separation.passesInfixes signs = true := by
  decide +kernel

/-- Nothing stands before an item but the space behind a comma. -/
def IsMargin (blanks : Text) : Prop :=
  blanks = [] ∨ blanks = [' ']

theorem passes_item (inner : Text → List Token) {blanks x rest : Text} (margin : IsMargin blanks)
    (linked : Linked signs x) (behind : ClearBehind rest) :
    tokenizer.Passes inner blanks x rest := by
  refine Separation.passes_linked symbols_eq rfl passesInfixes linked ?_ behind
    fun groups => by cases groups
  rcases margin with rfl | rfl
  · exact clearBefore_none
  · exact clearBefore_some rfl

theorem flat_item {blanks x : Text} (margin : IsMargin blanks) (linked : Linked signs x) :
    tokenizer.flat (blanks.reverse ++ x) = [.text x] := by
  have blank : ∀ c ∈ blanks.reverse, isBlank c = true := by
    rcases margin with rfl | rfl
    · exact nofun
    · simp [isBlank]
  exact Tokenizer.flat_append rfl linked.isTrimmed blank

theorem passes_space (inner : Text → List Token) (rest : Text) :
    tokenizer.run inner [] .read (' ' :: rest) = tokenizer.run inner [' '] .read rest := by
  have passesOver : separation.passesOver true [] [' '] = true := by decide
  have passes : tokenizer.Passes inner ([] ++ []) [' '] rest :=
    Separation.passes_of_passesOver symbols_eq passesOver (fun _ => rfl) rest
  exact passes

/-- The tokens of items with a comma and a space between each two. -/
theorem run_join (inner : Text → List Token) {x : Text} {texts : List Text}
    (linked : ∀ y ∈ x :: texts, Linked signs y) {blanks : Text} (margin : IsMargin blanks) :
    tokenizer.run inner blanks .read (Text.join [',', ' '] (x :: texts))
      = .text x :: texts.flatMap fun y => [.text separator, .text y] := by
  have first := linked x (List.mem_cons_self ..)
  induction texts generalizing x blanks with
  | nil =>
    have passes := passes_item inner margin first clearBehind_nil
    rw [join_singleton, Tokenizer.run_last passes, flat_item margin first]
    rfl
  | cons y texts ih =>
    have passes : tokenizer.Passes inner blanks x
        (separator ++ ' ' :: Text.join [',', ' '] (y :: texts)) :=
      passes_item inner margin first (clearBehind_cons rfl _)
    have split : Text.join [',', ' '] (x :: y :: texts)
        = x ++ (separator ++ ' ' :: Text.join [',', ' '] (y :: texts)) := by
      rw [join_cons_cons]
      simp [separator]
    have comma : tokenizer.flat separator = [.text separator] := rfl
    have others : ∀ z ∈ y :: texts, Linked signs z := by
      intro z mem
      exact linked z (List.mem_cons_of_mem _ mem)
    rw [split, Separation.run_piece symbols_eq divides (List.mem_singleton_self separator)
      first.ending passes, flat_item margin first, comma, passes_space,
      ih others (.inr rfl) (others y (List.mem_cons_self ..))]
    rfl

theorem itemsFrom_item {x : Text} (linked : Linked signs x) (rest : List Token) :
    itemsFrom [] (.text x :: rest) = itemsFrom [x] rest := by
  have other : (x == separator) = false :=
    beq_eq_false_iff_ne.2 (linked.ending.ne (by decide +kernel))
  rw [itemsFrom, Token.isText, other]
  rfl

theorem item_of_linked {x : Text} (linked : Linked signs x) : item [x] = [x] := by
  have nonempty := linked.isTrimmed.isEmpty_eq_false
  rw [item, join_singleton, linked.isTrimmed.trim_eq]
  simp only [nonempty]
  rfl

/-- Tokens of items are the items, with separators between them. -/
theorem itemsFrom_texts {x : Text} {texts : List Text}
    (linked : ∀ y ∈ x :: texts, Linked signs y) :
    itemsFrom [] (.text x :: texts.flatMap fun y => [.text separator, .text y]) = x :: texts := by
  have first := linked x (List.mem_cons_self ..)
  rw [itemsFrom_item first]
  induction texts generalizing x with
  | nil => exact item_of_linked first
  | cons y texts ih =>
    have others : ∀ z ∈ y :: texts, Linked signs z := by
      intro z mem
      exact linked z (List.mem_cons_of_mem _ mem)
    have second := others y (List.mem_cons_self ..)
    show itemsFrom [x] (.text separator :: .text y :: _) = x :: y :: texts
    rw [itemsFrom, if_pos (by rfl), item_of_linked first, itemsFrom_item second]
    exact congrArg (x :: ·) (ih others second)

/-- **The items of a list are the texts that were joined with commas.** -/
theorem items_join {texts : List Text} (linked : ∀ y ∈ texts, Linked signs y) :
    items (Text.join [',', ' '] texts) = texts := by
  cases texts with
  | nil => rfl
  | cons x texts =>
    rw [items, Tokenizer.tokenize, Tokenizer.tokenizeWithin, run_join _ linked (.inl rfl),
      itemsFrom_texts linked]

end FieldList

/-! ### Arithmetic chains -/

namespace Chain

def separation : Separation := ⟨false, MathOp.all.map fun op => [' ', op.symbol, ' '], false⟩

theorem symbols_eq : tokenizer.symbols = separation.symbols :=
  rfl

theorem divides : separation.divides = true := by
  decide +kernel

theorem mem_separators (op : MathOp) : [' ', op.symbol, ' '] ∈ separation.separators :=
  List.mem_map.2 ⟨op, by cases op <;> simp [MathOp.all], rfl⟩

/-- The tokens of the operands behind the first one, each behind its operator. -/
def operandTexts (rest : List (Option MathOp × Expr)) : List Text :=
  rest.flatMap fun operand =>
    (operand.1.map fun op => [op.symbol]).toList ++ [operand.2.printOperand]

theorem passes_operand (inner : Text → List Token) {x rest : Text} (solid : Solid x)
    (behind : ClearBehind rest) : tokenizer.Passes inner [] x rest :=
  Separation.passes_solid symbols_eq rfl solid clearBefore_none behind fun groups => by cases groups

theorem flat_operand {x : Text} (solid : Solid x) : tokenizer.flat x = [.text x] :=
  Tokenizer.flat_trimmed rfl solid.isTrimmed

/-- **The tokens of a chain are its operands and operators.** -/
theorem run_operands (inner : Text → List Token) {x : Text} (solid : Solid x)
    {rest : List (Option MathOp × Expr)} (operators : ∀ operand ∈ rest, operand.1.isSome = true)
    (operands : ∀ operand ∈ rest, Solid operand.2.printOperand) :
    tokenizer.run inner [] .read (x ++ printOperands rest)
      = (x :: operandTexts rest).map .text := by
  induction rest generalizing x with
  | nil =>
    rw [printOperands, List.append_nil,
      Tokenizer.run_last (passes_operand inner solid clearBehind_nil), List.reverse_nil,
      List.nil_append, flat_operand solid]
    rfl
  | cons operand rest ih =>
    obtain ⟨op, e⟩ := operand
    obtain ⟨op, rfl⟩ := Option.isSome_iff_exists.1 (operators _ (List.mem_cons_self ..))
    have passes : tokenizer.Passes inner [] x
        ([' ', op.symbol, ' '] ++ (e.printOperand ++ printOperands rest)) :=
      passes_operand inner solid (clearBehind_cons rfl _)
    have sign : tokenizer.flat [' ', op.symbol, ' '] = [.text [op.symbol]] := by
      cases op <;> rfl
    have others := ih (operands _ (List.mem_cons_self ..))
      (fun operand mem => operators operand (List.mem_cons_of_mem _ mem))
      (fun operand mem => operands operand (List.mem_cons_of_mem _ mem))
    rw [printOperands_cons, List.append_assoc, Separation.run_piece symbols_eq divides
      (mem_separators op) solid.ending passes, List.reverse_nil, List.nil_append,
      flat_operand solid, sign, others]
    rfl

theorem tokenize_solid {x : Text} (solid : Solid x) : tokenizer.tokenize x = [.text x] := by
  have run : tokenizer.run (tokenizer.tokenizeWithin x.length) [] .read (x ++ printOperands [])
      = (x :: operandTexts []).map .text := run_operands _ solid nofun nofun
  rw [printOperands, List.append_nil] at run
  exact run

/-- Nothing is unwrapped if there is more than one token, or that stands in no parentheses. -/
theorem tokensWithin_eq_tokenize {x : Text}
    (solid : ∀ one, tokenizer.tokenize x = [.text one] → unwrapped? one.trim = none)
    (depth : Nat) : tokensWithin tokenizer depth x = tokenizer.tokenize x := by
  cases depth with
  | zero => rfl
  | succ depth =>
    rw [tokensWithin]
    split
    · rename_i one single
      rw [solid one single, single]
    · rfl

theorem tokens_eq_tokenize {x : Text}
    (solid : ∀ one, tokenizer.tokenize x = [.text one] → unwrapped? one.trim = none) :
    tokens x = tokenizer.tokenize x :=
  tokensWithin_eq_tokenize solid _

/-- Several tokens stay as they are. -/
theorem tokensWithin_of_several {x : Text} {a b : Token} {others : List Token}
    (found : tokenizer.tokenize x = a :: b :: others) (depth : Nat) :
    tokensWithin tokenizer depth x = a :: b :: others := by
  rw [← found]
  apply tokensWithin_eq_tokenize
  rw [found]
  rintro one ⟨⟩

section Operands

variable {first : Expr} {rest : List (Option MathOp × Expr)} (head : Solid first.printOperand)
  (more : rest ≠ []) (operators : ∀ operand ∈ rest, operand.1.isSome = true)
  (operands : ∀ operand ∈ rest, Solid operand.2.printOperand)
include head more operators operands

/-- A chain is not unwrapped: it is more than one token. -/
theorem tokensWithin_operands (depth : Nat) :
    tokensWithin tokenizer depth (printOperands ((none, first) :: rest))
      = (first.printOperand :: operandTexts rest).map .text := by
  have found : tokenizer.tokenize (printOperands ((none, first) :: rest))
      = (first.printOperand :: operandTexts rest).map .text := by
    rw [printOperands_cons]
    exact run_operands _ head operators operands
  obtain ⟨operand, rest, rfl⟩ := List.exists_cons_of_ne_nil more
  obtain ⟨op, e⟩ := operand
  obtain ⟨op, rfl⟩ := Option.isSome_iff_exists.1 (operators _ (List.mem_cons_self ..))
  exact tokensWithin_of_several found depth

/-- **The tokens of the text of a chain are its operands and operators.** -/
theorem tokens_operands :
    tokens (printOperands ((none, first) :: rest))
      = (first.printOperand :: operandTexts rest).map .text :=
  tokensWithin_operands head more operators operands _

/-- A chain in parentheses has the tokens of the chain. -/
theorem tokens_group :
    tokens ('(' :: (printOperands ((none, first) :: rest) ++ [')']))
      = (first.printOperand :: operandTexts rest).map .text := by
  have linked := (linked_printOperands head operators operands).mono signs_subset_connectors
  have group := Solid.group linked.balanced
  have trimmed := group.isTrimmed.trim_eq
  rw [tokens, tokensBy, List.length_cons, tokensWithin, tokenize_solid group]
  simp only [trimmed, unwrapped?_group linked.balanced]
  exact tokensWithin_operands head more operators operands _

end Operands

/-- A text that no parentheses wrap is its only token. -/
theorem tokens_solid {x : Text} (solid : Solid x) (unwrapped : unwrapped? x = none) :
    tokens x = [.text x] := by
  have found := tokenize_solid solid
  rw [← found]
  apply tokens_eq_tokenize
  intro one single
  rw [found] at single
  cases single
  rw [solid.isTrimmed.trim_eq, unwrapped]

end Chain

/-! ### Conditions -/

mutual

/-- The token of a condition inside another one. -/
def Condition.token : Condition → Token
  | .simple lhs op rhs => .text (Condition.print (.simple lhs op rhs))
  | .nested children => .nested (childTokens children)

/-- The tokens of joined conditions, each behind its connector. -/
def childTokens : List (Option BoolOp × Condition) → List Token
  | [] => []
  | (op, c) :: rest =>
    (op.map fun op => .text op.keyword).toList ++ c.token :: childTokens rest

end

namespace Connected

def separation : Separation :=
  ⟨true, [BoolOp.and, BoolOp.or].map fun op => ' ' :: (op.keyword ++ [' ']), true⟩

theorem symbols_eq : tokenizer.symbols = separation.symbols :=
  rfl

theorem divides : separation.divides = true := by
  decide +kernel

theorem passesInfixes : separation.passesInfixes comparisons = true := by
  decide +kernel

theorem mem_separators (op : BoolOp) : ' ' :: (op.keyword ++ [' ']) ∈ separation.separators :=
  List.mem_map.2 ⟨op, by cases op <;> simp, rfl⟩

/-- The words of the connectors. -/
def keywords : List Text :=
  [BoolOp.and, BoolOp.or].map BoolOp.keyword

theorem mem_keywords (op : BoolOp) : op.keyword ∈ keywords := by
  cases op <;> simp [keywords]

theorem letters_keywords : ∀ word ∈ keywords, ∀ a ∈ word, a.isAlpha = true := by
  simp [keywords, BoolOp.keyword]

theorem group_match? {contents rest : Text} (encloses : Span.Encloses contents rest)
    (free : isGroup [] rest = true) :
    group.match? ['('] (contents ++ [')'] ++ rest)
      = some (.split [] [.interior contents] (contents ++ [')']).length) := by
  have closed : Span.close? { opening := ['('], closing := [')'], interior := .recursive
                              quote := Byte.ofAscii '"', guard := isGroup }
      (contents ++ ')' :: rest) = some (contents, rest) :=
    encloses ⟨rfl, rfl, rfl, rfl, rfl⟩
  rw [List.append_assoc, List.singleton_append, group, Symbol.match?, Span.openAtEnd?_cons rfl rfl,
    closed]
  simp [free, Symbol.pieces]
  omega

/-- A group of conditions is taken out as a whole. -/
theorem run_group (inner : Text → List Token) {contents rest : Text}
    (encloses : Span.Encloses contents rest) (free : isGroup [] rest = true) :
    tokenizer.run inner [] .read ('(' :: (contents ++ [')']) ++ rest)
      = .nested (inner contents) :: tokenizer.run inner [] .read rest := by
  have found := group_match? encloses free
  have first : tokenizer.firstMatch? ['('] (contents ++ [')'] ++ rest)
      = some (.split [] [.interior contents] (contents ++ [')']).length) := by
    have noCase : ∀ before, after? true caseKeyword.reverse ['('] = some before →
        standsAlone before.head? (contents ++ [')'] ++ rest).head? = false := by
      intro before found
      cases found
    rw [Separation.firstMatch?_eq symbols_eq, Separation.stringLiteral_match?_eq_none rfl,
      Separation.caseDistinction_match?_eq_none noCase, found]
    rfl
  rw [List.cons_append, Tokenizer.run_read_cons, first]
  simp only [Tokenizer.run_drop, Tokenizer.flat_nil]
  rfl

/-- A group may stand in front of a connector. -/
theorem isGroup_connector {op : BoolOp} {k : Text} (spelled : sameLetters op.keyword k = true)
    (more : Text) : isGroup [] (' ' :: (k ++ ' ' :: more)) = true := by
  have all := sameLetters_iff.1 spelled
  have start : ∀ c ∈ (k ++ ' ' :: more).head?, isBlank c = false := by
    intro c head
    cases k with
    | nil => cases op <;> cases all
    | cons d k =>
      cases head
      obtain ⟨a, member, same⟩ := exists_agree_of_mem all (List.mem_cons_self ..)
      exact isBlank_of_isAsciiWord
        (isAsciiWord_of_agree (letters_keywords _ (mem_keywords op) a member) same)
  have trimmed : trimStart ([' '] ++ (k ++ ' ' :: more)) = k ++ ' ' :: more :=
    dropWhile_isBlank_append (by simp [isBlank]) start
  rw [List.singleton_append] at trimmed
  have connector : startsConnector (k ++ ' ' :: more) = true := by
    rw [startsConnector, List.any_eq_true]
    refine ⟨op, by cases op <;> simp, ?_⟩
    rw [after?_eq_some_iff.2 ⟨k, all, rfl⟩]
    rfl
  rw [isGroup, trimmed, connector]
  simp [trim, trimStart, trimEnd]

/-- A group may stand in front of conditions that are joined to it. -/
theorem isGroup_children {rest : List (Option BoolOp × Condition)}
    (operators : ∀ child ∈ rest, child.1.isSome = true) :
    isGroup [] (printChildren rest) = true := by
  cases rest with
  | nil => rfl
  | cons child rest =>
    obtain ⟨op, c⟩ := child
    obtain ⟨op, rfl⟩ := Option.isSome_iff_exists.1 (operators _ (List.mem_cons_self ..))
    have split : printChildren ((some op, c) :: rest)
        = ' ' :: (op.keyword ++ ' ' :: (c.printChild ++ printChildren rest)) := by
      rw [printChildren_cons]
      simp
    have spelled : sameLetters op.keyword op.keyword = true := by cases op <;> rfl
    rw [split]
    exact isGroup_connector spelled _

/-- What the tokenizer needs to know of a condition: that nothing divides a comparison, and what the
tokens of a group are. -/
def Divided (inner : Text → List Token) : Condition → Prop
  | .simple lhs op rhs => Chained comparisons (Condition.print (.simple lhs op rhs))
  | .nested children =>
    Balanced (printChildren children) ∧ inner (printChildren children) = childTokens children

/-- A condition is passed or taken out, in front of what is joined to it. -/
theorem run_child {inner : Text → List Token} {c : Condition} (divided : Divided inner c)
    {rest : Text} (behind : ClearBehind rest) (free : isGroup [] rest = true) :
    ∃ front seen, tokenizer.run inner [] .read (c.printChild ++ rest)
        = front ++ tokenizer.run inner seen .read rest
      ∧ (seen = [] ∨ HasEnding seen.reverse)
      ∧ front ++ tokenizer.flat seen.reverse = [c.token] := by
  cases c with
  | simple lhs op rhs =>
    refine ⟨[], (Condition.print (.simple lhs op rhs)).reverse, ?_, .inr ?_, ?_⟩
    · have passes : tokenizer.Passes inner [] (Condition.print (.simple lhs op rhs)) rest :=
        Separation.passes_chained symbols_eq rfl passesInfixes divided clearBefore_none behind
      rw [Tokenizer.Passes, List.append_nil] at passes
      exact passes
    · rw [List.reverse_reverse]
      exact divided.linked.ending
    · rw [List.reverse_reverse]
      exact Tokenizer.flat_trimmed rfl divided.linked.isTrimmed
  | nested children =>
    obtain ⟨balanced, tokens⟩ := divided
    refine ⟨[.nested (childTokens children)], [], ?_, .inl rfl, ?_⟩
    · rw [← tokens]
      exact run_group inner (Span.encloses_of_balanced balanced rest) free
    · rw [List.reverse_nil, Tokenizer.flat_nil]
      rfl

theorem clearBehind_children {rest : List (Option BoolOp × Condition)}
    (operators : ∀ child ∈ rest, child.1.isSome = true) : ClearBehind (printChildren rest) := by
  cases rest with
  | nil => exact clearBehind_nil
  | cons child rest =>
    obtain ⟨op, c⟩ := child
    obtain ⟨op, rfl⟩ := Option.isSome_iff_exists.1 (operators _ (List.mem_cons_self ..))
    rw [printChildren_cons]
    exact clearBehind_cons rfl _

/-- **The tokens of joined conditions are those of the conditions and the connectors.** -/
theorem run_children {inner : Text → List Token} {seen : Text}
    (ready : seen = [] ∨ HasEnding seen.reverse) {rest : List (Option BoolOp × Condition)}
    (operators : ∀ child ∈ rest, child.1.isSome = true)
    (divided : ∀ child ∈ rest, Divided inner child.2) :
    tokenizer.run inner seen .read (printChildren rest)
      = tokenizer.flat seen.reverse ++ childTokens rest := by
  induction rest generalizing seen with
  | nil =>
    rw [printChildren, childTokens, List.append_nil]
    rfl
  | cons child rest ih =>
    obtain ⟨op, c⟩ := child
    obtain ⟨op, rfl⟩ := Option.isSome_iff_exists.1 (operators _ (List.mem_cons_self ..))
    have others : ∀ child ∈ rest, child.1.isSome = true := by
      intro child mem
      exact operators child (List.mem_cons_of_mem _ mem)
    have keyword : tokenizer.flat (' ' :: (op.keyword ++ [' '])) = [.text op.keyword] := by
      cases op <;> rfl
    obtain ⟨front, seen', run, ready', token⟩ := run_child
      (divided _ (List.mem_cons_self ..)) (clearBehind_children others) (isGroup_children others)
    rw [printChildren_cons, List.append_assoc,
      Separation.run_separator symbols_eq divides (mem_separators op) ready, keyword, run,
      ih ready' others (fun child mem => divided child (List.mem_cons_of_mem _ mem)),
      ← List.append_assoc front, token]
    simp [childTokens]

theorem length_printChild_le {child : Option BoolOp × Condition}
    {children : List (Option BoolOp × Condition)} (mem : child ∈ children) :
    child.2.printChild.length ≤ (printChildren children).length := by
  induction children with
  | nil => cases mem
  | cons first rest ih =>
    rw [printChildren_cons, List.length_append, List.length_append]
    rcases List.mem_cons.1 mem with rfl | mem
    · omega
    · have shorter := ih mem
      omega

/-- What is canonical is divided, if the groups inside it are. -/
theorem divided_of_canonical {inner : Text → List Token} {c : Condition}
    (canonical : c.Canonical IsKeyword)
    (groups : ∀ children, c = .nested children →
      inner (printChildren children) = childTokens children) : Divided inner c := by
  cases canonical with
  | simple op left bare_left right bare_right =>
    exact chained_comparison op (left.shape bare_left).2 (right.shape bare_right).2
  | @nested first rest head more operators children =>
    constructor
    · have linked := (Condition.Canonical.nested head more operators children).shape.2
      rw [Condition.print] at linked
      exact linked.balanced
    · exact groups _ rfl

/-- **The tokens of a group of conditions**, if the depth is more than its length. -/
theorem tokenizeWithin_nested {depth : Nat} {children : List (Option BoolOp × Condition)}
    (canonical : Condition.Canonical IsKeyword (.nested children))
    (short : (printChildren children).length < depth) :
    tokenizer.tokenizeWithin depth (printChildren children) = childTokens children := by
  induction depth generalizing children with
  | zero => omega
  | succ depth ih =>
    have divided : ∀ child ∈ children, child.2.Canonical IsKeyword →
        Divided (tokenizer.tokenizeWithin depth) child.2 := by
      intro child mem canonical
      have shorter := length_printChild_le mem
      refine divided_of_canonical canonical fun inner same => ?_
      rw [same] at canonical shorter
      refine ih canonical ?_
      simp only [Condition.printChild, List.length_cons, List.length_append, List.length_nil]
        at shorter
      omega
    cases canonical with
    | @nested first rest head more operators canonical_rest =>
      obtain ⟨front, seen, run, ready, token⟩ := run_child
        (divided (none, first) (List.mem_cons_self ..) head)
        (clearBehind_children operators) (isGroup_children operators)
      rw [Tokenizer.tokenizeWithin, printChildren_cons, List.nil_append, run,
        run_children ready operators (fun child mem => divided child (List.mem_cons_of_mem _ mem)
          (canonical_rest child mem)), ← List.append_assoc, token]
      rfl

/-- **The tokens of a group of conditions are those of its children.** -/
theorem tokens_nested {children : List (Option BoolOp × Condition)}
    (canonical : Condition.Canonical IsKeyword (.nested children)) :
    tokens (Condition.print (.nested children)) = childTokens children := by
  rw [Condition.print]
  exact tokenizeWithin_nested canonical (Nat.lt_succ_self _)

/-- **A comparison is its only token.** -/
theorem tokens_comparison {lhs rhs : Expr} {op : CmpOp}
    (canonical : Condition.Canonical IsKeyword (.simple lhs op rhs)) :
    tokens (Condition.print (.simple lhs op rhs))
      = [.text (Condition.print (.simple lhs op rhs))] := by
  have divided : ∀ inner, Divided inner (.simple lhs op rhs) := by
    intro inner
    exact divided_of_canonical canonical nofun
  obtain ⟨front, seen, run, ready, token⟩ := run_child
    (divided (tokenizer.tokenizeWithin (Condition.print (.simple lhs op rhs)).length))
    clearBehind_nil rfl
  rw [List.append_nil] at run
  exact run.trans token

end Connected

/-! ### Bodies of case distinctions -/

namespace CaseBody

def separation : Separation :=
  ⟨false, keywords.map fun keyword => ' ' :: (keyword ++ [' ']), true⟩

theorem symbols_eq : tokenizer.symbols = separation.symbols :=
  rfl

theorem divides : separation.divides = true := by
  decide +kernel

theorem passesInfixes : separation.passesInfixes connectors = true := by
  decide +kernel

/-- The tokens of the branches and the default. -/
def partTexts (branches : List (Condition × Expr)) (default : Option Expr) : List Text :=
  (branches.flatMap fun branch =>
    [whenKeyword, branch.1.print, thenKeyword, branch.2.print])
    ++ default.elim [] fun e => [elseKeyword, e.print]

/-- A keyword and what stands behind it are tokens. -/
theorem run_keyword (inner : Text → List Token) {seen keyword x rest : Text}
    (ready : seen = [] ∨ HasEnding seen.reverse) (mem : keyword ∈ keywords)
    (linked : Linked connectors x) (behind : ClearBehind rest) :
    tokenizer.run inner seen .read (' ' :: (keyword ++ ' ' :: (x ++ rest)))
      = tokenizer.flat seen.reverse
          ++ .text keyword :: tokenizer.run inner x.reverse .read rest := by
  have flat : tokenizer.flat (' ' :: (keyword ++ [' '])) = [.text keyword] := by
    simp only [keywords, List.mem_cons, List.not_mem_nil, or_false] at mem
    rcases mem with rfl | rfl | rfl <;> rfl
  have passes : tokenizer.Passes inner [] x rest :=
    Separation.passes_linked symbols_eq rfl passesInfixes linked clearBefore_none behind
      fun groups => by cases groups
  rw [Tokenizer.Passes, List.append_nil] at passes
  have split : ' ' :: (keyword ++ ' ' :: (x ++ rest))
      = ' ' :: (keyword ++ [' ']) ++ (x ++ rest) := by simp
  have separator : ' ' :: (keyword ++ [' ']) ∈ separation.separators :=
    List.mem_map.2 ⟨keyword, mem, rfl⟩
  rw [split, Separation.run_separator symbols_eq divides separator ready, flat, passes]
  simp

theorem flat_linked {x : Text} (linked : Linked connectors x) :
    tokenizer.flat x.reverse.reverse = [.text x] := by
  rw [List.reverse_reverse]
  exact Tokenizer.flat_trimmed rfl linked.isTrimmed

theorem clearBehind_parts (branches : List (Condition × Expr)) (default : Option Expr) :
    ClearBehind (printBranches branches ++ printDefault default) := by
  cases branches with
  | nil =>
    cases default with
    | none => exact clearBehind_nil
    | some e => exact clearBehind_cons rfl _
  | cons branch branches => exact clearBehind_cons rfl _

/-- **The tokens of a body are its keywords, conditions and values.** -/
theorem run_parts (inner : Text → List Token) {seen : Text}
    (ready : seen = [] ∨ HasEnding seen.reverse) {branches : List (Condition × Expr)}
    {default : Option Expr} (conditions : ∀ branch ∈ branches, Linked connectors branch.1.print)
    (values : ∀ branch ∈ branches, Linked connectors branch.2.print)
    (otherwise : ∀ e ∈ default, Linked connectors e.print) :
    tokenizer.run inner seen .read (printBranches branches ++ printDefault default)
      = tokenizer.flat seen.reverse ++ (partTexts branches default).map .text := by
  have behind : ∀ {x : Text}, Linked connectors x →
      x.reverse = [] ∨ HasEnding x.reverse.reverse := by
    intro x linked
    rw [List.reverse_reverse]
    exact .inr linked.ending
  induction branches generalizing seen with
  | nil =>
    cases default with
    | none =>
      show tokenizer.flat seen.reverse = tokenizer.flat seen.reverse ++ []
      rw [List.append_nil]
    | some e =>
      have linked := otherwise e rfl
      have split : printBranches [] ++ printDefault (some e)
          = ' ' :: (elseKeyword ++ ' ' :: (e.print ++ [])) := by
        simp [printBranches, printDefault, elseKeyword]
      have last : tokenizer.run inner e.print.reverse .read [] = [.text e.print] :=
        flat_linked linked
      rw [split, run_keyword inner ready (by simp [keywords]) linked clearBehind_nil, last]
      rfl
  | cons branch branches ih =>
    obtain ⟨c, e⟩ := branch
    have condition : Linked connectors c.print := conditions _ (List.mem_cons_self ..)
    have value : Linked connectors e.print := values _ (List.mem_cons_self ..)
    have split : printBranches ((c, e) :: branches) ++ printDefault default
        = ' ' :: (whenKeyword ++ ' ' :: (c.print ++ ' ' :: (thenKeyword ++ ' ' :: (e.print
            ++ (printBranches branches ++ printDefault default))))) := by
      simp [printBranches, whenKeyword, thenKeyword]
    have others := ih (behind value)
      (fun branch mem => conditions branch (List.mem_cons_of_mem _ mem))
      fun branch mem => values branch (List.mem_cons_of_mem _ mem)
    rw [split, run_keyword inner ready (by simp [keywords]) condition (clearBehind_cons rfl _),
      run_keyword inner (behind condition) (by simp [keywords]) value
        (clearBehind_parts branches default),
      others, flat_linked condition, flat_linked value]
    rfl

/-- **The tokens of the body of a canonical case distinction.** -/
theorem tokens_parts {branches : List (Condition × Expr)} {default : Option Expr} {body : Text}
    (split : printBranches branches ++ printDefault default = ' ' :: body)
    (balanced : Balanced body)
    (conditions : ∀ branch ∈ branches, Linked connectors branch.1.print)
    (values : ∀ branch ∈ branches, Linked connectors branch.2.print)
    (otherwise : ∀ e ∈ default, Linked connectors e.print) :
    tokens body = (partTexts branches default).map .text := by
  rw [tokens, flattenBlanks_eq balanced, ← split]
  have run := run_parts (tokenizer.tokenizeWithin
    (printBranches branches ++ printDefault default).length) (.inl rfl) conditions values otherwise
  exact run

end CaseBody

end RecordMapper
