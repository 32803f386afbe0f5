import RecordMapper.Proofs.Query.Rules
import RecordMapper.Proofs.Query.Spaced
import RecordMapper.Proofs.Query.Substitution
import RecordMapper.Query.Parser

/-!
Bound values and the structure of chains.

The values of a query are put into its text before that is read, but only where it is read as a
literal or handed on. An operand of a chain is neither: a placeholder becomes a node of its own that
holds the value, and field references and numbers hold no placeholder. So **two assignments to the
same placeholders give a chain the same tree**, up to the values in it
(`Parser.expression_withoutValues_eq`), as long as the text with the values put in does not read as
one literal and no keywords of a case distinction stand in its operands.
-/

namespace RecordMapper

open Text

/-! ### Trees without values -/

mutual

/-- An expression with nothing in the place of the values bound to placeholders. -/
def Expr.withoutValues : Expr → Expr
  | .field ref => .field ref
  | .var name _ => .var name .null
  | .raw sql => .raw sql
  | .scalar v a => .scalar v a
  | .math operands a => .math (operandsWithoutValues operands) a
  | .func name distinct args a => .func name distinct (argumentsWithoutValues args) a
  | .case branches default a =>
    .case (branchesWithoutValues branches) (defaultWithoutValues default) a

/-- A condition with nothing in the place of the values bound to placeholders. -/
def Condition.withoutValues : Condition → Condition
  | .simple lhs op rhs => .simple lhs.withoutValues op rhs.withoutValues
  | .nested children => .nested (childrenWithoutValues children)

def operandsWithoutValues : List (Option MathOp × Expr) → List (Option MathOp × Expr)
  | [] => []
  | (op, e) :: rest => (op, e.withoutValues) :: operandsWithoutValues rest

def argumentsWithoutValues : List Expr → List Expr
  | [] => []
  | e :: rest => e.withoutValues :: argumentsWithoutValues rest

def branchesWithoutValues : List (Condition × Expr) → List (Condition × Expr)
  | [] => []
  | (c, e) :: rest => (c.withoutValues, e.withoutValues) :: branchesWithoutValues rest

def defaultWithoutValues : Option Expr → Option Expr
  | none => none
  | some e => some e.withoutValues

def childrenWithoutValues : List (Option BoolOp × Condition) → List (Option BoolOp × Condition)
  | [] => []
  | (op, c) :: rest => (op, c.withoutValues) :: childrenWithoutValues rest

end

namespace Bindings

/-- Whether a value is bound to a name. -/
def bound (b : Bindings) (name : String) : Bool :=
  (b.get? name).isSome

theorem bound_ofList (pairs : List (String × Value)) (name : String) :
    (ofList pairs).bound name = true ↔ name ∈ Assoc.keys pairs := by
  rw [bound, get?, ofList, Option.isSome_iff_ne_none, ne_eq, Assoc.get?_eq_none_iff, not_not,
    Assoc.mem_keys_ofList]

/-- Which names are bound does not depend on the values. -/
theorem bound_ofList_eq {pairs pairs' : List (String × Value)}
    (names : Assoc.keys pairs = Assoc.keys pairs') : (ofList pairs).bound = (ofList pairs').bound := by
  funext name
  rw [Bool.eq_iff_iff, bound_ofList, bound_ofList, names]

/-- A text without placeholders is kept. -/
theorem substitute_of_not_isInfix (b : Bindings) {t : Text}
    (absent : ∀ pair ∈ b.values, ¬ placeholder pair.1 <:+: t) : b.substitute t = t := by
  obtain ⟨values⟩ := b
  induction values with
  | nil => rfl
  | cons pair values ih =>
    obtain ⟨first, others⟩ := List.forall_mem_cons.1 absent
    show substitute ⟨values⟩ (t.replace (placeholder pair.1) pair.2.literal) = t
    rw [replace_of_not_isInfix first]
    exact ih others

/-- There are no placeholders without percent signs. -/
theorem substitute_of_not_mem (b : Bindings) {t : Text} (free : '%' ∉ t) : b.substitute t = t :=
  b.substitute_of_not_isInfix fun _ _ inside => free (inside.subset (List.mem_cons_self ..))

end Bindings

/-! ### Numbers -/

namespace Reading

theorem isSome_decimal? (negative : Bool) {t : Text} (unsigned : IsUnsigned t) :
    (decimal? negative t).isSome = true := by
  cases unsigned with
  | whole digits =>
    have whole : t.takeWhile Char.isDigit = t := List.takeWhile_eq_self_iff.2 digits.2
    have rest : t.dropWhile Char.isDigit = [] := List.dropWhile_eq_nil_iff.2 digits.2
    simp [decimal?, whole, rest, scaling?, digits.1]
  | @fraction w f digits digits' =>
    have point : ∀ c ∈ ('.' :: f).head?, c.isDigit = false := by
      rintro c ⟨⟩
      rfl
    obtain ⟨whole, rest⟩ := takeWhile_append_of_head digits.2 point
    have fraction : f.takeWhile Char.isDigit = f := List.takeWhile_eq_self_iff.2 digits'.2
    have none : f.dropWhile Char.isDigit = [] := List.dropWhile_eq_nil_iff.2 digits'.2
    simp [decimal?, whole, rest, fraction, none, scaling?, digits.1]

theorem isSome_unsigned? (negative : Bool) {t : Text} (unsigned : IsUnsigned t) :
    (unsigned? negative t).isSome = true := by
  unfold unsigned?
  split
  · rfl
  · split
    · rfl
    · exact isSome_decimal? negative unsigned

end Reading

namespace Form

/-- A number is read to its end. -/
theorem unsigned?_of_isUnsigned {t : Text} (unsigned : IsUnsigned t) :
    unsigned? t = some (t, []) := by
  cases unsigned with
  | whole digits =>
    have read : digits? (t ++ []) = some (t, []) := digits?_append digits.1 digits.2 nofun
    rw [List.append_nil] at read
    simp only [unsigned?, read, Option.bind_eq_bind, Option.bind_some]
  | @fraction w f digits digits' =>
    have point : ∀ c ∈ ('.' :: f).head?, Text.isDigit c = false := by
      rintro c ⟨⟩
      rfl
    have read := digits?_append digits.1 digits.2 point
    have read' : digits? (f ++ []) = some (f, []) := digits?_append digits'.1 digits'.2 nofun
    rw [List.append_nil] at read'
    simp only [unsigned?, read, read', Option.bind_eq_bind, Option.bind_some]

theorem literal?_of_isUnsigned {t : Text} (unsigned : IsUnsigned t) :
    literal? t = some (.number t, none) := by
  obtain ⟨c, rest, rfl, digit⟩ := unsigned.start
  have read := unsigned?_of_isUnsigned unsigned
  have start : literalStart? (c :: rest) = some (.number (c :: rest), []) := by
    unfold literalStart?
    split
    · rename_i same
      rw [(List.cons.inj same).1] at digit
      cases digit
    · rename_i same
      rw [(List.cons.inj same).1] at digit
      cases digit
    · rw [read]
      rfl
  rw [literal?, start]
  rfl

theorem literal?_of_negative {t : Text} (unsigned : IsUnsigned t) :
    literal? ('-' :: t) = some (.number ('-' :: t), none) := by
  have start : literalStart? ('-' :: t) = some (.number ('-' :: t), []) := by
    rw [literalStart?, unsigned?_of_isUnsigned unsigned]
    rfl
  rw [literal?, start]
  rfl

theorem placeholder?_cons_eq_none {c : Char} (other : c ≠ '%') (t : Text) :
    placeholder? (c :: t) = none := by
  unfold placeholder?
  split
  · rename_i same
    exact absurd (List.cons.inj same).1 other
  · rfl

/-- A placeholder is read if nothing stands behind it. -/
theorem placeholder?_append {name : Text} (word : IsName name) (rest : Text) :
    placeholder? ('%' :: (name ++ '%' :: rest))
      = if rest = [] then some (String.ofList name) else none := by
  have read : word? (name ++ '%' :: rest) = some (name, '%' :: rest) :=
    word?_append word fun c mem => by cases mem; rfl
  rw [placeholder?, read]
  cases rest <;> rfl

/-- An operator behind blanks is no alias. -/
theorem ending?_operator {blanks : Text} (nonempty : blanks ≠ [])
    (blank : ∀ c ∈ blanks, isBlank c = true) (op : MathOp) (rest : Text) :
    ending? (blanks ++ op.symbol :: rest) = none := by
  obtain ⟨c, blanks, rfl⟩ := List.exists_cons_of_ne_nil nonempty
  have first := blank c (List.mem_cons_self ..)
  have trimmed : trimStart (blanks ++ op.symbol :: rest) = op.symbol :: rest := by
    refine dropWhile_isBlank_append (fun d mem => blank d (List.mem_cons_of_mem _ mem)) ?_
    intro d mem
    cases mem
    cases op <;> rfl
  have other : afterWord? ['A', 'S'] (op.symbol :: rest) = none := by
    cases op <;> rfl
  simp [ending?, afterBlanks?, first, trimmed, other]

section Operand

variable {bound : String → Bool} {x rest : Text} (operand : IsOperand bound x)
include operand

/-- An operand is no field reference, if no alias stands behind it. -/
theorem field?_of_operand (unnamed : ending? rest = none) : field? (x ++ rest) = none := by
  have digits : ∀ {t : Text}, IsUnsigned t → field? (t ++ rest) = none := by
    intro t unsigned
    obtain ⟨c, t, rfl, digit⟩ := unsigned.start
    refine field?_cons_eq_none ?_ _
    rintro rfl
    cases digit
  cases operand with
  | @field name word =>
    have split : '\x7b' :: (name ++ ['\x7d']) ++ rest = '\x7b' :: (name ++ '\x7d' :: rest) := by simp
    rw [split, field?_name word, unnamed]
    rfl
  | @qualified table name table_word word =>
    have split : '\x7b' :: (table ++ '.' :: name ++ ['\x7d']) ++ rest
        = '\x7b' :: (table ++ '.' :: name ++ '\x7d' :: rest) := by simp
    rw [split, field?_qualified table_word word, unnamed]
    rfl
  | number unsigned => exact digits unsigned
  | negative _ => exact field?_cons_eq_none (by decide) _
  | placeholder _ _ => exact field?_cons_eq_none (by decide) _

/-- An operand is no placeholder, if anything stands behind it. -/
theorem placeholder?_of_operand (more : rest ≠ []) : placeholder? (x ++ rest) = none := by
  cases operand with
  | field _ => exact placeholder?_cons_eq_none (by decide) _
  | qualified _ _ => exact placeholder?_cons_eq_none (by decide) _
  | number unsigned =>
    obtain ⟨c, t, rfl, digit⟩ := unsigned.start
    refine placeholder?_cons_eq_none ?_ _
    rintro rfl
    cases digit
  | negative _ => exact placeholder?_cons_eq_none (by decide) _
  | @placeholder name word _ =>
    have split : '%' :: (name ++ ['%']) ++ rest = '%' :: (name ++ '%' :: rest) := by simp
    rw [split, placeholder?_append word, if_neg more]

end Operand

end Form

/-! ### Operands -/

namespace Grammar

variable {bound : String → Bool} {parse : Text → Result Expr} {b : Bindings}

theorem exists_number {t : Text} (read : (Reading.float? t).isSome = true) :
    ∃ v, number t = .ok v := by
  obtain ⟨x, read⟩ := Option.isSome_iff_exists.1 read
  unfold number
  split
  · exact ⟨_, rfl⟩
  · rw [read]
    exact ⟨_, rfl⟩

theorem exists_number_of_isUnsigned {t : Text} (unsigned : IsUnsigned t) :
    ∃ v, number t = .ok v := by
  refine exists_number ?_
  obtain ⟨c, rest, rfl, digit⟩ := unsigned.start
  unfold Reading.float?
  split
  · rename_i same
    rw [(List.cons.inj same).1] at digit
    cases digit
  · rename_i same
    rw [(List.cons.inj same).1] at digit
    cases digit
  · exact Reading.isSome_unsigned? false unsigned

theorem bound?_eq_none {t : Text} (other : Form.placeholder? t = none) :
    bound? (some b) t = none := by
  rw [bound?, Option.bind_some, other]
  rfl

/-- A number is read as it is written, whatever is bound. -/
theorem expression_number {x : Text} {v : Value} (trimmed : IsTrimmed x)
    (digits : ∀ c ∈ x, c ≠ '%' ∧ c ≠ '\x7b') (literal : Form.literal? x = some (.number x, none))
    (value : number x = .ok v) : expression (some b) parse x = .ok (.scalar v none) := by
  obtain ⟨c, rest, rfl⟩ := List.exists_cons_of_ne_nil trimmed.nonempty
  obtain ⟨percent, brace⟩ := digits c (List.mem_cons_self ..)
  have free : '%' ∉ c :: rest := fun mem => (digits _ mem).1 rfl
  have found : scalar? (some b) (c :: rest) = .ok (some (.scalar v none)) := by
    rw [scalar?, substitute, b.substitute_of_not_mem free, literal]
    simp only [value]
    rfl
  exact expression_of_scalar trimmed (Form.field?_cons_eq_none brace rest)
    (bound?_eq_none (Form.placeholder?_cons_eq_none percent rest)) found

/-- **What an operand is read as depends on the names that are bound, not on their values.** -/
theorem exists_expression_operand {x : Text} (operand : IsOperand bound x) :
    ∃ shape, ∀ (b : Bindings) (parse : Text → Result Expr), b.bound = bound →
      ∃ e, expression (some b) parse x = .ok e ∧ e.withoutValues = shape := by
  have trimmed := operand.isTrimmed
  have not_mark : ∀ {t : Text}, IsUnsigned t → ∀ c ∈ t, c ≠ '%' ∧ c ≠ '\x7b' := by
    intro t unsigned c mem
    rcases unsigned.chars c mem with digit | rfl
    · constructor
      all_goals
        rintro rfl
        cases digit
    · exact ⟨by decide, by decide⟩
  cases operand with
  | @field name word =>
    refine ⟨_, fun b parse _ => ⟨.field ⟨none, String.ofList name, none⟩, ?_, rfl⟩⟩
    refine expression_of_field trimmed ?_
    exact Form.field?_name word []
  | @qualified table name table_word word =>
    refine ⟨_, fun b parse _ =>
      ⟨.field ⟨some (String.ofList table), String.ofList name, none⟩, ?_, rfl⟩⟩
    refine expression_of_field trimmed ?_
    exact Form.field?_qualified table_word word []
  | number unsigned =>
    obtain ⟨v, value⟩ := exists_number_of_isUnsigned unsigned
    refine ⟨_, fun b parse _ => ⟨.scalar v none, ?_, rfl⟩⟩
    exact expression_number trimmed (not_mark unsigned) (Form.literal?_of_isUnsigned unsigned) value
  | @negative t unsigned =>
    obtain ⟨v, value⟩ := exists_number (t := '-' :: t) (Reading.isSome_unsigned? true unsigned)
    refine ⟨_, fun b parse _ => ⟨.scalar v none, ?_, rfl⟩⟩
    refine expression_number trimmed ?_ (Form.literal?_of_negative unsigned) value
    intro c mem
    rcases List.mem_cons.1 mem with rfl | mem
    · exact ⟨by decide, by decide⟩
    · exact not_mark unsigned c mem
  | @placeholder name word isBound =>
    refine ⟨.var (String.ofList name) .null, fun b parse same => ?_⟩
    subst same
    obtain ⟨v, value⟩ := Option.isSome_iff_exists.1 isBound
    refine ⟨.var (String.ofList name) v, ?_, rfl⟩
    refine expression_of_bound trimmed (Form.field?_cons_eq_none (by decide) _) ?_
    rw [bound?, Option.bind_some, Form.placeholder?_append word [], if_pos rfl, Option.bind_some,
      value]
    rfl

/-- What the operands behind the first one are read as does not depend on the bound values. -/
theorem exists_links (joints : List (Joint bound)) :
    ∃ shapes, ∀ (b : Bindings) (parse : Text → Result Expr) (whole : Text), b.bound = bound →
      ∃ rest, links (expression (some b) parse) whole (jointTokens joints) = .ok rest
        ∧ operandsWithoutValues rest = shapes := by
  induction joints with
  | nil => exact ⟨[], fun b parse whole _ => ⟨[], rfl, rfl⟩⟩
  | cons j joints ih =>
    obtain ⟨shape, first⟩ := exists_expression_operand j.isOperand
    obtain ⟨shapes, others⟩ := ih
    refine ⟨(some j.op, shape) :: shapes, fun b parse whole same => ?_⟩
    obtain ⟨e, value, rfl⟩ := first b parse same
    obtain ⟨rest, values, rfl⟩ := others b parse whole same
    refine ⟨(some j.op, e) :: rest, ?_, rfl⟩
    have read : operand (expression (some b) parse) whole j.operand = .ok e := by
      rw [operand, j.isOperand.ofSymbol?_eq_none]
      exact value
    show links _ whole ([j.op.symbol] :: j.operand :: jointTokens joints) = _
    rw [links, ofSymbol?_symbol]
    simp only [read, values]
    rfl

end Grammar

/-! ### Chains -/

theorem length_jointTokens {bound : String → Bool} (joints : List (Joint bound)) :
    (jointTokens joints).length = 2 * joints.length := by
  induction joints with
  | nil => rfl
  | cons j joints ih =>
    show (jointTokens joints).length + 2 = _
    rw [ih, List.length_cons]
    omega

namespace SpacedChain

variable {bound : String → Bool} (chain : SpacedChain bound)

/-- A chain ends with an operand that blanks stand before. -/
theorem exists_last : ∃ front x, chain.body = front ++ x ∧ IsOperand bound x
    ∧ ∀ c ∈ front.getLast?, isBlank c = true := by
  obtain ⟨joints, j, split⟩ := (List.eq_nil_or_concat chain.joints).resolve_left chain.many
  refine ⟨chain.first ++ jointTexts joints ++ j.front ++ [' ', j.op.symbol] ++ ' ' :: j.back,
    j.operand, ?_, j.isOperand, ?_⟩
  · rw [body, split]
    simp [jointTexts, Joint.text]
  · intro c last
    rw [List.getLast?_append_of_ne_nil _ (List.cons_ne_nil ' ' j.back)] at last
    rcases List.mem_cons.1 (List.mem_of_getLast? last) with rfl | mem
    · rfl
    · exact j.blank_back c mem

theorem isTrimmed_body : IsTrimmed chain.body := by
  obtain ⟨front, x, split, operand, -⟩ := chain.exists_last
  obtain ⟨c, rest, same, -, other⟩ := chain.isOperand.start
  refine ⟨?_, ?_, ?_⟩
  · rw [body, same]
    exact List.cons_ne_nil c _
  · intro d first
    rw [body, same] at first
    cases first
    exact other
  · intro d last
    rw [split, List.getLast?_append_of_ne_nil _ operand.isTrimmed.nonempty] at last
    exact (operand.last d last).2

theorem trim_text : chain.text.trim = chain.body :=
  chain.isTrimmed_body.trim_append chain.blank_lead chain.blank_trail

/-- An operator stands behind the first operand. -/
theorem exists_operator : ∃ blanks, ∃ op : MathOp, ∃ rest, blanks ≠ []
    ∧ (∀ c ∈ blanks, isBlank c = true) ∧ chain.body = chain.first ++ (blanks ++ op.symbol :: rest) := by
  obtain ⟨j, joints, more⟩ := List.exists_cons_of_ne_nil chain.many
  refine ⟨j.front ++ [' '], j.op, ' ' :: (j.back ++ (j.operand ++ jointTexts joints)), by simp, ?_,
    ?_⟩
  · intro c mem
    rcases List.mem_append.1 mem with mem | mem
    · exact j.blank_front c mem
    · obtain rfl := List.mem_singleton.1 mem
      rfl
  · rw [body, more]
    simp [jointTexts, Joint.text]

/-- A chain has no alias. -/
theorem splitAlias_body : Form.splitAlias chain.body = (chain.body, none) := by
  obtain ⟨front, x, split, operand, blank⟩ := chain.exists_last
  have digits : ∀ {start t : Text}, IsUnsigned t → (∀ c ∈ start.getLast?, isWord c = false) →
      Form.splitAlias (start ++ t) = (start ++ t, none) := by
    intro start t unsigned before
    obtain ⟨f, w, rfl, digits, stop⟩ := unsigned.stop
    rw [← List.append_assoc]
    refine Form.splitAlias_digits digits.1 digits.2 ?_
    rcases stop with rfl | ⟨f, rfl⟩
    · rw [List.append_nil]
      exact before
    · intro c last
      rw [← List.append_assoc, List.getLast?_concat] at last
      cases last
      rfl
  rw [split]
  cases operand with
  | @field name _ => 
    have found := Form.splitAlias_of_mark (t := front ++ '\x7b' :: name) (c := '\x7d') rfl
    simpa using found
  | @qualified table name _ _ =>
    have found := Form.splitAlias_of_mark (t := front ++ '\x7b' :: (table ++ '.' :: name))
      (c := '\x7d') rfl
    simpa using found
  | number unsigned => exact digits unsigned fun c last => isWord_of_isBlank (blank c last)
  | @negative t unsigned =>
    have minus : ∀ c ∈ (front ++ ['-']).getLast?, isWord c = false := by
      intro c last
      rw [List.getLast?_concat] at last
      cases last
      rfl
    have found := digits unsigned minus
    simpa using found
  | @placeholder name _ _ =>
    have found := Form.splitAlias_of_mark (t := front ++ '%' :: name) (c := '%') rfl
    simpa using found

end SpacedChain

namespace Parser

/-- **What a chain is read as depends on the names that are bound, not on their values.** -/
theorem exists_expression_chain {bound : String → Bool} (chain : SpacedChain bound)
    (apart : Chain.NoCaseAcross chain.operands) :
    ∃ shape, ∀ b : Bindings, b.bound = bound → Form.literal? (b.substitute chain.body) = none →
      ∃ e, expression chain.text (some b) = .ok e ∧ e.withoutValues = shape := by
  obtain ⟨shape, first⟩ := Grammar.exists_expression_operand chain.isOperand
  obtain ⟨shapes, others⟩ := Grammar.exists_links chain.joints
  obtain ⟨blanks, op, behind, nonempty, blank, split⟩ := chain.exists_operator
  refine ⟨.math ((none, shape) :: shapes) none, fun b same noLiteral => ?_⟩
  have trimmed := chain.isTrimmed_body
  obtain ⟨n, depth⟩ : ∃ n, chain.text.length = n + 1 := by
    refine Nat.exists_eq_succ_of_ne_zero fun zero => trimmed.nonempty ?_
    rw [SpacedChain.text, List.length_eq_zero_iff] at zero
    exact (List.append_eq_nil_iff.1 (List.append_eq_nil_iff.1 zero).2).1
  obtain ⟨e, value, rfl⟩ := first b (expressionWithin (some b) n) same
  obtain ⟨rest, values, rfl⟩ := others b (expressionWithin (some b) n) chain.body same
  have noField : Form.field? chain.body = none := by
    rw [split]
    exact Form.field?_of_operand chain.isOperand (Form.ending?_operator nonempty blank op behind)
  have unbound : Grammar.bound? (some b) chain.body = none := by
    refine Grammar.bound?_eq_none ?_
    rw [split]
    exact Form.placeholder?_of_operand chain.isOperand (by simp [nonempty])
  have read : Grammar.operand (Grammar.expression (some b) (expressionWithin (some b) n)) chain.body
      chain.first = .ok e := by
    rw [Grammar.operand, chain.isOperand.ofSymbol?_eq_none]
    exact value
  have texts := length_jointTokens chain.joints
  have many := List.length_pos_iff.2 chain.many
  have found := Grammar.chain?_of_texts chain.splitAlias_body (chain.tokens_body apart)
    (List.length_pos_iff.1 (by omega)) (by omega) read values
  refine ⟨.math ((none, e) :: rest) none, ?_, rfl⟩
  have whole := Grammar.expression_of_chain trimmed noField unbound noLiteral found
  rw [expression, depth, expressionWithin, Grammar.expression_trim, chain.trim_text]
  exact whole

/-- **Two assignments to the same placeholders give a chain the same tree**, up to the values in
it, whatever these are: as long as neither text that the values are put into reads as one literal,
and no keywords of a case distinction stand in the operands. -/
theorem expression_withoutValues_eq {b b' : Bindings} (same : b'.bound = b.bound)
    (chain : SpacedChain b.bound) (apart : Chain.NoCaseAcross chain.operands)
    (noLiteral : Form.literal? (b.substitute chain.text.trim) = none)
    (noLiteral' : Form.literal? (b'.substitute chain.text.trim) = none) :
    ∃ e e', expression chain.text (some b) = .ok e ∧ expression chain.text (some b') = .ok e'
      ∧ e.withoutValues = e'.withoutValues := by
  obtain ⟨shape, read⟩ := exists_expression_chain chain apart
  rw [chain.trim_text] at noLiteral noLiteral'
  obtain ⟨e, found, rfl⟩ := read b rfl noLiteral
  obtain ⟨e', found', shape⟩ := read b' same noLiteral'
  exact ⟨e, e', found, found', shape.symm⟩

section Samples

/-- A value for the name `discount`. -/
def discounted (v : Value) : Bindings :=
  .ofList [("discount", v)]

/-- ` {price} * {tax.rate}  - %discount% + 1.5`. -/
def total (v : Value) : SpacedChain (discounted v).bound where
  lead := [' ']
  first := "\x7bprice\x7d".toList
  joints := [
    { front := [], op := .mul, back := [], operand := "\x7btax.rate\x7d".toList
      blank_front := List.forall_mem_nil _, blank_back := List.forall_mem_nil _
      isOperand := @IsOperand.qualified _ "tax".toList "rate".toList (isName_of_checked rfl)
        (isName_of_checked rfl) },
    { front := [' '], op := .sub, back := [], operand := "%discount%".toList
      blank_front := List.forall_mem_singleton.2 rfl, blank_back := List.forall_mem_nil _
      isOperand := @IsOperand.placeholder _ "discount".toList (isName_of_checked rfl) rfl },
    { front := [], op := .add, back := [], operand := "1.5".toList
      blank_front := List.forall_mem_nil _, blank_back := List.forall_mem_nil _
      isOperand := .number (.fraction (isDigits_singleton rfl) (isDigits_singleton rfl)) }]
  trail := []
  blank_lead := List.forall_mem_singleton.2 rfl
  blank_trail := List.forall_mem_nil _
  isOperand := @IsOperand.field _ "price".toList (isName_of_checked rfl)
  many := List.cons_ne_nil _ _

/-- A value that holds a quote, an operator and a placeholder. -/
def quoted : Value :=
  .string "1\" + %discount% AS total"

theorem expression_withoutValues_eq_total :
    (discounted (.int 7)).bound = (discounted quoted).bound
      ∧ Chain.NoCaseAcross (total quoted).operands
      ∧ Form.literal? ((discounted quoted).substitute (total quoted).text.trim) = none
      ∧ Form.literal? ((discounted (.int 7)).substitute (total quoted).text.trim) = none
      ∧ ∃ e e', expression (total quoted).text (some (discounted quoted)) = .ok e
        ∧ expression (total quoted).text (some (discounted (.int 7))) = .ok e'
        ∧ e.withoutValues = e'.withoutValues := by
  have same : (discounted (.int 7)).bound = (discounted quoted).bound :=
    Bindings.bound_ofList_eq rfl
  have apart : Chain.NoCaseAcross (total quoted).operands := by decide
  have noLiteral : Form.literal? ((discounted quoted).substitute (total quoted).text.trim) = none :=
    by decide +kernel
  have noLiteral' :
      Form.literal? ((discounted (.int 7)).substitute (total quoted).text.trim) = none := by
    decide +kernel
  exact ⟨same, apart, noLiteral, noLiteral',
    expression_withoutValues_eq same (total quoted) apart noLiteral noLiteral'⟩

/-- A chain of two placeholders with a plus sign between them. -/
def sum (b : Bindings) {x y : Text} (word : IsName x) (word' : IsName y)
    (isBound : b.bound (String.ofList x) = true) (isBound' : b.bound (String.ofList y) = true) :
    SpacedChain b.bound where
  lead := []
  first := '%' :: (x ++ ['%'])
  joints := [
    { front := [], op := .add, back := [], operand := '%' :: (y ++ ['%'])
      blank_front := List.forall_mem_nil _, blank_back := List.forall_mem_nil _
      isOperand := .placeholder word' isBound' }]
  trail := []
  blank_lead := List.forall_mem_nil _
  blank_trail := List.forall_mem_nil _
  isOperand := .placeholder word isBound
  many := List.cons_ne_nil _ _

/-- Values for the names `a` and `b`. -/
def addends (v w : String) : Bindings :=
  .ofList [("a", .string v), ("b", .string w)]

/-- Values for the names `case` and `end`. -/
def keywords (v w : String) : Bindings :=
  .ofList [("case", .string v), ("end", .string w)]

/-- Two values can make `%a% + %b%` one string literal, and `%case% + %end%` is handed on with the
values in it. -/
theorem expression_depends_on_values :
    (∃ (b b' : Bindings) (chain : SpacedChain b.bound) (e e' : Expr), b'.bound = b.bound
        ∧ Chain.NoCaseAcross chain.operands ∧ expression chain.text (some b) = .ok e
        ∧ expression chain.text (some b') = .ok e' ∧ e.withoutValues ≠ e'.withoutValues)
      ∧ ∃ (b b' : Bindings) (chain : SpacedChain b.bound) (e e' : Expr), b'.bound = b.bound
        ∧ Form.literal? (b.substitute chain.text.trim) = none
        ∧ Form.literal? (b'.substitute chain.text.trim) = none
        ∧ expression chain.text (some b) = .ok e ∧ expression chain.text (some b') = .ok e'
        ∧ e.withoutValues ≠ e'.withoutValues := by
  refine ⟨⟨addends "\"x" "y\"", addends "x" "y",
      @sum _ ['a'] ['b'] (isName_of_checked rfl) (isName_of_checked rfl) rfl rfl,
      .scalar (.string "x + y") none,
      .math [(none, .var "a" (.string "x")), (some .add, .var "b" (.string "y"))] none,
      Bindings.bound_ofList_eq rfl, by decide, rfl, rfl, ?_⟩,
    ⟨keywords "1" "2", keywords "3" "4",
      @sum _ ['c', 'a', 's', 'e'] ['e', 'n', 'd'] (isName_of_checked rfl) (isName_of_checked rfl)
        rfl rfl,
      .raw "1 + 2", .raw "3 + 4", Bindings.bound_ofList_eq rfl, by decide +kernel,
      by decide +kernel, rfl, rfl, ?_⟩⟩
  · simp [Expr.withoutValues]
  · simp [Expr.withoutValues]

end Samples

end Parser

end RecordMapper
