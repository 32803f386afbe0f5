import RecordMapper.Proofs.Query.NestedForm
import RecordMapper.Proofs.Query.RoundTrip
import RecordMapper.Proofs.Query.Budget
import RecordMapper.Proofs.Query.Spaced
import RecordMapper.Proofs.Token.Loose

/-!
Chains of well-nested operands.

An operand here is any trimmed, well-nested text in which, outside literals, parentheses and case
distinctions, no operator stands between blanks or the ends of the text. The tokenizer of chains
passes over it whole, and between two of them it divides at the operator. So **the tokens of a chain
are its operands and operators** (`Chain.tokens_joinOperands`).

A chain has neither the form of a field reference nor that of a literal, which are tried before, and
an alias behind it is split off the whole of it. So **it is read exactly if each of its operands is,
and then as the flat chain of these** (`Parser.reads_chain`).
-/

namespace RecordMapper

open Text

namespace Chain

/-! ### Operands -/

/-- No operator starts here that stands between blanks or the ends of the text. -/
def Unspaced (before : Option Char) (ahead : Text) : Prop :=
  ∀ op ∈ MathOp.all, ¬ (before.all isBlank = true ∧ ahead.head? = some op.symbol
    ∧ ahead.tail.head?.all isBlank = true)

instance (before : Option Char) (ahead : Text) : Decidable (Unspaced before ahead) :=
  inferInstanceAs (Decidable (∀ op ∈ MathOp.all, _))

/-- A trimmed, well-nested text in which, outside literals, parentheses and case distinctions, no
operator stands between blanks or the ends of the text. -/
structure IsOperand (t : Text) : Prop where
  trimmed : IsTrimmed t
  nested : NestedWith Unspaced none t []

/-- What follows an operand does not matter, as long as words end there. -/
theorem IsOperand.nested_front {t rest : Text} (operand : IsOperand t) (stop : IsStop rest) :
    NestedWith Unspaced none t rest := by
  refine operand.nested.of_stop isStop_nil stop fun {before c t} free _ => ?_
  rintro op mem ⟨front, same, behind⟩
  refine free op mem ⟨front, same, ?_⟩
  cases t with
  | nil => rfl
  | cons d t => exact behind

/-- No operand is an operator. -/
theorem IsOperand.ofSymbol?_eq_none {t : Text} (operand : IsOperand t) :
    MathOp.ofSymbol? t = none := by
  rw [MathOp.ofSymbol?, List.find?_eq_none]
  intro op mem same
  obtain rfl : t = [op.symbol] := by simpa using same
  have other : agree true 'C' op.symbol = false := by cases op <;> rfl
  exact (operand.nested.of_cons op.isLoose_symbol other).2.1 op mem ⟨rfl, rfl, rfl⟩

/-! ### Tokens -/

/-- No operator starts here that has a space on both sides. -/
def Undivided (before : Option Char) (ahead : Text) : Prop :=
  ∀ op : MathOp, ¬ (before = some ' ' ∧ ahead.head? = some op.symbol
    ∧ ahead.tail.head? = some ' ')

theorem Unspaced.undivided {before : Option Char} {ahead : Text} (free : Unspaced before ahead) :
    Undivided before ahead := by
  rintro op ⟨rfl, same, behind⟩
  refine free op op.mem_all ⟨rfl, same, ?_⟩
  rw [behind]
  rfl

/-- What was read does not end in a space and an operator, if a space follows. -/
def watch : separation.Watch Undivided where
  calm seen ahead := ahead.head? = some ' ' → Settled seen
  step := by
    intro seen c ahead _ free _ space op
    cases found : after? false [op.symbol, ' '] (c :: seen) with
    | none => rfl
    | some rest =>
      obtain same := after?_false_iff.1 found
      obtain ⟨rfl, rfl⟩ := List.cons.inj same
      exact absurd ⟨rfl, rfl, space⟩ (free op)
  misses := by
    intro seen c ahead _ _ calm separator mem
    obtain ⟨op, -, rfl⟩ := List.mem_map.1 mem
    by_cases space : ' ' = c
    · subst space
      exact calm rfl op
    · exact after?_cons_eq_none rfl space _ seen
  mark := by
    intro c mark seen ahead _
    refine settled_cons (fun op same => ?_) seen
    subst same
    cases op <;> simp [MathOp.symbol] at mark
  ending := by
    intro closing closes seen ahead _
    have reversed := List.forall₂_reverse_iff.2 (sameLetters_iff.1 closes)
    generalize closing.reverse = x at reversed ⊢
    cases reversed with
    | @cons _ d _ x last _ =>
      refine settled_cons (fun op same => ?_) (x ++ seen)
      have letter := isAlpha_of_agree rfl last
      subst same
      cases op <;> cases letter

variable {inner : Text → List Token}

/-- Well-nested text becomes part of the current token, if no loose operator in it has a space on
both sides, and an operator behind it is recognized. -/
theorem passes_undivided {t rest : Text} (nested : NestedWith Undivided none t rest) :
    tokenizer.Passes inner [] t rest ∧ (rest.head? = some ' ' → Settled t.reverse) := by
  have passed : watch.Passed tokenizer inner [] t rest :=
    Separation.passes_nested symbols_eq rfl nested rfl ⟨unbegun_nil, fun _ => settled_nil⟩ nofun
  have calm := passed.quiet.calm
  rw [List.append_nil] at calm
  exact ⟨passed.passes, calm⟩

/-- So does an operand. -/
theorem IsOperand.passes {t rest : Text} (operand : IsOperand t) (stop : IsStop rest) :
    tokenizer.Passes inner [] t rest ∧ (rest.head? = some ' ' → Settled t.reverse) :=
  passes_undivided ((operand.nested_front stop).imp Unspaced.undivided)

/-- Operands with operators between them, each between two spaces. -/
def joinOperands (first : Text) : List (MathOp × Text) → Text
  | [] => first
  | (op, t) :: links => first ++ ' ' :: op.symbol :: ' ' :: joinOperands t links

/-- The texts of the operators and of the operands behind them. -/
def linkTexts (links : List (MathOp × Text)) : List Text :=
  links.flatMap fun link => [[link.1.symbol], link.2]

theorem length_linkTexts (links : List (MathOp × Text)) :
    (linkTexts links).length = 2 * links.length := by
  induction links with
  | nil => rfl
  | cons link links ih =>
    show (linkTexts links).length + 2 = _
    rw [ih, List.length_cons]
    omega

/-- The last operand. -/
def lastOperand (first : Text) : List (MathOp × Text) → Text
  | [] => first
  | (_, t) :: links => lastOperand t links

theorem run_joinOperands {first : Text} {links : List (MathOp × Text)} (operand : IsOperand first)
    (operands : ∀ link ∈ links, IsOperand link.2) :
    tokenizer.run inner [] .read (joinOperands first links)
      = (first :: linkTexts links).map .text := by
  induction links generalizing first with
  | nil =>
    rw [joinOperands, Tokenizer.run_last (operand.passes isStop_nil).1]
    exact Tokenizer.flat_trimmed rfl operand.trimmed
  | cons link links ih =>
    obtain ⟨op, t⟩ := link
    obtain ⟨second, others⟩ := List.forall_mem_cons.1 operands
    have stop : IsStop (' ' :: op.symbol :: ' ' :: joinOperands t links) :=
      isStop_cons rfl (by decide) _
    obtain ⟨passes, settled⟩ : tokenizer.Passes inner [] first _ ∧ _ := operand.passes stop
    rw [joinOperands, passes, List.append_nil, run_operator (settled rfl), List.reverse_reverse,
      Tokenizer.flat_trimmed rfl operand.trimmed, ih second others]
    rfl

/-- **The tokens of a chain are its operands and operators.** -/
theorem tokens_joinOperands {first : Text} {links : List (MathOp × Text)} (several : links ≠ [])
    (operand : IsOperand first) (operands : ∀ link ∈ links, IsOperand link.2) :
    tokens (joinOperands first links) = (first :: linkTexts links).map .text := by
  have found : tokenizer.tokenize (joinOperands first links)
      = (first :: linkTexts links).map .text := run_joinOperands operand operands
  obtain ⟨link, links, rfl⟩ := List.exists_cons_of_ne_nil several
  exact tokensWithin_of_several found _

/-! ### Aliases -/

section Joined

variable {first : Text} {links : List (MathOp × Text)} (operand : IsOperand first)
  (operands : ∀ link ∈ links, IsOperand link.2)

/-- In front of the last operand stands an operator. -/
theorem exists_lastOperand (several : links ≠ []) : ∃ front, ∃ op : MathOp,
    joinOperands first links = front ++ op.symbol :: ' ' :: lastOperand first links := by
  induction links generalizing first with
  | nil => exact absurd rfl several
  | cons link links ih =>
    obtain ⟨op, t⟩ := link
    cases links with
    | nil => exact ⟨first ++ [' '], op, by simp [joinOperands, lastOperand]⟩
    | cons link links =>
      obtain ⟨front, op', same⟩ := @ih t (List.cons_ne_nil _ _)
      refine ⟨first ++ ' ' :: op.symbol :: ' ' :: front, op', ?_⟩
      rw [joinOperands, same]
      simp [lastOperand]

include operand

/-- A chain is neither a field reference nor a literal. -/
theorem form_joinOperands (several : links ≠ []) (rest : Text) :
    Form.field? (joinOperands first links ++ rest) = none
      ∧ Form.literal? (joinOperands first links ++ rest) = none := by
  obtain ⟨⟨op, t⟩, links, rfl⟩ := List.exists_cons_of_ne_nil several
  have split : joinOperands first ((op, t) :: links) ++ rest
      = first ++ [' '] ++ op.symbol :: ' ' :: (joinOperands t links ++ rest) := by
    simp [joinOperands]
  have nested : NestedWith Unspaced none (first ++ [' '])
      (op.symbol :: ' ' :: (joinOperands t links ++ rest)) := by
    refine .append (operand.nested_front (isStop_cons rfl (by decide) _)) ?_
    refine .cons_mark (by decide) rfl (fun op _ holds => ?_) .nil
    have space : ' ' = op.symbol := Option.some.inj holds.2.1
    cases op <;> cases space
  rw [split]
  exact ⟨Form.field?_eq_none_of_symbol op (by simp),
    Form.literal?_eq_none_of_symbol op nested (by simp)⟩

include operands

theorem isTrimmed_joinOperands : IsTrimmed (joinOperands first links) := by
  induction links generalizing first with
  | nil => exact operand.trimmed
  | cons link links ih =>
    obtain ⟨op, t⟩ := link
    obtain ⟨second, others⟩ := List.forall_mem_cons.1 operands
    have joined := operand.trimmed.append [' ', op.symbol, ' '] (ih second others)
    rwa [List.append_assoc] at joined

/-- **An alias is split off the whole of a chain**, and none is if the last operand, behind a blank,
ends in none. -/
theorem splitAlias_joinOperands (several : links ≠ []) {a : Option String}
    (named : ∀ name ∈ a, IsIdentifier name.toList)
    (unnamed : a = none → ¬ Form.EndsNamed (' ' :: lastOperand first links)) :
    Form.splitAlias (joinOperands first links ++ printAlias a)
      = (joinOperands first links, a.map String.toList) := by
  cases a with
  | some name =>
    exact Form.splitAlias_printAlias (isTrimmed_joinOperands operand operands) (named name rfl)
  | none =>
    rw [printAlias, List.append_nil]
    rcases split : Form.splitAlias (joinOperands first links) with ⟨body, _ | name⟩
    · rw [Form.splitAlias_eq_of_none split]
      rfl
    · exfalso
      obtain ⟨isCallName, -, -, naming, isNaming, whole⟩ := Form.exists_of_splitAlias split
      obtain ⟨front, op, same⟩ : ∃ front, ∃ op : MathOp,
          joinOperands first links = front ++ op.symbol :: ' ' :: lastOperand first links :=
        exists_lastOperand several
      rw [same] at whole
      -- no operator stands in the alias, so it stands behind the last one
      obtain ⟨x, -, behind⟩ := exists_of_not_mem whole (isNaming.not_mem_symbol op)
      exact unnamed rfl ⟨x, naming, name, behind, isNaming, isCallName⟩

end Joined

end Chain

/-! ### Reading -/

namespace Grammar

variable {parse : Text → Result Expr}

/-- **Operators and operands are read one by one.** -/
theorem links_linkTexts_eq_ok_iff {links : List (MathOp × Text)} (whole : Text)
    (proper : ∀ link ∈ links, MathOp.ofSymbol? link.2 = none)
    {rest : List (Option MathOp × Expr)} :
    Grammar.links parse whole (Chain.linkTexts links) = .ok rest
      ↔ List.Forall₂ (fun (link : MathOp × Text) operand =>
          operand.1 = some link.1 ∧ parse link.2 = .ok operand.2) links rest := by
  induction links generalizing rest with
  | nil =>
    have none : Grammar.links parse whole (Chain.linkTexts []) = .ok [] := rfl
    rw [none, List.forall₂_nil_left_iff, Except.ok.injEq, eq_comm]
  | cons link links ih =>
    obtain ⟨op, t⟩ := link
    obtain ⟨first, others⟩ := List.forall_mem_cons.1 proper
    have step : Grammar.links parse whole (Chain.linkTexts ((op, t) :: links)) = (do
        let e ← parse t
        let others ← Grammar.links parse whole (Chain.linkTexts links)
        .ok ((some op, e) :: others)) := by
      show Grammar.links parse whole ([op.symbol] :: t :: Chain.linkTexts links) = _
      rw [Grammar.links, ofSymbol?_symbol, operand, first]
      rfl
    rw [step]
    constructor
    · intro read
      obtain ⟨e, found, read⟩ := Result.exists_of_bind read
      obtain ⟨behind, found', read⟩ := Result.exists_of_bind read
      cases read
      exact .cons ⟨rfl, found⟩ ((ih others).1 found')
    · intro all
      cases all with
      | @cons _ operand _ behind read all =>
        obtain ⟨op', e⟩ := operand
        obtain ⟨rfl, found⟩ := read
        exact Result.bind_eq_ok_iff.2 ⟨e, found, Result.bind_eq_ok_iff.2
          ⟨behind, (ih others).2 all, rfl⟩⟩

end Grammar

namespace Parser

/-- **Arithmetic chains from left to right.** Let two or more operands be trimmed and well nested,
with no operator between blanks or the ends of the operand outside literals, parentheses and case
distinctions. Joined with operators, and perhaps with an alias behind them, they are read exactly if
each operand is read for itself, and then as the flat chain of what these are read as, in order, each
but the first with the operator in front of it, with that alias. If none is given, the last operand
may not end in one, behind the space that stands in front of it. -/
theorem reads_chain {first : Text} {links : List (MathOp × Text)} (several : links ≠ [])
    (operand : Chain.IsOperand first) (operands : ∀ link ∈ links, Chain.IsOperand link.2)
    {a : Option String} (named : ∀ name ∈ a, IsIdentifier name.toList)
    (unnamed : a = none → ¬ Form.EndsNamed (' ' :: Chain.lastOperand first links)) (e : Expr) :
    expression (Chain.joinOperands first links ++ printAlias a) none = .ok e
      ↔ ∃ d rest, expression first none = .ok d
        ∧ List.Forall₂ (fun (link : MathOp × Text) operand =>
            operand.1 = some link.1 ∧ expression link.2 none = .ok operand.2) links rest
        ∧ e = .math ((none, d) :: rest) a := by
  have trimmed : IsTrimmed (Chain.joinOperands first links ++ printAlias a) :=
    Grammar.isTrimmed_printAlias (Chain.isTrimmed_joinOperands operand operands)
      fun name mem => (named name mem).word
  have split := Chain.splitAlias_joinOperands operand operands several named unnamed
  have tokens := Chain.tokens_joinOperands several operand operands
  have even := Chain.length_linkTexts links
  have many : Chain.linkTexts links ≠ [] := by
    intro none
    rw [none, List.length_nil] at even
    exact several (List.length_eq_zero_iff.1 (by omega))
  have found := @Grammar.chain?_eq_of_texts (fun u => expression u none) _ _ _ split _ _ tokens many
    (by omega)
  have texts : (a.map String.toList).map String.ofList = a := by
    cases a with
    | none => rfl
    | some name => exact congrArg some String.ofList_toList
  obtain ⟨noField, noLiteral⟩ := Chain.form_joinOperands operand several (printAlias a)
  have proper := fun link mem => (operands link mem).ofSymbol?_eq_none
  rw [expression_eq_grammar, Grammar.expression_eq_of_chain trimmed noField
    (Grammar.bound?_none _) noLiteral found, texts, Grammar.operand, operand.ofSymbol?_eq_none]
  simp only [Option.isSome_none, Bool.false_eq_true, if_false, Result.bind_eq_ok_iff,
    Grammar.links_linkTexts_eq_ok_iff _ proper]
  constructor
  · rintro ⟨d, readFirst, rest, readOthers, same⟩
    cases same
    exact ⟨d, rest, readFirst, readOthers, rfl⟩
  · rintro ⟨d, rest, readFirst, readOthers, rfl⟩
    exact ⟨d, readFirst, rest, readOthers, rfl⟩

/-! A case distinction in lower case and parentheses, both with an operator inside, and a field. -/

def sumCase : Text :=
  ['c', 'a', 's', 'e'] ++ ([' ', 'w', 'h', 'e', 'n', ' ', '1', '=', '1', ' ', 't', 'h', 'e', 'n',
    ' ', '2', ' ', '+', ' ', '3', ' '] ++ (['e', 'n', 'd'] ++ []))

def chainLinks : List (MathOp × Text) :=
  [(.mul, ['(', '4', ' ', '-', ' ', '5', ')']), (.sub, ['\x7b', 'b', '\x7d'])]

theorem isOperand_sumCase : Chain.IsOperand sumCase := by
  refine ⟨⟨List.cons_ne_nil _ _, by rintro _ ⟨⟩; rfl, by rintro _ ⟨⟩; rfl⟩, ?_⟩
  refine .case rfl rfl ?_ rfl rfl .nil
  iterate 21 refine .char (by decide) (by decide) (by decide) (by decide) ?_
  exact .nil

theorem isOperand_chainLinks : ∀ link ∈ chainLinks, Chain.IsOperand link.2 := by
  refine List.forall_mem_cons.2 ⟨?_, List.forall_mem_singleton.2 ?_⟩
  · refine ⟨⟨List.cons_ne_nil _ _, by rintro _ ⟨⟩; rfl, by rintro _ ⟨⟩; rfl⟩, ?_⟩
    refine @NestedWith.group _ _ ['4', ' ', '-', ' ', '5'] [] [] ?_ .nil
    iterate 5 refine .char (by decide) (by decide) (by decide) (by decide) ?_
    exact .nil
  · refine ⟨⟨List.cons_ne_nil _ _, by rintro _ ⟨⟩; rfl, by rintro _ ⟨⟩; rfl⟩, ?_⟩
    exact @NestedWith.field _ _ ['b'] [] [] (isReference_singleton rfl) .nil

theorem reads_chain_mixed :
    chainLinks ≠ [] ∧ Chain.IsOperand sumCase ∧ (∀ link ∈ chainLinks, Chain.IsOperand link.2)
      ∧ (∀ name ∈ (none : Option String), IsIdentifier name.toList)
      ∧ ((none : Option String) = none →
        ¬ Form.EndsNamed (' ' :: Chain.lastOperand sumCase chainLinks))
      ∧ expression (Chain.joinOperands sumCase chainLinks ++ printAlias none) none
        = .ok (.math [
          (none, .case [(.simple (.scalar (.int 1) none) .eq (.scalar (.int 1) none),
            .math [(none, .scalar (.int 2) none), (some .add, .scalar (.int 3) none)] none)]
              none none),
          (some .mul,
            .math [(none, .scalar (.int 4) none), (some .sub, .scalar (.int 5) none)] none),
          (some .sub, .field ⟨none, "b", none⟩)] none) := by
  have several : chainLinks ≠ [] := List.cons_ne_nil _ _
  have named : ∀ name ∈ (none : Option String), IsIdentifier name.toList := by simp
  have unnamed : (none : Option String) = none →
      ¬ Form.EndsNamed (' ' :: Chain.lastOperand sumCase chainLinks) :=
    fun _ => Form.not_endsNamed_of_mark rfl [' ', '\x7b', 'b']
  refine ⟨several, isOperand_sumCase, isOperand_chainLinks, named, unnamed, ?_⟩
  refine (reads_chain several isOperand_sumCase isOperand_chainLinks named unnamed _).2
    ⟨_, _, rfl, ?_, rfl⟩
  exact .cons ⟨rfl, rfl⟩ (.cons ⟨rfl, rfl⟩ .nil)

/-- That the last operand is no alias for itself is not enough: behind an operator, `AS b` is taken
for the alias of what is in front, which is no chain then. -/
theorem not_reads_chain_of_alias :
    Chain.IsOperand ['\x7b', 'a', '\x7d'] ∧ Chain.IsOperand ['A', 'S', ' ', 'b']
      ∧ ¬ Form.EndsNamed ['A', 'S', ' ', 'b']
      ∧ expression ['\x7b', 'a', '\x7d'] none = .ok (.field ⟨none, "a", none⟩)
      ∧ expression ['A', 'S', ' ', 'b'] none = .ok (.raw "AS b")
      ∧ expression (Chain.joinOperands ['\x7b', 'a', '\x7d'] [(.add, ['A', 'S', ' ', 'b'])]) none
        ≠ .ok (.math [(none, .field ⟨none, "a", none⟩), (some .add, .raw "AS b")] none) := by
  refine ⟨⟨⟨by simp, by rintro _ ⟨⟩; rfl, by rintro _ ⟨⟩; rfl⟩, ?_⟩,
    ⟨⟨by simp, by rintro _ ⟨⟩; rfl, by rintro _ ⟨⟩; rfl⟩, ?_⟩, ?_, rfl, rfl, ?_⟩
  · exact @NestedWith.field _ _ ['a'] [] [] (isReference_singleton rfl) .nil
  · iterate 4 refine .char (by decide) (by decide) (by decide) (by decide) ?_
    exact .nil
  · -- an alias has five characters at least
    rintro ⟨body, naming, name, whole, ⟨x, word, y, rfl, blank, written, blank', isName⟩, -⟩
    have lengths := congrArg List.length whole
    have front := List.length_pos_iff.2 blank.1
    have back := List.length_pos_iff.2 blank'.1
    have named := List.length_pos_iff.2 isName.1
    simp only [List.length_append, written.length_eq, List.length_cons, List.length_nil] at lengths
    omega
  · have read : expression (Chain.joinOperands ['\x7b', 'a', '\x7d'] [(.add, ['A', 'S', ' ', 'b'])])
        none = .ok (.raw "{a} + AS b") := rfl
    rw [read]
    nofun

end Parser

end RecordMapper
