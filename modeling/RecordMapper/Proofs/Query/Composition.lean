import RecordMapper.Proofs.Query.Budget
import RecordMapper.Proofs.Query.NestedTokens
import RecordMapper.Proofs.Query.Rules

/-!
Connectors compose conditions.

The tokens of operands joined by connectors are those of the operands, and the reader of conditions
reads a token the same wherever it stands, with enough depth for the longest text. So **joined
operands are read exactly if each is, and then as the nested condition of what they are read as**
(`Parser.composes_conditions`). Nothing is asked of what the operands say: they need to be well
nested and to hold no connector outside literals, parentheses and case distinctions.
-/

namespace RecordMapper

open Text

/-- A relation to the members of one list can be told of those of another one, if these are related
to them. -/
theorem forall₂_iff_of_forall₂ {α β γ : Type} {R : α → β → Prop} {P : β → γ → Prop}
    {Q : α → γ → Prop} {l : List α} {m : List β} (all : List.Forall₂ R l m)
    (same : ∀ a ∈ l, ∀ b, R a b → ∀ c, P b c ↔ Q a c) (n : List γ) :
    List.Forall₂ P m n ↔ List.Forall₂ Q l n := by
  induction all generalizing n with
  | nil => rw [List.forall₂_nil_left_iff, List.forall₂_nil_left_iff]
  | @cons a b l m related _ ih =>
    obtain ⟨first, others⟩ := List.forall_mem_cons.1 same
    cases n with
    | nil => exact iff_of_false nofun nofun
    | cons c n =>
      rw [List.forall₂_cons, List.forall₂_cons, first b related c, ih others n]

namespace Grammar

section Joining

variable {bindings : Option Bindings} {parse : Text → Result Expr}

/-- The child is read from the token, with this connector in front. -/
def ReadAs (bindings : Option Bindings) (parse : Text → Result Expr) (part : BoolOp × Token)
    (child : Option BoolOp × Condition) : Prop :=
  child.1 = some part.1 ∧ conditionOfToken bindings parse part.2 = .ok child.2

/-- A connector and a token behind it are read before the others. -/
theorem joined_cons {token : Token} (proper : connector? token = none) (op : BoolOp)
    (tokens : List Token) :
    joined bindings parse none (.text op.keyword :: token :: tokens) = (do
      let c ← conditionOfToken bindings parse token
      let others ← joined bindings parse none tokens
      .ok ((some op, c) :: others)) := by
  rw [joined.eq_def]
  simp only [connector?_keyword]
  rw [joined.eq_def]
  simp only [proper]

/-- **What connectors join is read token by token.** -/
theorem joined_linkTokens_eq_ok_iff {parts : List (BoolOp × Token)}
    (proper : ∀ part ∈ parts, connector? part.2 = none)
    {children : List (Option BoolOp × Condition)} :
    joined bindings parse none (Connected.linkTokens parts) = .ok children
      ↔ List.Forall₂ (ReadAs bindings parse) parts children := by
  induction parts generalizing children with
  | nil =>
    have none : joined bindings parse none (Connected.linkTokens []) = .ok [] := by
      rw [Connected.linkTokens, List.flatMap_nil, joined]
    rw [none, List.forall₂_nil_left_iff, Except.ok.injEq, eq_comm]
  | cons part parts ih =>
    obtain ⟨first, others⟩ := List.forall_mem_cons.1 proper
    obtain ⟨op, token⟩ := part
    have step : joined bindings parse none (Connected.linkTokens ((op, token) :: parts)) = _ :=
      joined_cons first op (Connected.linkTokens parts)
    rw [step]
    constructor
    · intro read
      obtain ⟨c, found, read⟩ := Result.exists_of_bind read
      obtain ⟨behind, found', read⟩ := Result.exists_of_bind read
      cases read
      exact .cons ⟨rfl, found⟩ ((ih others).1 found')
    · intro all
      cases all with
      | @cons _ child _ behind read all =>
        obtain ⟨op', c⟩ := child
        obtain ⟨rfl, found⟩ := read
        exact Result.bind_eq_ok_iff.2 ⟨c, found, Result.bind_eq_ok_iff.2
          ⟨behind, (ih others).2 all, rfl⟩⟩

/-- **Joined conditions are read as a nested one.** -/
theorem conditionOfTokens_linkTokens_eq_ok_iff {token : Token} {parts : List (BoolOp × Token)}
    (several : parts ≠ []) (proper : connector? token = none)
    (others : ∀ part ∈ parts, connector? part.2 = none) {c : Condition} :
    conditionOfTokens bindings parse (token :: Connected.linkTokens parts) = .ok c
      ↔ ∃ first children, conditionOfToken bindings parse token = .ok first
        ∧ List.Forall₂ (ReadAs bindings parse) parts children
        ∧ c = .nested ((none, first) :: children) := by
  obtain ⟨⟨op, next⟩, parts, rfl⟩ := List.exists_cons_of_ne_nil several
  have step : conditionOfTokens bindings parse (token :: Connected.linkTokens ((op, next) :: parts))
      = (do
        let first ← conditionOfToken bindings parse token
        let others ← joined bindings parse none (Connected.linkTokens ((op, next) :: parts))
        .ok (.nested ((none, first) :: others))) := by
    rw [conditionOfTokens.eq_def]
    simp only [Connected.linkTokens, List.flatMap_cons, List.cons_append, proper]
  rw [step]
  constructor
  · intro read
    obtain ⟨first, found, read⟩ := Result.exists_of_bind read
    obtain ⟨children, found', read⟩ := Result.exists_of_bind read
    exact ⟨first, children, found, (joined_linkTokens_eq_ok_iff others).1 found',
      (Except.ok.inj read).symm⟩
  · rintro ⟨first, children, found, all, rfl⟩
    exact Result.bind_eq_ok_iff.2 ⟨first, found, Result.bind_eq_ok_iff.2
      ⟨children, (joined_linkTokens_eq_ok_iff others).2 all, rfl⟩⟩

end Joining

end Grammar

namespace Parser

variable {bindings : Option Bindings}

theorem condition_eq_ok_iff {t : Text} {c : Condition} :
    condition t bindings = .ok c ↔ bareCondition t bindings = .ok c := by
  rw [condition]
  cases bareCondition t bindings with
  | error e =>
    constructor
    · intro read
      cases read
    · intro read
      cases read
  | ok d => exact Iff.rfl

/-- A text that is one token is read as the token is. -/
theorem condition_eq_ok_iff_of_isToken {t : Text} {token : Token}
    (isToken : Connected.IsToken t token) {depth : Nat} (enough : t.length < depth)
    {c : Condition} :
    condition t bindings = .ok c
      ↔ Grammar.conditionOfToken bindings (expressionWithin bindings depth) token = .ok c := by
  rw [condition_eq_ok_iff, bareCondition_eq depth enough, Grammar.condition, isToken.2,
    Grammar.conditionOfTokens]

/-- **Connectors compose conditions.** Two or more operands with connectors between them, in any
letter case, are read exactly if each of them is read for itself. They are read as the nested
condition whose children are what the operands are read as, in order, the first without a connector
and each other one with that in front of it. -/
theorem composes_conditions {first : Text} {links : List Connected.Link} (several : links ≠ [])
    (operand : Connected.IsOperand first)
    (operands : ∀ link ∈ links, Connected.IsOperand link.operand) (c : Condition) :
    condition (Connected.joinLinks first links) bindings = .ok c
      ↔ ∃ d children, condition first bindings = .ok d
        ∧ List.Forall₂ (fun (link : Connected.Link) child =>
            child.1 = some link.op ∧ condition link.operand bindings = .ok child.2) links children
        ∧ c = .nested ((none, d) :: children) := by
  obtain ⟨token, parts, isToken, all, tokens⟩ := Connected.tokens_joinLinks operand operands
  obtain ⟨enough, enoughs⟩ := Connected.length_le_joinLinks first links
  have related : List.Forall₂ (fun (part : BoolOp × Token) (link : Connected.Link) =>
      Grammar.connector? part.2 = none ∧ part.1 = link.op) parts links :=
    all.flip.imp fun _ _ related => ⟨related.2.1, related.1⟩
  have proper := ((List.forall₂_and_left parts links).1 related).1
  have several' : parts ≠ [] := by
    rintro rfl
    cases all
    exact several rfl
  have children := forall₂_iff_of_forall₂ all fun link mem part related child => by
    obtain ⟨same, isToken⟩ := related
    show Grammar.ReadAs bindings
        (expressionWithin bindings ((Connected.joinLinks first links).length + 1)) part child
      ↔ child.1 = some link.op ∧ condition link.operand bindings = .ok child.2
    rw [Grammar.ReadAs, same, condition_eq_ok_iff_of_isToken isToken
      (Nat.lt_succ_of_le (enoughs link mem))]
  rw [condition_eq_ok_iff, bareCondition, Grammar.condition, tokens,
    Grammar.conditionOfTokens_linkTokens_eq_ok_iff several' isToken.1 proper]
  simp only [condition_eq_ok_iff_of_isToken isToken (Nat.lt_succ_of_le enough), children]

/-! A group, a comparison with a literal that holds a connector and a parenthesis, and one with a
case distinction in lower case. -/

def groupText : Text :=
  ['(', '\x7b', 'a', '\x7d', '=', '1', ')']

def literalText : Text :=
  ['"', ' ', 'o', 'r', ' ', '(', '"', '=', '\x7b', 'b', '\x7d']

def branchText : Text :=
  [' ', 'w', 'h', 'e', 'n', ' ', '\x7b', 'c', '\x7d', '=', '1', ' ', 't', 'h', 'e', 'n', ' ', '2',
    ' ']

def caseText : Text :=
  ['c', 'a', 's', 'e'] ++ (branchText ++ (['e', 'n', 'd'] ++ ['=', '2']))

theorem isOperand_group : Connected.IsOperand groupText := by
  refine ⟨⟨List.cons_ne_nil _ _, by rintro _ ⟨⟩; rfl, by rintro _ ⟨⟩; rfl⟩, ?_⟩
  refine @Nested.group _ none ['\x7b', 'a', '\x7d', '=', '1'] [] [] ?_ .nil
  refine @Nested.field _ none ['a'] ['=', '1'] _ (isReference_singleton rfl) ?_
  iterate 2 refine .char (by decide) (by decide) (by decide) (by decide) ?_
  exact .nil

theorem isOperand_literal : Connected.IsOperand literalText := by
  refine ⟨⟨List.cons_ne_nil _ _, by rintro _ ⟨⟩; rfl, by rintro _ ⟨⟩; rfl⟩, ?_⟩
  refine @Nested.literal _ none [' ', 'o', 'r', ' ', '('] ['=', '\x7b', 'b', '\x7d'] _ rfl ?_
  refine .char (by decide) (by decide) (by decide) (by decide) ?_
  exact @Nested.field _ _ ['b'] [] _ (isReference_singleton rfl) .nil

theorem isOperand_case : Connected.IsOperand caseText := by
  refine ⟨⟨List.cons_ne_nil _ _, by rintro _ ⟨⟩; rfl, by rintro _ ⟨⟩; rfl⟩, ?_⟩
  refine .case rfl rfl ?_ rfl rfl ?_
  · iterate 6 refine .char (by decide) (by decide) (by decide) (by decide) ?_
    refine @Nested.field _ _ ['c'] _ _ (isReference_singleton rfl) ?_
    iterate 10 refine .char (by decide) (by decide) (by decide) (by decide) ?_
    exact .nil
  · iterate 2 refine .char (by decide) (by decide) (by decide) (by decide) ?_
    exact .nil

def mixedLinks : List Connected.Link :=
  [⟨.and, ['a', 'N', 'd'], rfl, literalText⟩, ⟨.or, ['o', 'r'], rfl, caseText⟩]

theorem composes_conditions_mixed :
    mixedLinks ≠ [] ∧ Connected.IsOperand groupText
      ∧ (∀ link ∈ mixedLinks, Connected.IsOperand link.operand)
      ∧ condition (Connected.joinLinks groupText mixedLinks) none
        = .ok (.nested [
            (none, .simple (.field ⟨none, "a", none⟩) .eq (.scalar (.int 1) none)),
            (some .and,
              .simple (.scalar (.string " or (") none) .eq (.field ⟨none, "b", none⟩)),
            (some .or, .simple (.case [(.simple (.field ⟨none, "c", none⟩) .eq
              (.scalar (.int 1) none), .scalar (.int 2) none)] none none) .eq
                (.scalar (.int 2) none))]) := by
  have several : mixedLinks ≠ [] := List.cons_ne_nil _ _
  have operands : ∀ link ∈ mixedLinks, Connected.IsOperand link.operand :=
    List.forall_mem_cons.2 ⟨isOperand_literal, List.forall_mem_singleton.2 isOperand_case⟩
  refine ⟨several, isOperand_group, operands,
    (composes_conditions several isOperand_group operands _).2 ⟨_, _, rfl, ?_, rfl⟩⟩
  exact .cons ⟨rfl, rfl⟩ (.cons ⟨rfl, rfl⟩ .nil)

end Parser

end RecordMapper
