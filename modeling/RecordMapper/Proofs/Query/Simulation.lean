import RecordMapper.Proofs.Query.Budget
import RecordMapper.Proofs.Related
import RecordMapper.Proofs.Token.Depth

/-!
Texts that the grammar reads alike.

A `Simulation` is a relation of texts that every form reads alike: where one text has a form, the
other has it too, and the parts that are read further are related again. With it comes a relation of
trees that the constructors respect. The grammar does nothing with a text but ask for its form and
read the parts, so **related texts are both refused or read into related trees**
(`Simulation.expression_alike`, `Simulation.condition_alike`), however the two texts and their
bindings differ. The recursion is that of the grammar: one lemma for each rule, given that the parts
are read alike.
-/

namespace RecordMapper

open Text

/-! ### Parts that are read further -/

/-- Things under one label, such as the operands of a chain with the operators before them. -/
inductive Labelled {α β γ : Type} (rel : α → β → Prop) : γ × α → γ × β → Prop
  | label (c : γ) {a : α} {b : β} (holds : rel a b) : Labelled rel (c, a) (c, b)

/-- Two sides of the same comparison. -/
inductive CmpOp.Sides (pair : Text → Text → Prop) : Text × CmpOp × Text → Text × CmpOp × Text → Prop
  | sides (op : CmpOp) {left left' right right' : Text} (before : pair left left')
    (behind : pair right right') : Sides pair (left, op, right) (left', op, right')

/-- Calls of the same function with related arguments. -/
structure Form.Call.Pairs (pair : Text → Text → Prop) (c c' : Form.Call) : Prop where
  name : c.name = c'.name
  arguments : pair c.arguments c'.arguments
  aliasName : c.aliasName = c'.aliasName

/-- Case distinctions with the same frame and related bodies. -/
structure Form.Case.Pairs (pair : Text → Text → Prop) (c c' : Form.Case) : Prop where
  opened : c.opened = c'.opened
  body : pair c.body c'.body
  closed : c.closed = c'.closed
  aliasName : c.aliasName = c'.aliasName

/-- Chains with the same alias and related tokens; a single token is the whole chain in both or in
none. -/
structure Chain.Pairs (pair : Text → Text → Prop) (split split' : Text × Option Text) : Prop where
  tokens : List.Forall₂ (Token.Pairs pair) (Chain.tokens split.1) (Chain.tokens split'.1)
  whole : ∀ inner inner', Chain.tokens split.1 = [.text inner] →
    Chain.tokens split'.1 = [.text inner'] → (inner = split.1 ↔ inner' = split'.1)
  aliasName : split.2 = split'.2

/-! ### Simulations -/

/-- Relations of expressions and of conditions that the constructors respect. -/
structure Congruence (expr : Expr → Expr → Prop) (cond : Condition → Condition → Prop) : Prop where
  field : ∀ ref, expr (.field ref) (.field ref)
  scalar : ∀ value a, expr (.scalar value a) (.scalar value a)
  math : ∀ {operands operands'} a, List.Forall₂ (Labelled expr) operands operands' →
    expr (.math operands a) (.math operands' a)
  func : ∀ name distinct {args args'} a, List.Forall₂ expr args args' →
    expr (.func name distinct args a) (.func name distinct args' a)
  case : ∀ {branches branches' default default'} a,
    List.Forall₂ (fun branch branch' => cond branch.1 branch'.1 ∧ expr branch.2 branch'.2)
      branches branches' → Option.Rel expr default default' →
    expr (.case branches default a) (.case branches' default' a)
  simple : ∀ {lhs lhs' rhs rhs'} op, expr lhs lhs' → expr rhs rhs' →
    cond (.simple lhs op rhs) (.simple lhs' op rhs')
  nested : ∀ {children children'}, List.Forall₂ (Labelled cond) children children' →
    cond (.nested children) (.nested children')
  isRaw : ∀ {e e'}, expr e e' → e.isRaw = e'.isRaw

/-- A relation of texts that every form of the grammar reads alike. -/
structure Simulation (bindings bindings' : Option Bindings) (pair : Text → Text → Prop)
    (expr : Expr → Expr → Prop) (cond : Condition → Condition → Prop) : Prop
    extends Congruence expr cond where
  trim : ∀ {x y}, pair x y → pair x.trim y.trim
  isEmpty : ∀ {x y : Text}, pair x y → x.isEmpty = y.isEmpty
  emptied : ∀ {x y}, pair x y → (Grammar.substitute bindings x).trim.isEmpty
    = (Grammar.substitute bindings' y).trim.isEmpty
  field? : ∀ {x y}, pair x y → Form.field? x = Form.field? y
  bound? : ∀ {x y}, pair x y →
    Option.Rel expr (Grammar.bound? bindings x) (Grammar.bound? bindings' y)
  scalar? : ∀ {x y}, pair x y → Grammar.scalar? bindings x = Grammar.scalar? bindings' y
  raw : ∀ {x y}, pair x y → expr (.raw (String.ofList (Grammar.substitute bindings x)))
    (.raw (String.ofList (Grammar.substitute bindings' y)))
  split? : ∀ {x y}, pair x y → Option.Rel (CmpOp.Sides pair) (CmpOp.split? x) (CmpOp.split? y)
  connected : ∀ {x y}, pair x y →
    List.Forall₂ (Token.Pairs pair) (Connected.tokens x) (Connected.tokens y)
  connector : ∀ {x y}, pair x y → BoolOp.ofKeyword? x = BoolOp.ofKeyword? y
  chain : ∀ {x y}, pair x y → Chain.Pairs pair (Form.splitAlias x) (Form.splitAlias y)
  sign : ∀ {x y}, pair x y → MathOp.ofSymbol? x = MathOp.ofSymbol? y
  items : ∀ {x y}, pair x y → List.Forall₂ pair (FieldList.items x) (FieldList.items y)
  call? : ∀ {x y}, pair x y → Option.Rel (Form.Call.Pairs pair) (Form.call? x) (Form.call? y)
  distinct : ∀ {x y}, pair x y →
    Option.Rel (fun rest rest' : Text => pair rest.trimStart rest'.trimStart)
      (after? true Grammar.distinctKeyword x) (after? true Grammar.distinctKeyword y)
  case? : ∀ {x y}, pair x y → Option.Rel (Form.Case.Pairs fun body body' => List.Forall₂ pair
    ((CaseBody.tokens body).map Token.print) ((CaseBody.tokens body').map Token.print))
      (Form.case? x) (Form.case? y)
  keyword : ∀ {x y}, pair x y → ∀ w ∈ CaseBody.keywords, x = w ↔ y = w

namespace Simulation

open Grammar Result

/-- Related texts are both refused, or read into related trees. -/
def Reads (pair : Text → Text → Prop) (expr : Expr → Expr → Prop)
    (parse parse' : Text → Result Expr) : Prop :=
  ∀ x y, pair x y → AlikeBy expr (parse x) (parse' y)

variable {bindings bindings' : Option Bindings} {pair : Text → Text → Prop}
  {expr : Expr → Expr → Prop} {cond : Condition → Condition → Prop}
  (sim : Simulation bindings bindings' pair expr cond) {parse parse' : Text → Result Expr}
  (reads : Reads pair expr parse parse') {x y : Text}
include sim reads

/-! ### Conditions -/

theorem comparison_alike (holds : pair x y) :
    AlikeBy cond (comparison bindings parse x) (comparison bindings' parse' y) := by
  unfold comparison
  rw [sim.emptied holds]
  split
  · exact alike_invalidExpression _ _
  rcases exists_of_rel (sim.split? holds) with
    ⟨missed, missed'⟩ | ⟨_, _, ⟨op, before, behind⟩, found, found'⟩
  · rw [missed, missed']
    exact alike_invalidExpression _ _
  rw [found, found']
  dsimp only
  rw [sim.isEmpty (sim.trim before), sim.isEmpty (sim.trim behind)]
  split
  · exact alike_invalidExpression _ _
  refine (reads _ _ (sim.trim before)).bind fun lhs lhs' left => ?_
  exact (reads _ _ (sim.trim behind)).bind fun rhs rhs' right => .ok (sim.simple op left right)

omit reads in
theorem connector?_eq {token token' : Token} (pairs : Token.Pairs pair token token') :
    connector? token = connector? token' := by
  cases pairs with
  | text holds => exact sim.connector holds
  | nested each => rfl

omit sim reads

mutual

theorem conditionOfTokens_alike (sim : Simulation bindings bindings' pair expr cond)
    (reads : Reads pair expr parse parse') : {tokens tokens' : List Token} →
    List.Forall₂ (Token.Pairs pair) tokens tokens' →
    AlikeBy cond (conditionOfTokens bindings parse tokens) (conditionOfTokens bindings' parse' tokens')
  | [], [], .nil => alike_invalidExpression _ _
  | [_], [_], .cons first .nil => conditionOfToken_alike sim reads first
  | token :: next :: rest, token' :: next' :: rest', .cons first others => by
    have multiple := joined_alike sim reads none others
    rw [conditionOfTokens, conditionOfTokens, sim.connector?_eq first]
    · split
      · exact alike_invalidExpression _ _
      · refine (conditionOfToken_alike sim reads first).bind fun c c' holds => ?_
        exact multiple.bind fun others others' holds' =>
          .ok (sim.nested (.cons (.label none holds) holds'))
    · nofun
    · nofun

theorem conditionOfToken_alike (sim : Simulation bindings bindings' pair expr cond)
    (reads : Reads pair expr parse parse') : {token token' : Token} →
    Token.Pairs pair token token' →
    AlikeBy cond (conditionOfToken bindings parse token) (conditionOfToken bindings' parse' token')
  | .text _, .text _, .text holds => sim.comparison_alike reads holds
  | .nested _, .nested _, .nested each => conditionOfTokens_alike sim reads each

theorem joined_alike (sim : Simulation bindings bindings' pair expr cond)
    (reads : Reads pair expr parse parse') : (pending : Option BoolOp) → {tokens tokens' : List Token} →
    List.Forall₂ (Token.Pairs pair) tokens tokens' →
    AlikeBy (List.Forall₂ (Labelled cond)) (joined bindings parse pending tokens)
      (joined bindings' parse' pending tokens')
  | none, [], [], .nil => by
    rw [joined, joined]
    exact .ok .nil
  | some op, [], [], .nil => by
    rw [joined, joined]
    exact alike_invalidExpression _ _
  | none, token :: rest, token' :: rest', .cons first others => by
    have same := sim.connector?_eq first
    cases connects : connector? token with
    | none =>
      simp only [joined, connects, ← same]
      exact alike_invalidExpression _ _
    | some op =>
      simp only [joined, connects, ← same]
      exact joined_alike sim reads (some op) others
  | some op, token :: rest, token' :: rest', .cons first others => by
    have same := sim.connector?_eq first
    cases connects : connector? token with
    | some _ =>
      simp only [joined, connects, ← same]
      exact alike_invalidExpression _ _
    | none =>
      simp only [joined, connects, ← same]
      refine (conditionOfToken_alike sim reads first).bind fun c c' holds => ?_
      exact (joined_alike sim reads none others).bind fun others others' holds' =>
        .ok (.cons (.label (some op) holds) holds')

end

include sim reads

/-- **Related conditions are read alike**, if the expressions in them are. -/
theorem grammar_condition_alike (holds : pair x y) :
    AlikeBy cond (condition bindings parse x) (condition bindings' parse' y) :=
  sim.conditionOfTokens_alike reads (sim.connected holds)

/-! ### Chains -/

theorem operand_alike (whole whole' : Text) (holds : pair x y) :
    AlikeBy expr (operand parse whole x) (operand parse' whole' y) := by
  rw [operand, operand, sim.sign holds]
  split
  · exact alike_invalidExpression _ _
  · exact reads x y holds

theorem links_alike (whole whole' : Text) {texts texts' : List Text}
    (each : List.Forall₂ pair texts texts') :
    AlikeBy (List.Forall₂ (Labelled expr)) (links parse whole texts) (links parse' whole' texts') := by
  induction size : texts.length using Nat.strong_induction_on generalizing texts texts' with
  | h length ih =>
    subst size
    rcases each with _ | ⟨first, _ | ⟨second, others⟩⟩
    case nil => exact .ok .nil
    case cons.nil => exact .ok .nil
    case cons.cons =>
      rw [links, links, sim.sign first]
      split
      · exact alike_invalidExpression _ _
      · rename_i op _
        refine (sim.operand_alike reads whole whole' second).bind fun e e' holds => ?_
        refine (ih _ (by simp only [List.length_cons]; omega) others rfl).bind
          fun links links' holds' => .ok (.cons (.label (some op) holds) holds')

omit sim reads in
/-- The texts of flat tokens are related; nested tokens have none on both sides. -/
theorem rel_mapM_text? {tokens tokens' : List Token}
    (pairs : List.Forall₂ (Token.Pairs pair) tokens tokens') :
    Option.Rel (List.Forall₂ pair) (tokens.mapM Token.text?) (tokens'.mapM Token.text?) := by
  induction pairs with
  | nil => exact .some .nil
  | cons first _ ih =>
    rw [List.mapM_cons, List.mapM_cons]
    cases first with
    | nested => exact .none
    | text holds =>
      refine rel_bind (.some holds) fun t t' first => rel_bind ih fun texts texts' others => ?_
      exact .some (.cons first others)

/-- What is no chain is read again if parentheses were taken off. -/
theorem unwrapped_alike {body body' : Text} (tokens tokens' : List Token) (a : Option Text) :
    List.Forall₂ (Token.Pairs pair) tokens tokens' →
    (∀ inner inner', tokens = [.text inner] → tokens' = [.text inner'] →
      (inner = body ↔ inner' = body')) →
    AlikeBy (Option.Rel expr)
      (match tokens, a with
        | [.text inner], none =>
          if inner = body then .ok none
          else do
            let e ← parse inner
            .ok (if e.isRaw then none else some e)
        | _, _ => .ok none)
      (match tokens', a with
        | [.text inner], none =>
          if inner = body' then .ok none
          else do
            let e ← parse' inner
            .ok (if e.isRaw then none else some e)
        | _, _ => .ok none) := by
  intro pairs whole
  cases a with
  | some a =>
    rcases pairs with _ | ⟨first, _ | ⟨second, others⟩⟩
    case nil => exact .ok .none
    all_goals cases first <;> exact .ok .none
  | none =>
    rcases pairs with _ | ⟨first, _ | ⟨second, others⟩⟩
    case nil => exact .ok .none
    case cons.cons => cases first <;> exact .ok .none
    case cons.nil =>
      cases first with
      | nested => exact .ok .none
      | @text inner inner' holds =>
        have same := whole inner inner' rfl rfl
        dsimp only
        by_cases here : inner = body
        · rw [if_pos here, if_pos (same.1 here)]
          exact .ok .none
        rw [if_neg here, if_neg (mt same.2 here)]
        refine (reads _ _ holds).bind fun e e' holds => ?_
        rw [sim.isRaw holds]
        refine .ok ?_
        split
        · exact .none
        · exact .some holds

/-- **Related chains are read alike**, and so is what parentheses wrap. -/
theorem chain?_alike (holds : pair x y) :
    AlikeBy (Option.Rel expr) (chain? parse x) (chain? parse' y) := by
  have chains := sim.chain holds
  unfold chain?
  generalize Form.splitAlias x = split at chains
  generalize Form.splitAlias y = split' at chains
  obtain ⟨body, a⟩ := split
  obtain ⟨body', a'⟩ := split'
  obtain ⟨pairs, whole, same⟩ := chains
  dsimp only at pairs whole same ⊢
  subst same
  rw [pairs.length_eq]
  split
  · exact sim.unwrapped_alike reads _ _ a pairs whole
  split
  · exact alike_invalidExpression _ _
  rcases exists_of_rel (rel_mapM_text? pairs) with
    ⟨missed, missed'⟩ | ⟨texts, texts', each, found, found'⟩
  · rw [missed, missed']
    exact alike_invalidExpression _ _
  rw [found, found']
  cases each with
  | nil => exact alike_invalidExpression _ _
  | cons first others =>
    refine (sim.operand_alike reads _ _ first).bind fun e e' holds => ?_
    exact (sim.links_alike reads _ _ others).bind fun links links' holds' =>
      .ok (.some (sim.math _ (.cons (.label none holds) holds')))

/-! ### Calls -/

/-- **Related lists are read alike.** -/
theorem fieldList_alike (holds : pair x y) :
    AlikeBy (List.Forall₂ expr) (fieldList parse x) (fieldList parse' y) :=
  AlikeBy.mapM (sim.items holds) reads

/-- **Related calls are read alike.** -/
theorem call?_alike (holds : pair x y) :
    AlikeBy (Option.Rel expr) (Grammar.call? parse x) (Grammar.call? parse' y) := by
  unfold Grammar.call?
  rcases exists_of_rel (sim.call? holds) with
    ⟨missed, missed'⟩ | ⟨c, c', ⟨name, arguments, aliasName⟩, found, found'⟩
  · rw [missed, missed']
    exact .ok .none
  rw [found, found']
  dsimp only
  rw [name, aliasName]
  rcases exists_of_rel (sim.distinct (sim.trim arguments)) with
    ⟨missed, missed'⟩ | ⟨rest, rest', behind, found, found'⟩
  · rw [missed, missed']
    exact (sim.fieldList_alike reads (sim.trim arguments)).bind fun args args' each =>
      .ok (.some (sim.func _ false _ each))
  · rw [found, found']
    exact (sim.fieldList_alike reads behind).bind fun args args' each =>
      .ok (.some (sim.func _ true _ each))

/-! ### Case distinctions -/

omit reads in
theorem contains_keywords_eq (holds : pair x y) :
    CaseBody.keywords.contains x = CaseBody.keywords.contains y := by
  have same := sim.keyword holds
  rw [Bool.eq_iff_iff, List.contains_iff_mem, List.contains_iff_mem]
  constructor
  · intro mem
    rwa [(same x mem).1 rfl]
  · intro mem
    rwa [(same y mem).2 rfl]

theorem caseDefault_alike (body body' : Text) {texts texts' : List Text}
    (each : List.Forall₂ pair texts texts') :
    AlikeBy expr (caseDefault parse body texts) (caseDefault parse' body' texts') := by
  cases each with
  | nil => exact alike_invalidExpression _ _
  | cons first others =>
    rw [caseDefault, caseDefault, caseOperand, caseOperand, sim.contains_keywords_eq first]
    split
    · exact alike_invalidExpression _ _
    · refine (reads _ _ first).bind fun e e' holds => ?_
      cases others with
      | nil => exact .ok holds
      | cons => exact alike_invalidExpression _ _

omit sim reads in
/-- A branch of which a part is missing is an error. -/
theorem toOption_of_incomplete {α : Type} (body : Text) (texts : List Text) :
    (do
      let (_, rest) ← caseOperand body CaseBody.whenKeyword texts
      if rest.head? = some CaseBody.thenKeyword then
        (Error.invalidExpression (.keywordWithoutValue (String.ofList CaseBody.thenKeyword)
          (String.ofList body)) : Result α)
      else Error.invalidExpression (.whenWithoutThen (String.ofList body))).toOption = none := by
  cases texts with
  | nil => rfl
  | cons t rest =>
    rw [caseOperand]
    split
    · rfl
    · show (if rest.head? = some CaseBody.thenKeyword then _ else _ : Result α).toOption = none
      split <;> rfl

omit sim reads in
/-- Related branches with related defaults. -/
def Parts (expr : Expr → Expr → Prop) (cond : Condition → Condition → Prop)
    (parts parts' : List (Condition × Expr) × Option Expr) : Prop :=
  List.Forall₂ (fun branch branch' => cond branch.1 branch'.1 ∧ expr branch.2 branch'.2)
    parts.1 parts'.1 ∧ Option.Rel expr parts.2 parts'.2

/-- What is no branch is the default on both sides or an error. -/
theorem caseParts_otherwise_alike (body body' : Text) (hasBranch : Bool) {keyword keyword' : Text}
    (first : pair keyword keyword') {texts texts' : List Text}
    (others : List.Forall₂ pair texts texts') (other : keyword ≠ CaseBody.whenKeyword) :
    AlikeBy (Parts expr cond) (caseParts bindings parse body hasBranch (keyword :: texts))
      (caseParts bindings' parse' body' hasBranch (keyword' :: texts')) := by
  have when_ := sim.keyword first CaseBody.whenKeyword (by decide)
  have else_ := sim.keyword first CaseBody.elseKeyword (by decide)
  have default := sim.caseDefault_alike reads body body' others
  rw [caseParts.eq_def, caseParts.eq_def bindings' parse' body']
  cases hasBranch
  all_goals
    dsimp only
    rw [if_neg other, if_neg (mt when_.2 other)]
    split
    · rename_i both
      rw [if_pos ⟨else_.1 both.1, both.2⟩]
      exact default.bind fun e e' holds => .ok ⟨.nil, .some holds⟩
    · rename_i neither
      rw [if_neg fun both => neither ⟨else_.2 both.1, both.2⟩]
      exact alike_invalidExpression _ _

/-- **The parts of a case distinction are read alike.** -/
theorem caseParts_alike (body body' : Text) (hasBranch : Bool) {texts texts' : List Text}
    (each : List.Forall₂ pair texts texts') :
    AlikeBy (Parts expr cond) (caseParts bindings parse body hasBranch texts)
      (caseParts bindings' parse' body' hasBranch texts') := by
  induction size : texts.length using Nat.strong_induction_on generalizing hasBranch texts texts' with
  | h length ih =>
    subst size
    cases each with
    | nil =>
      cases hasBranch with
      | true => exact .ok ⟨.nil, .none⟩
      | false => exact alike_invalidExpression _ _
    | @cons keyword keyword' texts texts' first others =>
      by_cases here : keyword = CaseBody.whenKeyword
      swap
      · exact sim.caseParts_otherwise_alike reads body body' hasBranch first others here
      have here' := (sim.keyword first CaseBody.whenKeyword (by decide)).1 here
      rw [caseParts.eq_def, caseParts.eq_def bindings' parse' body']
      cases hasBranch
      all_goals
        dsimp only
        rw [if_pos here, if_pos here']
        rcases others with _ | ⟨condition, _ | ⟨between, _ | ⟨value, others⟩⟩⟩
        case nil | cons.nil | cons.cons.nil =>
          exact alike_of_toOption (toOption_of_incomplete body _) (toOption_of_incomplete body' _)
        dsimp only
        have then_ := sim.keyword between CaseBody.thenKeyword (by decide)
        rw [sim.contains_keywords_eq condition, sim.contains_keywords_eq value]
        simp only [ne_eq, then_]
        split
        · exact alike_invalidExpression _ _
        split
        · exact alike_invalidExpression _ _
        split
        · exact alike_invalidExpression _ _
        refine (sim.grammar_condition_alike reads condition).bind fun c c' holds => ?_
        refine (reads _ _ value).bind fun e e' holds' => ?_
        exact (ih _ (by simp only [List.length_cons]; omega) true others rfl).bind
          fun parts parts' rest => .ok ⟨.cons ⟨holds, holds'⟩ rest.1, rest.2⟩

/-- **Related case distinctions are read alike.** -/
theorem case?_alike (holds : pair x y) :
    AlikeBy (Option.Rel expr) (Grammar.case? bindings parse x) (Grammar.case? bindings' parse' y) := by
  unfold Grammar.case?
  rcases exists_of_rel (sim.case? holds) with
    ⟨missed, missed'⟩ | ⟨c, c', ⟨opened, texts, closed, aliasName⟩, found, found'⟩
  · rw [missed, missed']
    exact .ok .none
  rw [found, found']
  dsimp only
  rw [opened, closed, aliasName]
  split
  · exact .ok .none
  · exact (sim.caseParts_alike reads _ _ false texts).bind fun parts parts' holds =>
      .ok (.some (sim.case _ holds.1 holds.2))

/-! ### Expressions -/

omit reads in
theorem scalar?_alike (holds : pair x y) :
    AlikeBy (Option.Rel expr) (Grammar.scalar? bindings x) (Grammar.scalar? bindings' y) := by
  rw [sim.scalar? holds]
  unfold Grammar.scalar?
  split
  · exact .ok .none
  · rename_i digits a _
    cases number digits with
    | ok value => exact .ok (.some (sim.scalar value a))
    | error e => exact .error e e
  · exact .ok (.some (sim.scalar _ _))

/-- **Related expressions are read alike**, if their parts are. -/
theorem grammar_expression_alike :
    Reads pair expr (expression bindings parse) (expression bindings' parse') := by
  intro x y holds
  have holds := sim.trim holds
  unfold expression
  dsimp only
  generalize x.trim = x at holds
  generalize y.trim = y at holds
  rw [sim.isEmpty holds, sim.field? holds]
  split
  · exact alike_invalidExpression _ _
  split
  · exact .ok (sim.field _)
  rcases exists_of_rel (sim.bound? holds) with ⟨missed, missed'⟩ | ⟨e, e', bound, found, found'⟩
  swap
  · rw [found, found']
    exact .ok bound
  rw [missed, missed']
  have taken : ∀ e : Expr, (pure e : Result Expr) = .ok e := fun _ => rfl
  refine (sim.scalar?_alike holds).firstOf taken taken ?_
  refine (sim.chain?_alike reads holds).firstOf taken taken ?_
  refine (sim.call?_alike reads holds).firstOf taken taken ?_
  exact (sim.case?_alike reads holds).firstOf taken taken (.ok (sim.raw holds))

/-! ### The parser -/

omit reads

theorem expressionWithin_alike (depth : Nat) :
    Reads pair expr (Parser.expressionWithin bindings depth)
      (Parser.expressionWithin bindings' depth) := by
  induction depth with
  | zero => exact fun _ _ _ => alike_invalidExpression _ _
  | succ depth ih => exact sim.grammar_expression_alike ih

/-- **Related texts are both refused as expressions, or read into related trees.** -/
theorem expression_alike (holds : pair x y) :
    AlikeBy expr (Parser.expression x bindings) (Parser.expression y bindings') := by
  have left : x.length < x.length + y.length + 1 := by omega
  have right : y.length < x.length + y.length + 1 := by omega
  rw [← Parser.expressionWithin_eq_expression left, ← Parser.expressionWithin_eq_expression right]
  exact sim.expressionWithin_alike _ x y holds

/-- **Related texts are both refused as conditions, or read into related trees.** -/
theorem condition_alike (holds : pair x y) :
    AlikeBy cond (Parser.condition x bindings) (Parser.condition y bindings') := by
  have left : x.length < x.length + y.length + 1 := by omega
  have right : y.length < x.length + y.length + 1 := by omega
  refine AlikeBy.within ?_ _ _
  rw [Parser.bareCondition_eq _ left, Parser.bareCondition_eq _ right]
  exact sim.grammar_condition_alike (sim.expressionWithin_alike _) holds

end Simulation

end RecordMapper
