import RecordMapper.Proofs.Query.Asked
import RecordMapper.Proofs.Query.References

/-!
Every parse ends in a well-formed tree or in a fault of the query text.

A tree is well-formed if its chains and its groups have at least two members, of which the first
alone has nothing that joins it to the one before, if its case distinctions have a branch, its
literals are numbers or strings, and its names are words (`Expr.WellFormed`). Every rule of the
grammar ends well if the texts inside are read well, so **the parser yields well-formed trees,
whatever the text and the bindings, and fails with nothing but an expression error**
(`Parser.yields_wellFormed`).
-/

namespace RecordMapper

open Text

/-! ### Well-formed trees -/

/-- A list of at least two items. The first is joined to nothing, and every other one is joined to
the one before it. -/
structure IsJoined {κ ι : Type} (items : List (Option κ × ι)) : Prop where
  two : 2 ≤ items.length
  head : ∀ first ∈ items.head?, first.1 = none
  tail : ∀ item ∈ items.tail, item.1.isSome = true

/-- The alias is a name, if there is one. -/
def IsNamed (a : Option String) : Prop :=
  ∀ name ∈ a, IsName name.toList

mutual

/-- An expression as the parser builds it, at every depth. -/
inductive Expr.WellFormed : Expr → Prop
  | field {ref : FieldRef} (name : IsName ref.name.toList)
    (table : ∀ table ∈ ref.table, IsName table.toList) (named : IsNamed ref.aliasName) :
    Expr.WellFormed (.field ref)
  | var (name : String) (value : Value) : Expr.WellFormed (.var name value)
  | raw (sql : String) : Expr.WellFormed (.raw sql)
  | int (n : Int64) {a : Option String} (named : IsNamed a) : Expr.WellFormed (.scalar (.int n) a)
  | float (x : Float) {a : Option String} (named : IsNamed a) :
    Expr.WellFormed (.scalar (.float x) a)
  | string (s : String) {a : Option String} (named : IsNamed a) :
    Expr.WellFormed (.scalar (.string s) a)
  | math {operands : List (Option MathOp × Expr)} {a : Option String} (joined : IsJoined operands)
    (each : ∀ operand ∈ operands, Expr.WellFormed operand.2)
    (named : ∀ name ∈ a, IsCallName name.toList) : Expr.WellFormed (.math operands a)
  | func {name : String} (distinct : Bool) {args : List Expr} {a : Option String}
    (identifier : IsCallName name.toList) (each : ∀ e ∈ args, Expr.WellFormed e)
    (named : IsNamed a) : Expr.WellFormed (.func name distinct args a)
  | case {branches : List (Condition × Expr)} {default : Option Expr} {a : Option String}
    (nonempty : branches ≠ []) (conditions : ∀ branch ∈ branches, Condition.WellFormed branch.1)
    (values : ∀ branch ∈ branches, Expr.WellFormed branch.2)
    (otherwise : ∀ e ∈ default, Expr.WellFormed e) (named : IsNamed a) :
    Expr.WellFormed (.case branches default a)

/-- A condition as the parser builds it, at every depth. -/
inductive Condition.WellFormed : Condition → Prop
  | simple {lhs rhs : Expr} (op : CmpOp) (left : Expr.WellFormed lhs)
    (right : Expr.WellFormed rhs) : Condition.WellFormed (.simple lhs op rhs)
  | nested {children : List (Option BoolOp × Condition)} (joined : IsJoined children)
    (each : ∀ child ∈ children, Condition.WellFormed child.2) :
    Condition.WellFormed (.nested children)

end

theorem IsJoined.cons {κ ι : Type} (first : ι) {rest : List (Option κ × ι)} (more : rest ≠ [])
    (joined : ∀ item ∈ rest, item.1.isSome = true) : IsJoined ((none, first) :: rest) where
  two := Nat.succ_le_succ (List.length_pos_iff.2 more)
  head := by
    rintro item ⟨⟩
    rfl
  tail := joined

theorem IsNamed.of_none : IsNamed none :=
  nofun

theorem IsNamed.of_some {name : Text} (isName : IsName name) :
    IsNamed (some (String.ofList name)) := by
  rintro found ⟨⟩
  rwa [String.toList_ofList]

/-! ### Results -/

namespace Result

/-- The result is good, or it is a fault in the query text. -/
def Yields {α : Type} (good : α → Prop) : Result α → Prop
  | .ok a => good a
  | .error e => e.isKind Cause.isInvalidExpression = true

variable {α β : Type} {good : α → Prop} {good' : β → Prop}

theorem yields_ok {a : α} (holds : good a) : Yields good (.ok a) :=
  holds

theorem yields_invalidExpression (fault : QueryFault) :
    Yields good (Error.invalidExpression fault) :=
  rfl

/-- What a rule finds is good. -/
theorem yields_some {a : α} (holds : good a) :
    Yields (fun found : Option α => ∀ b ∈ found, good b) (.ok (some a)) := by
  rintro b ⟨⟩
  exact holds

theorem Yields.imp {good' : α → Prop} {result : Result α} (yields : result.Yields good)
    (weaker : ∀ a, good a → good' a) : result.Yields good' := by
  cases result with
  | ok a => exact weaker a yields
  | error e => exact yields

theorem Yields.bind {first : Result α} {next : α → Result β} (yields : first.Yields good)
    (goesOn : ∀ a, good a → (next a).Yields good') : (first >>= next).Yields good' := by
  cases first with
  | ok a => exact goesOn a yields
  | error e => exact yields

theorem Yields.mapM {f : α → Result β} (yields : ∀ a, (f a).Yields good') (l : List α) :
    (l.mapM f).Yields fun results => ∀ b ∈ results, good' b := by
  induction l with
  | nil => exact List.forall_mem_nil _
  | cons a l ih =>
    rw [List.mapM_cons]
    refine (yields a).bind fun b first => ih.bind fun others rest => ?_
    exact List.forall_mem_cons.2 ⟨first, rest⟩

/-- The result is a fault in the query text. -/
def IsFault (result : Result α) : Prop :=
  ∃ e, result = .error e ∧ e.isKind Cause.isInvalidExpression = true

/-- What yields no result is a fault. -/
theorem Yields.isFault {result : Result α} (yields : result.Yields good)
    (refused : ∀ a, result ≠ .ok a) : result.IsFault := by
  cases result with
  | ok a => exact absurd rfl (refused a)
  | error e => exact ⟨e, rfl, yields⟩

/-- Context added to a fault leaves it one. -/
theorem Yields.within {result : Result α} (yields : result.Yields good) (cause : Cause) :
    (Error.within cause result).Yields good := by
  cases result with
  | ok a => exact yields
  | error e =>
    have kept : e.isKind Cause.isInvalidExpression = true := yields
    show (e.addContext cause).isKind Cause.isInvalidExpression = true
    rw [Error.isKind, Error.chain, List.any_eq_true] at kept ⊢
    obtain ⟨fault, mem, kind⟩ := kept
    exact ⟨fault, List.mem_cons_of_mem _ mem, kind⟩

/-- The result is a value. -/
def Succeeds (result : Result α) : Prop :=
  ∃ a, result = .ok a

theorem Succeeds.bind {first : Result α} {next : α → Result β} (succeeds : first.Succeeds)
    (goesOn : ∀ a, (next a).Succeeds) : (first >>= next).Succeeds := by
  obtain ⟨a, rfl⟩ := succeeds
  exact goesOn a

theorem Succeeds.mapM {f : α → Result β} {l : List α} (succeeds : ∀ a ∈ l, (f a).Succeeds) :
    (l.mapM f).Succeeds := by
  induction l with
  | nil => exact ⟨[], rfl⟩
  | cons a l ih =>
    obtain ⟨first, others⟩ := List.forall_mem_cons.1 succeeds
    rw [List.mapM_cons]
    exact first.bind fun b => (ih others).bind fun results => ⟨b :: results, rfl⟩

end Result

/-! ### Forms -/

namespace Form

theorem isNamed_of_ending? {t : Text} {a : Option String} (found : ending? t = some a) :
    IsNamed a := by
  rcases exists_of_ending? found with ⟨-, rfl⟩ | ⟨name, rfl, named⟩
  · exact .of_none
  · obtain ⟨front, word, back, -, -, -, -, isName⟩ := named
    exact .of_some isName

theorem wellFormed_of_field? {t : Text} {ref : FieldRef} (found : field? t = some ref) :
    Expr.WellFormed (.field ref) := by
  rw [field?.eq_def] at found
  split at found
  · obtain ⟨⟨first, rest⟩, read, parts⟩ := Option.bind_eq_some_iff.1 found
    have isName := (exists_of_word? read).1
    dsimp only at parts
    split at parts
    · obtain ⟨a, ending, same⟩ := Option.bind_eq_some_iff.1 parts
      cases same
      refine .field ?_ IsNamed.of_none (isNamed_of_ending? ending)
      rwa [String.toList_ofList]
    · obtain ⟨⟨second, rest⟩, read', more⟩ := Option.bind_eq_some_iff.1 parts
      have isName' := (exists_of_word? read').1
      dsimp only at more
      split at more
      · obtain ⟨a, ending, same⟩ := Option.bind_eq_some_iff.1 more
        cases same
        refine .field ?_ (IsNamed.of_some isName) (isNamed_of_ending? ending)
        rwa [String.toList_ofList]
      · cases more
    · cases parts
  · cases found

theorem isNamed_of_literal? {t : Text} {l : Literal} {a : Option String}
    (found : literal? t = some (l, a)) : IsNamed a := by
  obtain ⟨⟨l', rest⟩, -, more⟩ := Option.bind_eq_some_iff.1 found
  obtain ⟨a', ending, same⟩ := Option.bind_eq_some_iff.1 more
  cases same
  exact isNamed_of_ending? ending

theorem isNamed_of_call? {t : Text} {call : Call} (found : call? t = some call) :
    IsCallName call.name.toList ∧ IsNamed call.aliasName := by
  obtain ⟨name, gap, behind, tail, rfl, isName, same, -, -, ending⟩ := exists_of_call? found
  rw [same, String.toList_ofList]
  exact ⟨isName, isNamed_of_ending? ending⟩

theorem isNamed_of_case? {t : Text} {c : Case} (found : case? t = some c) :
    IsNamed c.aliasName := by
  obtain ⟨lead, word, gap, tail, rfl, -, -, -, -, ending⟩ := exists_of_case? found
  obtain ⟨b, word, rest, rfl, -, -, form⟩ := exists_of_caseEnding? ending
  rcases form with ⟨-, ⟨none, -⟩ | ending⟩ | ⟨-, gap, behind, rfl, -, ending⟩
  · rw [none]
    exact .of_none
  · exact isNamed_of_ending? ending
  · exact isNamed_of_ending? ending

end Form

/-! ### Rules -/

namespace Grammar

open Result

variable {bindings : Option Bindings} {parse : Text → Result Expr}

theorem comparison_yields (good : ∀ t, (parse t).Yields Expr.WellFormed) (t : Text) :
    (comparison bindings parse t).Yields Condition.WellFormed := by
  unfold comparison
  split
  · exact yields_invalidExpression _
  split
  · exact yields_invalidExpression _
  split
  · exact yields_invalidExpression _
  · rename_i op _ _ _
    refine (good _).bind fun lhs left => (good _).bind fun rhs right => ?_
    exact .simple op left right

mutual

theorem conditionOfTokens_yields (good : ∀ t, (parse t).Yields Expr.WellFormed) :
    (tokens : List Token) → (conditionOfTokens bindings parse tokens).Yields Condition.WellFormed
  | [] => yields_invalidExpression _
  | [token] => conditionOfToken_yields good token
  | first :: second :: rest => by
    rw [conditionOfTokens]
    · split
      · exact yields_invalidExpression _
      · refine (conditionOfToken_yields good first).bind fun c wellFormed => ?_
        refine (joined_yields good none (second :: rest)).bind fun others ⟨linked, more, each⟩ => ?_
        exact .nested (.cons c (more (.inr (List.cons_ne_nil _ _))) linked)
          (List.forall_mem_cons.2 ⟨wellFormed, each⟩)
    · nofun

theorem conditionOfToken_yields (good : ∀ t, (parse t).Yields Expr.WellFormed) :
    (token : Token) → (conditionOfToken bindings parse token).Yields Condition.WellFormed
  | .text t => comparison_yields good t
  | .nested tokens => conditionOfTokens_yields good tokens

/-- The conditions behind the first one have their connectors, and there are some if there are
tokens. -/
theorem joined_yields (good : ∀ t, (parse t).Yields Expr.WellFormed) :
    (pending : Option BoolOp) → (tokens : List Token) →
    (joined bindings parse pending tokens).Yields fun others =>
      (∀ child ∈ others, child.1.isSome = true)
        ∧ (pending.isSome = true ∨ tokens ≠ [] → others ≠ [])
        ∧ ∀ child ∈ others, child.2.WellFormed
  | none, [] => by
    rw [joined]
    exact yields_ok ⟨List.forall_mem_nil _, by simp, List.forall_mem_nil _⟩
  | some op, [] => by
    rw [joined]
    exact yields_invalidExpression _
  | none, token :: rest => by
    cases connects : connector? token with
    | none =>
      simp only [joined, connects]
      exact yields_invalidExpression _
    | some op =>
      simp only [joined, connects]
      exact (joined_yields good (some op) rest).imp fun others ⟨linked, more, each⟩ =>
        ⟨linked, fun _ => more (.inl rfl), each⟩
  | some op, token :: rest => by
    cases connects : connector? token with
    | some _ =>
      simp only [joined, connects]
      exact yields_invalidExpression _
    | none =>
      simp only [joined, connects]
      refine (conditionOfToken_yields good token).bind fun c wellFormed => ?_
      refine (joined_yields good none rest).bind fun others ⟨linked, _, each⟩ => ?_
      exact ⟨List.forall_mem_cons.2 ⟨rfl, linked⟩, fun _ => List.cons_ne_nil _ _,
        List.forall_mem_cons.2 ⟨wellFormed, each⟩⟩

end

variable (good : ∀ t, (parse t).Yields Expr.WellFormed)
include good

theorem condition_yields (t : Text) :
    (condition bindings parse t).Yields Condition.WellFormed :=
  conditionOfTokens_yields good (Connected.tokens t)

omit good in
theorem number_yields {digits : Text} {a : Option String} (named : IsNamed a) :
    (number digits).Yields fun value => Expr.WellFormed (.scalar value a) := by
  unfold number
  split
  · exact .int _ named
  · split
    · exact .float _ named
    · exact yields_invalidExpression _

omit good in
theorem scalar?_yields (t : Text) :
    (scalar? bindings t).Yields fun found => ∀ e ∈ found, e.WellFormed := by
  unfold scalar?
  split
  · exact yields_ok nofun
  · rename_i digits a found
    refine (number_yields (Form.isNamed_of_literal? found)).bind fun value wellFormed => ?_
    exact yields_some wellFormed
  · rename_i contents a found
    exact yields_some (.string _ (Form.isNamed_of_literal? found))

theorem operand_yields (whole t : Text) : (operand parse whole t).Yields Expr.WellFormed := by
  unfold operand
  split
  · exact yields_invalidExpression _
  · exact good t

/-- Every operand behind the first has its operator, and there are some if there are two texts. -/
theorem links_yields (whole : Text) : (texts : List Text) →
    (links parse whole texts).Yields fun others =>
      (∀ operand ∈ others, operand.1.isSome = true) ∧ (2 ≤ texts.length → others ≠ [])
        ∧ ∀ operand ∈ others, operand.2.WellFormed
  | [] => ⟨List.forall_mem_nil _, by simp, List.forall_mem_nil _⟩
  | [_] => ⟨List.forall_mem_nil _, by simp, List.forall_mem_nil _⟩
  | sign :: t :: rest => by
    rw [links]
    split
    · exact yields_invalidExpression _
    · rename_i op _
      refine (operand_yields good whole t).bind fun e wellFormed => ?_
      refine (links_yields whole rest).bind fun others yielded => ?_
      obtain ⟨linked, -, each⟩ := yielded
      exact ⟨List.forall_mem_cons.2 ⟨rfl, linked⟩, fun _ => List.cons_ne_nil _ _,
        List.forall_mem_cons.2 ⟨wellFormed, each⟩⟩

theorem chain?_yields (t : Text) :
    (chain? parse t).Yields fun found => ∀ e ∈ found, e.WellFormed := by
  unfold chain?
  split
  rename_i body a split
  dsimp only
  split
  · split
    · split
      · exact yields_ok nofun
      · refine (good _).bind fun e wellFormed => ?_
        split
        · exact yields_ok nofun
        · exact yields_some wellFormed
    · exact yields_ok nofun
  split
  · exact yields_invalidExpression _
  split
  · rename_i many _ _ first rest texts
    have named : ∀ name ∈ a.map String.ofList, IsCallName name.toList := by
      intro name mem
      obtain ⟨word, rfl, rfl⟩ := Option.map_eq_some_iff.1 mem
      rw [String.toList_ofList]
      exact (Form.exists_of_splitAlias split).1
    have enough : 2 ≤ rest.length := by
      have lengths := congrArg List.length (eq_map_of_mapM_text? texts)
      simp only [List.length_map, List.length_cons] at lengths
      omega
    refine (operand_yields good t first).bind fun e wellFormed => ?_
    refine (links_yields good t rest).bind fun others ⟨linked, more, each⟩ => ?_
    exact yields_some (.math (.cons e (more enough) linked)
      (List.forall_mem_cons.2 ⟨wellFormed, each⟩) named)
  · exact yields_invalidExpression _

theorem fieldList_yields (t : Text) :
    (fieldList parse t).Yields fun args => ∀ e ∈ args, e.WellFormed :=
  .mapM good (FieldList.items t)

theorem call?_yields (t : Text) :
    (call? parse t).Yields fun found => ∀ e ∈ found, e.WellFormed := by
  rw [call?_eq]
  split
  · exact yields_ok nofun
  · rename_i call found
    obtain ⟨identifier, named⟩ := Form.isNamed_of_call? found
    refine (fieldList_yields good call.list).bind fun args each => ?_
    exact yields_some (.func _ identifier each named)

omit good in
theorem caseOperand_yields (body keyword : Text) (texts : List Text) :
    (caseOperand body keyword texts).Yields fun _ => True := by
  cases texts with
  | nil => exact yields_invalidExpression _
  | cons t rest =>
    rw [caseOperand]
    split
    · exact yields_invalidExpression _
    · exact yields_ok trivial

theorem caseDefault_yields (body : Text) (texts : List Text) :
    (caseDefault parse body texts).Yields Expr.WellFormed := by
  refine (caseOperand_yields body CaseBody.elseKeyword texts).bind fun (t, rest) _ => ?_
  refine (good t).bind fun e wellFormed => ?_
  cases rest with
  | nil => exact wellFormed
  | cons other rest => exact yields_invalidExpression _

/-- The parts of a case distinction are read well, and there is a branch among them if none came
before. -/
theorem caseParts_yields (body : Text) (hasBranch : Bool) (texts : List Text) :
    (caseParts bindings parse body hasBranch texts).Yields fun parts =>
      (hasBranch = false → parts.1 ≠ []) ∧ (∀ branch ∈ parts.1, branch.1.WellFormed)
        ∧ (∀ branch ∈ parts.1, branch.2.WellFormed) ∧ ∀ e ∈ parts.2, e.WellFormed := by
  fun_induction caseParts bindings parse body hasBranch texts with
  | case1 =>
    exact ⟨fun first => absurd first.symm Bool.false_ne_true, List.forall_mem_nil _,
      List.forall_mem_nil _, fun e found => absurd found (Option.not_mem_none e)⟩
  | case2 => exact yields_invalidExpression _
  | case3 => exact yields_invalidExpression _
  | case4 => exact yields_invalidExpression _
  | case5 => exact yields_invalidExpression _
  | case6 hasBranch c separator t rest _ _ _ ih =>
    refine (condition_yields good c).bind fun c' condition => ?_
    refine (good t).bind fun e value => ih.bind fun parts read => ?_
    obtain ⟨-, conditions, values, otherwise⟩ := read
    exact ⟨fun _ => List.cons_ne_nil _ _, List.forall_mem_cons.2 ⟨condition, conditions⟩,
      List.forall_mem_cons.2 ⟨value, values⟩, otherwise⟩
  | case7 hasBranch tokens _ =>
    refine (caseOperand_yields body CaseBody.whenKeyword tokens).bind fun operand _ => ?_
    dsimp only
    split <;> exact yields_invalidExpression _
  | case8 hasBranch keyword tokens _ default =>
    refine (caseDefault_yields good body tokens).bind fun e wellFormed => ?_
    refine ⟨fun first => ?_, List.forall_mem_nil _, List.forall_mem_nil _, yields_some wellFormed⟩
    rw [first] at default
    cases default.2
  | case9 => exact yields_invalidExpression _

theorem case?_yields (t : Text) :
    (case? bindings parse t).Yields fun found => ∀ e ∈ found, e.WellFormed := by
  unfold case?
  split
  · exact yields_ok nofun
  · rename_i c found
    split
    · exact yields_ok nofun
    · refine (caseParts_yields good c.body false _).bind fun parts read => ?_
      obtain ⟨more, conditions, values, otherwise⟩ := read
      exact yields_some (.case (more rfl) conditions values otherwise (Form.isNamed_of_case? found))

/-- **Every rule yields a well-formed tree or a fault**, if the parts are read so. -/
theorem expression_yields (t : Text) :
    (expression bindings parse t).Yields Expr.WellFormed := by
  unfold expression
  extract_lets t
  split
  · exact yields_invalidExpression _
  split
  · rename_i ref found
    exact Form.wellFormed_of_field? found
  split
  · rename_i e found
    obtain ⟨b, -, found⟩ := Option.bind_eq_some_iff.1 found
    obtain ⟨name, -, found⟩ := Option.bind_eq_some_iff.1 found
    obtain ⟨value, -, rfl⟩ := Option.map_eq_some_iff.1 found
    exact .var name value
  refine (scalar?_yields _).bind fun literal literals => ?_
  cases literal with
  | some e => exact literals e rfl
  | none =>
  refine (chain?_yields good _).bind fun chain chains => ?_
  cases chain with
  | some e => exact chains e rfl
  | none =>
  refine (call?_yields good _).bind fun call calls => ?_
  cases call with
  | some e => exact calls e rfl
  | none =>
  refine (case?_yields good _).bind fun distinction distinctions => ?_
  cases distinction with
  | some e => exact distinctions e rfl
  | none => exact yields_ok (.raw _)

end Grammar

/-! ### The parser -/

namespace Parser

theorem expressionWithin_yields (bindings : Option Bindings) (depth : Nat) (t : Text) :
    (expressionWithin bindings depth t).Yields Expr.WellFormed := by
  induction depth generalizing t with
  | zero => exact Result.yields_invalidExpression .tooDeep
  | succ depth ih => exact Grammar.expression_yields ih t

/-- **Every parse yields a well-formed tree or fails with an expression error**: whatever the text
and the bindings, an expression, each one of a list, and a condition. -/
theorem yields_wellFormed (t : Text) (bindings : Option Bindings) :
    (expression t bindings).Yields Expr.WellFormed
      ∧ (fields t bindings).Yields (fun list => ∀ e ∈ list, e.WellFormed)
      ∧ (condition t bindings).Yields Condition.WellFormed := by
  have good := expressionWithin_yields bindings (t.length + 1)
  exact ⟨good t, Grammar.fieldList_yields good t, (Grammar.condition_yields good t).within _⟩

end Parser

end RecordMapper
