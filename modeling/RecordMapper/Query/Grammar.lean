import RecordMapper.Bindings
import RecordMapper.Error
import RecordMapper.Number.Reading
import RecordMapper.Query.Form
import RecordMapper.Query.Printing
import RecordMapper.Query.Tokens

/-!
The grammar of the query language, one level deep.

Every rule is a function of `parse`, which reads the expressions inside the one at hand: the
operands of a chain, the arguments of a call, the values of a case distinction and the sides of a
comparison. The rules for expressions are tried in a fixed order; a rule that does not apply gives
nothing, and text to which none applies is handed on. `RecordMapper.Query.Parser` closes the
recursion.
-/

namespace RecordMapper.Grammar

open Error (invalidExpression)

/-- The text with bound placeholders replaced, if there are bindings. -/
def substitute (bindings : Option Bindings) (t : Text) : Text :=
  match bindings with
  | some b => b.substitute t
  | none => t

/-! ### Conditions -/

section Conditions

variable (bindings : Option Bindings) (parse : Text → Result Expr)

/-- Reads a comparison. -/
def comparison (t : Text) : Result Condition :=
  if (substitute bindings t).trim.isEmpty then invalidExpression .emptyCondition
  else
    match CmpOp.split? t with
    | none => invalidExpression (.noComparison (String.ofList t))
    | some (left, op, right) =>
      if left.trim.isEmpty || right.trim.isEmpty then
        invalidExpression (.missingSide (String.ofList op.text) (String.ofList t))
      else do
        let lhs ← parse left.trim
        let rhs ← parse right.trim
        .ok (.simple lhs op rhs)

/-- The connector that a token is. -/
def connector? (token : Token) : Option BoolOp :=
  token.text?.bind BoolOp.ofKeyword?

mutual

/-- Reads the tokens of a condition: one condition, or conditions with connectors between them. -/
def conditionOfTokens : List Token → Result Condition
  | [] => invalidExpression .emptyCondition
  | [token] => conditionOfToken token
  | token :: rest =>
    match connector? token with
    | some op => invalidExpression (.leadingConnector (String.ofList op.keyword))
    | none => do
      let first ← conditionOfToken token
      let others ← joined none rest
      .ok (.nested ((none, first) :: others))

/-- Reads a comparison or a group of conditions. -/
def conditionOfToken : Token → Result Condition
  | .text t => comparison bindings parse t
  | .nested tokens => conditionOfTokens tokens

/-- Reads the rest of joined conditions; `pending` is the connector read last, if no condition has
followed it yet. -/
def joined : (pending : Option BoolOp) → List Token → Result (List (Option BoolOp × Condition))
  | none, [] => .ok []
  | some op, [] => invalidExpression (.trailingConnector (String.ofList op.keyword))
  | pending, token :: rest =>
    match connector? token, pending with
    | some op, some _ => invalidExpression (.leadingConnector (String.ofList op.keyword))
    | some op, none => joined (some op) rest
    | none, none => invalidExpression (.missingConnector (String.ofList token.print))
    | none, some op => do
      let c ← conditionOfToken token
      let others ← joined none rest
      .ok ((some op, c) :: others)

end

/-- Reads a condition. -/
def condition (t : Text) : Result Condition :=
  conditionOfTokens bindings parse (Connected.tokens t)

end Conditions

/-! ### Rules for expressions -/

section Expressions

variable (bindings : Option Bindings) (parse : Text → Result Expr)

/-- A placeholder that is bound; one that is not is left to the other rules. -/
def bound? (t : Text) : Option Expr :=
  bindings.bind fun b =>
    (Form.placeholder? t).bind fun name => (b.get? name).map fun value => .var name value

/-- The value of a number: an integer if it has no point and fits, otherwise a floating-point
number. -/
def number (t : Text) : Result Value :=
  match if t.contains '.' then none else Integer.read? t with
  | some n => .ok (.int n)
  | none =>
    match Reading.float? t with
    | some x => .ok (.float x)
    | none => invalidExpression (.invalidNumber (String.ofList t))

/-- A literal, once bound placeholders are replaced. -/
def scalar? (t : Text) : Result (Option Expr) :=
  match Form.literal? (substitute bindings t) with
  | none => .ok none
  | some (.number digits, a) => do
    let value ← number digits
    .ok (some (.scalar value a))
  | some (.string contents, a) =>
    .ok (some (.scalar (.string (String.ofList (Form.unescape contents))) a))

/-- An operand of the chain `whole`. -/
def operand (whole t : Text) : Result Expr :=
  if (MathOp.ofSymbol? t).isSome then
    invalidExpression (.missingOperand (String.ofList t) (String.ofList whole))
  else parse t

/-- The operators and operands behind the first operand of the chain `whole`. -/
def links (whole : Text) : List Text → Result (List (Option MathOp × Expr))
  | sign :: t :: rest =>
    match MathOp.ofSymbol? sign with
    | none => invalidExpression (.notAnOperator (String.ofList sign) (String.ofList whole))
    | some op => do
      let e ← operand parse whole t
      let others ← links whole rest
      .ok ((some op, e) :: others)
  | _ => .ok []

/-- An arithmetic chain, or an expression that parentheses wrap. -/
def chain? (t : Text) : Result (Option Expr) :=
  let (body, a) := Form.splitAlias t
  let tokens := Chain.tokens body
  if tokens.length < 3 then
    match tokens, a with
    | [.text inner], none =>
      if inner = body then .ok none
      else do
        let e ← parse inner
        .ok (if e.isRaw then none else some e)
    | _, _ => .ok none
  else if tokens.length % 2 = 0 then invalidExpression (.notAlternating (String.ofList t))
  else
    match tokens.mapM Token.text? with
    | some (first :: rest) => do
      let first ← operand parse t first
      let others ← links parse t rest
      .ok (some (.math ((none, first) :: others) (a.map String.ofList)))
    | _ => invalidExpression (.unexpectedGroup (String.ofList t))

/-- The word that asks for distinct arguments. -/
def distinctKeyword : Text := ['D', 'I', 'S', 'T', 'I', 'N', 'C', 'T', ' ']

/-- The expressions of a field list. -/
def fieldList (t : Text) : Result (List Expr) :=
  (FieldList.items t).mapM parse

/-- A function call. -/
def call? (t : Text) : Result (Option Expr) :=
  match Form.call? t with
  | none => .ok none
  | some call =>
    let arguments := call.arguments.trim
    match Text.after? true distinctKeyword arguments with
    | some rest => do
      let args ← fieldList parse rest.trimStart
      .ok (some (.func call.name true args call.aliasName))
    | none => do
      let args ← fieldList parse arguments
      .ok (some (.func call.name false args call.aliasName))

/-- The token behind a keyword of a case distinction, which must not be a keyword, with the tokens
behind it. -/
def caseOperand (body keyword : Text) : List Text → Result (Text × List Text)
  | t :: rest =>
    if CaseBody.keywords.contains t then
      invalidExpression (.keywordWithoutValue (String.ofList keyword) (String.ofList body))
    else .ok (t, rest)
  | [] => invalidExpression (.keywordWithoutValue (String.ofList keyword) (String.ofList body))

/-- The value in which no branch applies, which must be the last part of the body. -/
def caseDefault (body : Text) (tokens : List Text) : Result Expr := do
  let (t, rest) ← caseOperand body CaseBody.elseKeyword tokens
  let e ← parse t
  match rest with
  | [] => .ok e
  | other :: _ => invalidExpression (.unexpectedInCase (String.ofList other) (String.ofList body))

/-- The branches and the default of a case distinction, from the texts of its tokens; `hasBranch`
says that a branch came before. -/
def caseParts (body : Text) : (hasBranch : Bool) → List Text →
    Result (List (Condition × Expr) × Option Expr)
  | true, [] => .ok ([], none)
  | false, [] => invalidExpression (.noBranch (String.ofList body))
  | hasBranch, keyword :: tokens =>
    if keyword = CaseBody.whenKeyword then
      match tokens with
      | c :: separator :: t :: rest =>
        if CaseBody.keywords.contains c then
          invalidExpression (.keywordWithoutValue (String.ofList keyword) (String.ofList body))
        else if separator ≠ CaseBody.thenKeyword then
          invalidExpression (.whenWithoutThen (String.ofList body))
        else if CaseBody.keywords.contains t then
          invalidExpression (.keywordWithoutValue (String.ofList separator) (String.ofList body))
        else do
          let c ← condition bindings parse c
          let e ← parse t
          let (branches, default) ← caseParts body true rest
          .ok ((c, e) :: branches, default)
      | tokens => do
        let (_, rest) ← caseOperand body CaseBody.whenKeyword tokens
        if rest.head? = some CaseBody.thenKeyword then
          invalidExpression (.keywordWithoutValue (String.ofList CaseBody.thenKeyword)
            (String.ofList body))
        else invalidExpression (.whenWithoutThen (String.ofList body))
    else if keyword = CaseBody.elseKeyword ∧ hasBranch then do
      let e ← caseDefault parse body tokens
      .ok ([], some e)
    else invalidExpression (.unexpectedInCase (String.ofList keyword) (String.ofList body))

/-- The branches and the default of a case distinction, from its body. -/
def caseBody (body : Text) : Result (List (Condition × Expr) × Option Expr) :=
  caseParts bindings parse body false ((CaseBody.tokens body).map Token.print)

/-- A case distinction with parentheses on both sides or on none. -/
def case? (t : Text) : Result (Option Expr) :=
  match Form.case? t with
  | none => .ok none
  | some c =>
    if c.opened ≠ c.closed then .ok none
    else do
      let (branches, default) ← caseBody bindings parse c.body
      .ok (some (.case branches default c.aliasName))

/-- Reads an expression by the first rule that applies. -/
def expression (t : Text) : Result Expr :=
  let t := t.trim
  if t.isEmpty then invalidExpression .emptyExpression
  else
    match Form.field? t with
    | some ref => .ok (.field ref)
    | none =>
      match bound? bindings t with
      | some e => .ok e
      | none => do
        if let some e ← scalar? bindings t then return e
        if let some e ← chain? parse t then return e
        if let some e ← call? parse t then return e
        if let some e ← case? bindings parse t then return e
        return .raw (String.ofList (substitute bindings t))

end Expressions

end RecordMapper.Grammar
