import RecordMapper.Query.Grammar

/-!
The parser of the query language.

`expressionWithin` closes the recursion of the grammar: every expression inside another one is
shorter than it, so a text needs no more depth than it has characters, and the public functions give
it one more.
-/

namespace RecordMapper.Parser

/-- Reads an expression whose parts nest less than `depth` deep. -/
def expressionWithin (bindings : Option Bindings) : (depth : Nat) → Text → Result Expr
  | 0, _ => Error.invalidExpression .tooDeep
  | depth + 1, t => Grammar.expression bindings (expressionWithin bindings depth) t

/-- Reads an expression, with bound placeholders if there are bindings. -/
def expression (t : Text) (bindings : Option Bindings) : Result Expr :=
  expressionWithin bindings (t.length + 1) t

/-- Reads a list of expressions separated by commas, such as a select list. -/
def fields (t : Text) (bindings : Option Bindings) : Result (List Expr) :=
  Grammar.fieldList (expressionWithin bindings (t.length + 1)) t

/-- Reads a condition, without saying in the error which one it was. -/
def bareCondition (t : Text) (bindings : Option Bindings) : Result Condition :=
  Grammar.condition bindings (expressionWithin bindings (t.length + 1)) t

/-- Reads a condition. -/
def condition (t : Text) (bindings : Option Bindings) : Result Condition :=
  Error.within (.adhoc ("failed to parse condition `" ++ String.ofList t ++ "`"))
    (bareCondition t bindings)

end RecordMapper.Parser
