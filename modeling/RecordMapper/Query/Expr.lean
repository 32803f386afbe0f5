import RecordMapper.Query.Operator
import RecordMapper.Value.Basic

/-!
Expressions and conditions of the query language.

An expression is a field reference, a bound placeholder, a literal, a chain of arithmetic, a
function call, a case distinction, or text that is handed on as it is. The operands of a chain and
the children of a nested condition stand in the order written, each with what joins it to the one
before; the first has none. `Expr.references` lists the field references of a tree from left to
right.
-/

namespace RecordMapper

/-- A reference to a field of a model, or of the relation or table that `table` names. -/
structure FieldRef where
  table : Option String
  name : String
  aliasName : Option String
  deriving DecidableEq, Repr

mutual

/-- An expression. -/
inductive Expr where
  | field (ref : FieldRef)
  /-- A placeholder with the value bound to it. -/
  | var (name : String) (value : Value)
  /-- Text that has no other form. -/
  | raw (sql : String)
  | scalar (value : Value) (aliasName : Option String)
  /-- Operands chained from left to right, without precedence. -/
  | math (operands : List (Option MathOp × Expr)) (aliasName : Option String)
  | func (name : String) (distinct : Bool) (args : List Expr) (aliasName : Option String)
  | case (branches : List (Condition × Expr)) (default : Option Expr) (aliasName : Option String)

/-- A condition. -/
inductive Condition where
  | simple (lhs : Expr) (op : CmpOp) (rhs : Expr)
  /-- Conditions joined from left to right. -/
  | nested (children : List (Option BoolOp × Condition))

end

instance : Inhabited Expr := ⟨.raw ""⟩
instance : Inhabited Condition := ⟨.nested []⟩

namespace Expr

/-! ### Views -/

/-- The alias of an expression, if its form has one. -/
def alias? : Expr → Option String
  | .field ref => ref.aliasName
  | .scalar _ a => a
  | .math _ a => a
  | .func _ _ _ a => a
  | .case _ _ a => a
  | .raw _ | .var _ _ => none

/-- The constant value of a literal or a bound placeholder. -/
def value? : Expr → Option Value
  | .scalar v _ => some v
  | .var _ v => some v
  | _ => none

/-- The reference, if the expression is one. -/
def field? : Expr → Option FieldRef
  | .field ref => some ref
  | _ => none

/-- The expression is a field reference. -/
def isField : Expr → Bool
  | .field _ => true
  | _ => false

/-- The expression is text handed on. -/
def isRaw : Expr → Bool
  | .raw _ => true
  | _ => false

/-- The expression is a literal. -/
def isScalar : Expr → Bool
  | .scalar _ _ => true
  | _ => false

end Expr

/-! ### Field references -/

mutual

/-- The field references of an expression, from left to right. -/
def Expr.references : Expr → List FieldRef
  | .field ref => [ref]
  | .var _ _ => []
  | .raw _ => []
  | .scalar _ _ => []
  | .math operands _ => operandReferences operands
  | .func _ _ args _ => argumentReferences args
  | .case branches default _ => branchReferences branches ++ defaultReferences default

/-- The field references of a condition, from left to right. -/
def Condition.references : Condition → List FieldRef
  | .simple lhs _ rhs => lhs.references ++ rhs.references
  | .nested children => childReferences children

/-- The field references of the operands of a chain. -/
def operandReferences : List (Option MathOp × Expr) → List FieldRef
  | [] => []
  | (_, e) :: rest => e.references ++ operandReferences rest

/-- The field references of the arguments of a call. -/
def argumentReferences : List Expr → List FieldRef
  | [] => []
  | e :: rest => e.references ++ argumentReferences rest

/-- The field references of the branches of a case distinction, the condition of each first. -/
def branchReferences : List (Condition × Expr) → List FieldRef
  | [] => []
  | (c, e) :: rest => c.references ++ e.references ++ branchReferences rest

/-- The field references of an optional expression. -/
def defaultReferences : Option Expr → List FieldRef
  | none => []
  | some e => e.references

/-- The field references of joined conditions. -/
def childReferences : List (Option BoolOp × Condition) → List FieldRef
  | [] => []
  | (_, c) :: rest => c.references ++ childReferences rest

end

end RecordMapper
