import RecordMapper.Query.Select

/-!
The leaves of expressions and statements.

A leaf is an expression without parts: a field reference, a bound placeholder, a literal, or text
that is handed on. Its leaves are all that a statement takes from the texts of a query besides its
operators and names, and **its field references are those among its leaves**
(`Select.references_eq`).
-/

namespace RecordMapper

mutual

/-- The leaves of an expression, from left to right. -/
def Expr.leaves : Expr → List Expr
  | .field ref => [.field ref]
  | .var name value => [.var name value]
  | .raw sql => [.raw sql]
  | .scalar value a => [.scalar value a]
  | .math operands _ => operandLeaves operands
  | .func _ _ args _ => argumentLeaves args
  | .case branches default _ => branchLeaves branches ++ defaultLeaves default

/-- The leaves of a condition, from left to right. -/
def Condition.leaves : Condition → List Expr
  | .simple lhs _ rhs => lhs.leaves ++ rhs.leaves
  | .nested children => childLeaves children

/-- The leaves of the operands of a chain. -/
def operandLeaves : List (Option MathOp × Expr) → List Expr
  | [] => []
  | (_, e) :: rest => e.leaves ++ operandLeaves rest

/-- The leaves of the arguments of a call. -/
def argumentLeaves : List Expr → List Expr
  | [] => []
  | e :: rest => e.leaves ++ argumentLeaves rest

/-- The leaves of the branches of a case distinction. -/
def branchLeaves : List (Condition × Expr) → List Expr
  | [] => []
  | (c, e) :: rest => c.leaves ++ e.leaves ++ branchLeaves rest

/-- The leaves of an optional expression. -/
def defaultLeaves : Option Expr → List Expr
  | none => []
  | some e => e.leaves

/-- The leaves of joined conditions. -/
def childLeaves : List (Option BoolOp × Condition) → List Expr
  | [] => []
  | (_, c) :: rest => c.leaves ++ childLeaves rest

end

/-! ### Parts -/

variable {leaf : Expr}

theorem mem_argumentLeaves {args : List Expr} :
    leaf ∈ argumentLeaves args ↔ ∃ e ∈ args, leaf ∈ e.leaves := by
  induction args with
  | nil => simp [argumentLeaves]
  | cons e rest ih => simp [argumentLeaves, ih]

theorem mem_childLeaves {children : List (Option BoolOp × Condition)} :
    leaf ∈ childLeaves children ↔ ∃ child ∈ children, leaf ∈ child.2.leaves := by
  induction children with
  | nil => simp [childLeaves]
  | cons child rest ih => simp [childLeaves, ih]

/-! ### Field references -/

mutual

/-- The field references of an expression are those among its leaves. -/
theorem Expr.references_eq : (e : Expr) → e.references = e.leaves.filterMap Expr.field?
  | .field _ => rfl
  | .var _ _ => rfl
  | .raw _ => rfl
  | .scalar _ _ => rfl
  | .math operands _ => operandReferences_eq operands
  | .func _ _ args _ => argumentReferences_eq args
  | .case branches default _ => by
    rw [Expr.references, Expr.leaves, List.filterMap_append, branchReferences_eq branches,
      defaultReferences_eq default]

theorem Condition.references_eq : (c : Condition) →
    c.references = c.leaves.filterMap Expr.field?
  | .simple lhs _ rhs => by
    rw [Condition.references, Condition.leaves, List.filterMap_append, lhs.references_eq,
      rhs.references_eq]
  | .nested children => childReferences_eq children

theorem operandReferences_eq : (operands : List (Option MathOp × Expr)) →
    operandReferences operands = (operandLeaves operands).filterMap Expr.field?
  | [] => rfl
  | (_, e) :: rest => by
    rw [operandReferences, operandLeaves, List.filterMap_append, e.references_eq,
      operandReferences_eq rest]

theorem argumentReferences_eq : (args : List Expr) →
    argumentReferences args = (argumentLeaves args).filterMap Expr.field?
  | [] => rfl
  | e :: rest => by
    rw [argumentReferences, argumentLeaves, List.filterMap_append, e.references_eq,
      argumentReferences_eq rest]

theorem branchReferences_eq : (branches : List (Condition × Expr)) →
    branchReferences branches = (branchLeaves branches).filterMap Expr.field?
  | [] => rfl
  | (c, e) :: rest => by
    rw [branchReferences, branchLeaves, List.filterMap_append, List.filterMap_append,
      c.references_eq, e.references_eq, branchReferences_eq rest]

theorem defaultReferences_eq : (default : Option Expr) →
    defaultReferences default = (defaultLeaves default).filterMap Expr.field?
  | none => rfl
  | some e => e.references_eq

theorem childReferences_eq : (children : List (Option BoolOp × Condition)) →
    childReferences children = (childLeaves children).filterMap Expr.field?
  | [] => rfl
  | (_, c) :: rest => by
    rw [childReferences, childLeaves, List.filterMap_append, c.references_eq,
      childReferences_eq rest]

end

namespace Select

/-- The leaves of a statement, in the order of its parts. -/
def leaves (s : Select) : List Expr :=
  argumentLeaves s.fields ++ (match s.filter with
    | some c => c.leaves
    | none => []) ++ s.orderBy.flatMap fun o => o.expr.leaves

/-- **The field references of a statement are those among its leaves.** -/
theorem references_eq (s : Select) : s.references = s.leaves.filterMap Expr.field? := by
  have ordering : (s.orderBy.flatMap fun o => o.expr.references)
      = (s.orderBy.flatMap fun o => o.expr.leaves).filterMap Expr.field? := by
    rw [List.filterMap_flatMap]
    exact congrArg (fun f => s.orderBy.flatMap f) (funext fun o => o.expr.references_eq)
  rw [references, leaves, List.filterMap_append, List.filterMap_append,
    argumentReferences_eq, ordering]
  cases s.filter with
  | none => rfl
  | some c => simp only [c.references_eq]

end Select

end RecordMapper
