import RecordMapper.Query.Printing

/-!
Select statements: what a driver is asked to run.

A `Select` holds the parsed parts of a query. Its relation aliases are the tables of all field
references in it, each once, in the order of the select list, the filter and the ordering.
-/

namespace RecordMapper

/-- The direction of an ordering. -/
inductive Direction where
  | asc | desc
  deriving DecidableEq, Repr, Inhabited

/-- An expression to order by. -/
structure OrderBy where
  expr : Expr
  direction : Direction := .asc

/-- The text of an ordering. -/
def OrderBy.print (o : OrderBy) : Text :=
  o.expr.print ++ match o.direction with
    | .asc => [' ', 'A', 'S', 'C']
    | .desc => [' ', 'D', 'E', 'S', 'C']

/-- A select statement on a model. Without fields every field of the model is selected. -/
structure Select where
  model : String
  fields : List Expr := []
  filter : Option Condition := none
  orderBy : List OrderBy := []
  limit : Option UInt64 := none
  offset : Option UInt64 := none

namespace Select

/-- The field references of a statement, in the order of its parts. -/
def references (s : Select) : List FieldRef :=
  argumentReferences s.fields ++ (match s.filter with
    | some c => c.references
    | none => []) ++ s.orderBy.flatMap fun o => o.expr.references

/-- The relations that the statement refers to, each at its first occurrence. -/
def relationAliases (s : Select) : List String :=
  (s.references.filterMap FieldRef.table).foldl
    (fun seen table => if seen.contains table then seen else seen ++ [table]) []

end Select

end RecordMapper
