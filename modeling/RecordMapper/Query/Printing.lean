import RecordMapper.Query.Expr
import RecordMapper.Value.Printing

/-!
Expressions and conditions as query text.

The text of a tree is written in the syntax that the parser reads. A chain that is an operand of
another chain and a nested condition inside another one stand in parentheses.
-/

namespace RecordMapper

/-- An alias behind an expression. -/
def printAlias : Option String → Text
  | some a => [' ', 'A', 'S', ' '] ++ a.toList
  | none => []

/-- A field reference. -/
def FieldRef.print (ref : FieldRef) : Text :=
  (match ref.table with
    | some table => '\x7b' :: (table.toList ++ '.' :: ref.name.toList ++ ['\x7d'])
    | none => '\x7b' :: (ref.name.toList ++ ['\x7d']))
  ++ printAlias ref.aliasName

mutual

/-- The text of an expression. -/
def Expr.print : Expr → Text
  | .field ref => ref.print
  | .var name _ => '%' :: (name.toList ++ ['%'])
  | .raw sql => sql.toList
  | .scalar v a => v.print ++ printAlias a
  | .math operands a => printOperands operands ++ printAlias a
  | .func name distinct args a =>
    name.toList ++ '(' :: (if distinct then ['D', 'I', 'S', 'T', 'I', 'N', 'C', 'T', ' '] else [])
      ++ Text.join [',', ' '] (printArguments args) ++ [')'] ++ printAlias a
  | .case branches default a =>
    Text.caseKeyword ++ printBranches branches ++ printDefault default
      ++ ' ' :: Text.endKeyword ++ printAlias a

/-- The text of a condition. -/
def Condition.print : Condition → Text
  | .simple lhs op rhs => lhs.print ++ ' ' :: op.text ++ ' ' :: rhs.print
  | .nested children => printChildren children

/-- The operands of a chain, each behind its operator. -/
def printOperands : List (Option MathOp × Expr) → Text
  | [] => []
  | (op, e) :: rest =>
    (match op with
      | some op => [' ', op.symbol, ' ']
      | none => [])
    ++ (match e with
      | .math inner none => '(' :: (printOperands inner ++ [')'])
      | e => e.print)
    ++ printOperands rest

/-- The arguments of a call. -/
def printArguments : List Expr → List Text
  | [] => []
  | e :: rest => e.print :: printArguments rest

/-- The branches of a case distinction. -/
def printBranches : List (Condition × Expr) → Text
  | [] => []
  | (c, e) :: rest =>
    [' ', 'W', 'H', 'E', 'N', ' '] ++ c.print ++ [' ', 'T', 'H', 'E', 'N', ' '] ++ e.print
      ++ printBranches rest

/-- The value of a case distinction in which no branch applies. -/
def printDefault : Option Expr → Text
  | none => []
  | some e => [' ', 'E', 'L', 'S', 'E', ' '] ++ e.print

/-- Joined conditions, each behind its connector. -/
def printChildren : List (Option BoolOp × Condition) → Text
  | [] => []
  | (op, c) :: rest =>
    (match op with
      | some op => ' ' :: (op.keyword ++ [' '])
      | none => [])
    ++ (match c with
      | .nested inner => '(' :: (printChildren inner ++ [')'])
      | c => c.print)
    ++ printChildren rest

end

instance : ToString FieldRef := ⟨fun ref => String.ofList ref.print⟩
instance : ToString Expr := ⟨fun e => String.ofList e.print⟩
instance : ToString Condition := ⟨fun c => String.ofList c.print⟩

end RecordMapper
