import RecordMapper.Text.Scan

/-!
Operators of the query language: arithmetic operators, connectors and comparisons.
-/

namespace RecordMapper

/-! ### Arithmetic -/

/-- An arithmetic operator. -/
inductive MathOp where
  | add | sub | mul | div | mod | pow
  deriving DecidableEq, Repr

namespace MathOp

/-- All arithmetic operators. -/
def all : List MathOp := [add, sub, mul, div, mod, pow]

/-- The sign of an operator. -/
def symbol : MathOp → Char
  | add => '+'
  | sub => '-'
  | mul => '*'
  | div => '/'
  | mod => '%'
  | pow => '^'

/-- The operator with this sign. -/
def ofSymbol? (t : Text) : Option MathOp :=
  all.find? fun op => t == [op.symbol]

end MathOp

/-! ### Connectors -/

/-- What joins two conditions. -/
inductive BoolOp where
  | and | or
  deriving DecidableEq, Repr

namespace BoolOp

/-- The keyword of a connector. -/
def keyword : BoolOp → Text
  | and => ['A', 'N', 'D']
  | or => ['O', 'R']

/-- The connector with this keyword, in any case. -/
def ofKeyword? (t : Text) : Option BoolOp :=
  if Text.sameLetters (keyword and) t then some and
  else if Text.sameLetters (keyword or) t then some or
  else none

end BoolOp

/-! ### Comparisons -/

/-- A comparison operator. -/
inductive CmpOp where
  | le | ge | ne | eq | lt | gt | isNot | is | notLike | like | notIn | isIn
  deriving DecidableEq, Repr

namespace CmpOp

/-- The text of an operator. -/
def text : CmpOp → Text
  | le => ['<', '=']
  | ge => ['>', '=']
  | ne => ['<', '>']
  | eq => ['=']
  | lt => ['<']
  | gt => ['>']
  | isNot => ['I', 'S', ' ', 'N', 'O', 'T']
  | is => ['I', 'S']
  | notLike => ['N', 'O', 'T', ' ', 'L', 'I', 'K', 'E']
  | like => ['L', 'I', 'K', 'E']
  | notIn => ['N', 'O', 'T', ' ', 'I', 'N']
  | isIn => ['I', 'N']

/-- The operator is written as words. -/
def isWords : CmpOp → Bool
  | isNot | is | notLike | like | notIn | isIn => true
  | _ => false

/-- The spellings of the operators in the order in which a condition is searched for them: each
before every shorter one that it contains. -/
def spellings : List (Text × CmpOp) :=
  [(le.text, le), (ge.text, ge), (ne.text, ne), (['!', '='], ne), (eq.text, eq), (lt.text, lt),
    (gt.text, gt), (isNot.text, isNot), (is.text, is), (notLike.text, notLike), (like.text, like),
    (notIn.text, notIn), (isIn.text, isIn)]

/-- Splits a comparison at its operator: the first spelling that occurs at the top level. -/
def split? (t : Text) : Option (Text × CmpOp × Text) :=
  spellings.findSome? fun (spelling, op) =>
    (Text.splitAt? spelling op.isWords t).map fun (left, right) => (left, op, right)

end CmpOp

end RecordMapper
