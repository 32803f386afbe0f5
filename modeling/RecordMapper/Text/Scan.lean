import RecordMapper.Text.Basic

/-!
Scanning query text: quoted literals, parentheses and keywords.

A scan reads a text from left to right and keeps a `Mode`, which says whether the next character
stands in a string literal. `literal?` finds the quote that closes a literal, `closing?` the
parenthesis that closes an open one, `splitAt?` an operator that no literal, parenthesis, field
reference or case distinction encloses, and `flattenBlanks` writes every blank outside literals as a
space. A keyword counts where it stands on its own: next to no ASCII word character, and not inside
the braces of a field reference.
-/

namespace RecordMapper.Text

/-! ### String literals -/

/-- Where a scan stands with respect to string literals. -/
inductive Mode where
  /-- Outside every literal. -/
  | plain
  /-- Inside a literal. -/
  | quoted
  /-- Inside a literal, behind a backslash. -/
  | escaped
  deriving DecidableEq, Repr

/-- The mode behind a character. -/
def Mode.after : Mode → Char → Mode
  | .plain, c => if c = '"' then .quoted else .plain
  | .quoted, c => if c = '"' then .plain else if c = '\\' then .escaped else .quoted
  | .escaped, _ => .quoted

/-- Writes each blank that stands outside literals as a space. -/
def flattenBlanksFrom : Mode → Text → Text
  | _, [] => []
  | m, c :: t =>
    (if m = .plain ∧ isBlank c then ' ' else c) :: flattenBlanksFrom (m.after c) t

/-- The text on one line: line breaks and tabs outside literals become spaces. -/
def flattenBlanks (t : Text) : Text :=
  flattenBlanksFrom .plain t

/-- Splits a text that stands inside a literal at the quote that closes it, into the contents, as
they are written, and what follows. -/
def literalFrom? : Mode → Text → Option (Text × Text)
  | _, [] => none
  | m, c :: t =>
    if m.after c = .plain then some ([], t)
    else (literalFrom? (m.after c) t).map fun (contents, rest) => (c :: contents, rest)

/-- Splits a text that stands behind an opening quote at the quote that closes the literal. -/
def literal? (t : Text) : Option (Text × Text) :=
  literalFrom? .quoted t

/-! ### Parentheses -/

/-- Splits a text that stands behind an open parenthesis at the one that closes it, into what is
enclosed and what follows. `depth` counts the parentheses opened since; those in literals do not
count. -/
def closingFrom? : (depth : Nat) → Mode → Text → Option (Text × Text)
  | _, _, [] => none
  | depth, m, c :: t =>
    let next (depth : Nat) := (closingFrom? depth (m.after c) t).map fun (inner, rest) =>
      (c :: inner, rest)
    if m = .plain ∧ c = '(' then next (depth + 1)
    else if m = .plain ∧ c = ')' then
      match depth with
      | 0 => some ([], t)
      | depth + 1 => next depth
    else next depth

/-- Splits a text that stands behind an open parenthesis at the one that closes it. -/
def closing? (t : Text) : Option (Text × Text) :=
  closingFrom? 0 .plain t

/-- The interior of a text that one pair of parentheses wraps, as in `({a} + {b})` but not in
`({a}) + ({b})`. -/
def unwrapped? : Text → Option Text
  | '(' :: t =>
    match closing? t with
    | some (inner, []) => some inner
    | _ => none
  | _ => none

/-! ### Keywords -/

/-- A keyword may follow this character. -/
def mayPrecedeKeyword (c : Char) : Bool :=
  !isAsciiWord c && c != '{'

/-- A keyword may be followed by this character. -/
def mayFollowKeyword (c : Char) : Bool :=
  !isAsciiWord c && c != '}'

/-- What stands before and behind a keyword lets it stand on its own; the ends of the text do. -/
def standsAlone (before behind : Option Char) : Bool :=
  before.all mayPrecedeKeyword && behind.all mayFollowKeyword

/-- The text starts with the keyword, which stands on its own. -/
def startsKeyword (keyword : Text) (before : Option Char) (t : Text) : Bool :=
  match after? true keyword t with
  | some rest => standsAlone before rest.head?
  | none => false

/-- The keyword that opens a case distinction. -/
def caseKeyword : Text := ['C', 'A', 'S', 'E']

/-- The keyword that closes a case distinction. -/
def endKeyword : Text := ['E', 'N', 'D']

/-! ### Operators -/

/-- What follows an operator that stands at the start of the text. One written as words ignores
letter case and needs an ASCII blank on both sides. -/
def afterOperator? (operator : Text) (words : Bool) (before : Option Char) (t : Text) :
    Option Text :=
  if words then
    if before.any isAsciiBlank then
      (after? true operator t).filter fun rest => rest.head?.any isAsciiBlank
    else none
  else after? false operator t

/-- Splits the text at the first occurrence of the operator with nothing around it. `depth` counts
the parentheses, braces and case distinctions that are open, and the first `skip` characters belong
to a keyword already counted. -/
def splitFrom? (operator : Text) (words : Bool) :
    (depth skip : Nat) → Mode → (before : Option Char) → Text → Option (Text × Text)
  | _, _, _, _, [] => none
  | depth, skip, m, before, c :: t =>
    let next (depth skip : Nat) :=
      (splitFrom? operator words depth skip (m.after c) (some c) t).map fun (left, right) =>
        (c :: left, right)
    match skip with
    | skip + 1 => next depth skip
    | 0 =>
      if m = .plain then
        if c = '"' then next depth 0
        else if c = '(' ∨ c = '{' then next (depth + 1) 0
        else if c = ')' ∨ c = '}' then next (depth - 1) 0
        else if startsKeyword caseKeyword before (c :: t) then next (depth + 1) 3
        else if startsKeyword endKeyword before (c :: t) then next (depth - 1) 2
        else if depth = 0 then
          match afterOperator? operator words before (c :: t) with
          | some rest => some ([], rest)
          | none => next 0 0
        else next depth 0
      else next depth 0

/-- Splits the text at the first occurrence of the operator outside literals, parentheses, field
references and case distinctions. -/
def splitAt? (operator : Text) (words : Bool) (t : Text) : Option (Text × Text) :=
  splitFrom? operator words 0 0 .plain none t

end RecordMapper.Text
