import RecordMapper.Number.Integer
import RecordMapper.Query.Expr

/-!
The forms of expressions: what a text must look like to be a field reference, a placeholder, a
literal, a call or a case distinction.

Each form is recognized by a function that takes the parts of the text out. Names consist of word
characters of any script. An alias stands at the end, behind the word `AS` between blanks; the case
of keywords does not matter here, and the long s counts as an s.
-/

namespace RecordMapper.Form

/-! ### Words and aliases -/

/-- A letter of a keyword without its case; the long s is an s. -/
def fold (c : Char) : Char :=
  if c = 'ſ' then 's' else c.toLower

/-- What follows a keyword that the text starts with. -/
def afterWord? : (word : Text) → Text → Option Text
  | [], t => some t
  | _ :: _, [] => none
  | a :: word, b :: t => if fold a = fold b then afterWord? word t else none

/-- What follows the blanks that the text starts with, of which there is at least one. -/
def afterBlanks? : Text → Option Text
  | [] => none
  | c :: t => if Text.isBlank c then some (Text.trimStart t) else none

/-- What follows the word characters that the text starts with, and those, at least one. -/
def word? (t : Text) : Option (Text × Text) :=
  let word := t.takeWhile Text.isWord
  if word.isEmpty then none else some (word, t.dropWhile Text.isWord)

/-- Reads the end of an expression: nothing, or an alias behind `AS`. -/
def ending? : Text → Option (Option String)
  | [] => some none
  | t => do
    let t ← afterBlanks? t
    let t ← afterWord? ['A', 'S'] t
    let t ← afterBlanks? t
    let (name, rest) ← word? t
    if rest.isEmpty then some (some (String.ofList name)) else none

/-- Splits an alias off the end of a chain: a name that starts with an ASCII letter or underscore,
behind `AS` and with something before it. -/
def splitAlias (t : Text) : Text × Option Text :=
  let split := do
    let (name, rest) ← word? t.reverse
    let first ← name.getLast?
    let rest ← if Text.isNameStart first then afterBlanks? rest else none
    let rest ← afterWord? ['S', 'A'] rest
    let rest ← afterBlanks? rest
    if rest.isEmpty then none else some (rest.reverse, some name.reverse)
  split.getD (t, none)

/-! ### Fields and placeholders -/

/-- Reads a field reference: a name in braces, perhaps behind a table and a point. -/
def field? : Text → Option FieldRef
  | '\x7b' :: t => do
    let (first, rest) ← word? t
    match rest with
    | '\x7d' :: rest =>
      let a ← ending? rest
      some ⟨none, String.ofList first, a⟩
    | '.' :: rest =>
      let (second, rest) ← word? rest
      match rest with
      | '\x7d' :: rest =>
        let a ← ending? rest
        some ⟨some (String.ofList first), String.ofList second, a⟩
      | _ => none
    | _ => none
  | _ => none

/-- Reads a placeholder and gives its name. -/
def placeholder? : Text → Option String
  | '%' :: t =>
    match word? t with
    | some (name, ['%']) => some (String.ofList name)
    | _ => none
  | _ => none

/-! ### Literals -/

/-- A literal as it is written. -/
inductive Literal where
  | number (t : Text)
  /-- The contents of a string literal, escapes included. -/
  | string (contents : Text)
  deriving DecidableEq, Repr

/-- What follows the digits that the text starts with, and those, at least one. -/
def digits? (t : Text) : Option (Text × Text) :=
  let digits := t.takeWhile Text.isDigit
  if digits.isEmpty then none else some (digits, t.dropWhile Text.isDigit)

/-- Reads digits with an optional fraction. -/
def unsigned? (t : Text) : Option (Text × Text) := do
  let (whole, rest) ← digits? t
  match rest with
  | '.' :: behind =>
    match digits? behind with
    | some (fraction, rest) => some (whole ++ '.' :: fraction, rest)
    | none => some (whole, rest)
  | _ => some (whole, rest)

/-- Reads a number or a string literal at the start of the text. -/
def literalStart? : Text → Option (Literal × Text)
  | '"' :: t => (Text.literal? t).map fun (contents, rest) => (.string contents, rest)
  | '-' :: t => (unsigned? t).map fun (number, rest) => (.number ('-' :: number), rest)
  | t => (unsigned? t).map fun (number, rest) => (.number number, rest)

/-- Reads a literal, perhaps with an alias. -/
def literal? (t : Text) : Option (Literal × Option String) := do
  let (l, rest) ← literalStart? t
  let a ← ending? rest
  some (l, a)

/-- The contents of a string literal without the backslashes of its escapes. -/
def unescape : Text → Text
  | [] => []
  | ['\\'] => []
  | '\\' :: c :: t => c :: unescape t
  | c :: t => c :: unescape t

/-! ### Calls -/

/-- A function call as it is written. -/
structure Call where
  name : String
  arguments : Text
  aliasName : Option String

/-- Reads a call: a name that starts with an ASCII letter or underscore, and parentheses of which
the one behind the name is closed by the last one. -/
def call? (t : Text) : Option Call := do
  let (name, rest) ← word? t
  let first ← name.head?
  if Text.isNameStart first then
    match Text.trimStart rest with
    | '(' :: rest =>
      let (arguments, rest) ← Text.closing? rest
      let a ← ending? rest
      some ⟨String.ofList name, arguments, a⟩
    | _ => none
  else none

/-! ### Case distinctions -/

/-- A case distinction as it is written. -/
structure Case where
  /-- A parenthesis stands before it. -/
  opened : Bool
  body : Text
  /-- A parenthesis stands behind it. -/
  closed : Bool
  aliasName : Option String

/-- Reads the end of a case distinction: a blank and the word `END`, perhaps a parenthesis, and
perhaps an alias. -/
def caseEnding? : Text → Option (Bool × Option String)
  | [] => none
  | c :: t => do
    let rest ← if Text.isBlank c then afterWord? Text.endKeyword t else none
    match Text.trimStart rest with
    | [] => some (false, none)
    | ')' :: behind => (ending? behind).map fun a => (true, a)
    | _ => (ending? rest).map fun a => (false, a)

/-- Splits a text at the last place from which the rest ends a case distinction. -/
def lastCaseEnding? : Text → Option (Text × Bool × Option String)
  | [] => none
  | c :: t =>
    match lastCaseEnding? t with
    | some (front, ending) => some (c :: front, ending)
    | none => (caseEnding? (c :: t)).map fun ending => ([], ending)

/-- Reads a case distinction: the word `CASE`, blanks, the body, and the last ending that leaves a
blank behind `CASE`. -/
def case? (t : Text) : Option Case := do
  let (opened, t) := match t with
    | '(' :: t => (true, t)
    | t => (false, t)
  let t ← afterWord? Text.caseKeyword (Text.trimStart t)
  let blanks := t.takeWhile Text.isBlank
  let (front, closed, a) ← lastCaseEnding? t
  if blanks.isEmpty || front.isEmpty then none
  else some ⟨opened, front.drop blanks.length, closed, a⟩

end RecordMapper.Form
