import RecordMapper.Document.Basic

/-!
Reading documents.

A text is first cut into lexemes, by a machine that goes over it once, and the lexemes are then put
together, with the arrays and objects that are open kept on a stack. Blanks are the space, the tab
and the two characters that end lines.
-/

namespace RecordMapper.Document

/-! ### Lexemes -/

/-- A brace, bracket, comma or colon, or a document without parts. -/
inductive Lexeme where
  | sign (c : Char)
  | scalar (d : Document)

/-- What the machine is reading. The text of a number or word, and the parts of a string, are kept
with the last one first. -/
inductive LexState where
  | between
  | number (seen : Text)
  | word (seen : Text)
  | string (seen : List StringPart)
  | escape (seen : List StringPart)
  /-- So many hexadecimal digits of a code unit are still to come. -/
  | hex (seen : List StringPart) (left value : Nat)

/-- A character between lexemes. -/
def isGap (c : Char) : Bool :=
  c == ' ' || c == '\t' || c == '\n' || c == '\r'

/-- A character that stands for itself. -/
def isSign (c : Char) : Bool :=
  ['[', ']', '\x7b', '\x7d', ',', ':'].contains c

/-- A character that numbers consist of. -/
def isNumeric (c : Char) : Bool :=
  c.isDigit || ['-', '+', '.', 'e', 'E'].contains c

/-- Reads digits in front of a text; a text without any has none. -/
def digits? (t : Text) : Option (Text × Text) :=
  let digits := t.takeWhile Char.isDigit
  if digits.isEmpty then none else some (digits, t.dropWhile Char.isDigit)

/-- Reads the exponent of a number, if there is one. -/
def exponent? : Text → Option (Option (Bool × Text))
  | [] => some none
  | c :: t =>
    if c = 'e' ∨ c = 'E' then
      let (negative, t) := match t with
        | '-' :: t => (true, t)
        | '+' :: t => (false, t)
        | t => (false, t)
      match digits? t with
      | some (digits, []) => some (some (negative, digits))
      | _ => none
    else none

/-- Reads a number. A zero before the point stands alone. -/
def numeral? (t : Text) : Option Numeral := do
  let (negative, t) := match t with
    | '-' :: t => (true, t)
    | t => (false, t)
  let (whole, t) ← digits? t
  if whole.head? = some '0' ∧ 1 < whole.length then none
  else
    match t with
    | '.' :: t =>
      let (fraction, t) ← digits? t
      let exponent ← exponent? t
      some ⟨negative, whole, some fraction, exponent⟩
    | t =>
      let exponent ← exponent? t
      some ⟨negative, whole, none, exponent⟩

/-- Reads a word. -/
def word? (t : Text) : Option Document :=
  if t = ['n', 'u', 'l', 'l'] then some .null
  else if t = ['t', 'r', 'u', 'e'] then some (.bool true)
  else if t = ['f', 'a', 'l', 's', 'e'] then some (.bool false)
  else none

/-- The character that a letter behind a backslash stands for. -/
def escaped? (c : Char) : Option Char :=
  if c = '"' ∨ c = '\\' ∨ c = '/' then some c
  else if c = 'b' then some '\x08'
  else if c = 'f' then some '\x0C'
  else if c = 'n' then some '\n'
  else if c = 'r' then some '\r'
  else if c = 't' then some '\t'
  else none

/-- The value of a hexadecimal digit. -/
def hexDigit? (c : Char) : Option Nat :=
  if '0' ≤ c ∧ c ≤ '9' then some (c.toNat - '0'.toNat)
  else if 'a' ≤ c ∧ c ≤ 'f' then some (c.toNat - 'a'.toNat + 10)
  else if 'A' ≤ c ∧ c ≤ 'F' then some (c.toNat - 'A'.toNat + 10)
  else none

/-- Starts to read a lexeme. -/
def start (c : Char) : Option (List Lexeme × LexState) :=
  if isGap c then some ([], .between)
  else if isSign c then some ([.sign c], .between)
  else if c = '"' then some ([], .string [])
  else if c.isDigit ∨ c = '-' then some ([], .number [c])
  else if c.isAlpha then some ([], .word [c])
  else none

/-- Ends a lexeme that nothing closes. -/
def finish : LexState → Option (List Lexeme)
  | .between => some []
  | .number seen => (numeral? seen.reverse).map fun n => [.scalar (.number n)]
  | .word seen => (word? seen.reverse).map fun d => [.scalar d]
  | _ => none

/-- Ends a lexeme at the first character that does not belong to it. -/
def finishAt (state : LexState) (c : Char) : Option (List Lexeme × LexState) := do
  let ended ← finish state
  let (started, state) ← start c
  some (ended ++ started, state)

/-- Reads one character. -/
def step : LexState → Char → Option (List Lexeme × LexState)
  | .between, c => start c
  | .number seen, c =>
    if isNumeric c then some ([], .number (c :: seen)) else finishAt (.number seen) c
  | .word seen, c => if c.isAlpha then some ([], .word (c :: seen)) else finishAt (.word seen) c
  | .string seen, c =>
    if c = '"' then some ([.scalar (.string seen.reverse)], .between)
    else if c = '\\' then some ([], .escape seen)
    else if c.toNat < 0x20 then none
    else some ([], .string (.char c :: seen))
  | .escape seen, c =>
    if c = 'u' then some ([], .hex seen 3 0)
    else (escaped? c).map fun c => ([], .string (.char c :: seen))
  | .hex seen left value, c =>
    (hexDigit? c).map fun digit =>
      match left with
      | 0 => ([], .string (.unit (16 * value + digit) :: seen))
      | left + 1 => ([], .hex seen left (16 * value + digit))

/-- The lexemes of a text. -/
def lexemes : LexState → Text → Option (List Lexeme)
  | state, [] => finish state
  | state, c :: t => do
    let (found, state) ← step state c
    let rest ← lexemes state t
    some (found ++ rest)

/-! ### Putting lexemes together -/

/-- An array or object that is open, with its last part first. -/
inductive Frame where
  | array (items : List Document)
  /-- The last key has no value yet. -/
  | object (members : List (List StringPart × Document)) (key : List StringPart)

/-- What may come next. -/
inductive Expect where
  | value
  /-- A value or the end of an array. -/
  | item
  /-- A key or the end of an object. -/
  | firstKey (members : List (List StringPart × Document))
  | key (members : List (List StringPart × Document))
  | colon
  /-- A comma or the end of what is open last. -/
  | more
  /-- Nothing, since the document is complete. -/
  | done (d : Document)

/-- Adds a complete document to what is open last. -/
def settle (d : Document) : List Frame → Option (List Frame × Expect)
  | [] => some ([], .done d)
  | .array items :: frames => some (.array (d :: items) :: frames, .more)
  | .object members key :: frames => some (.object ((key, d) :: members) key :: frames, .more)

/-- Reads the start of a value, or a whole one. -/
def openValue (frames : List Frame) : Lexeme → Option (List Frame × Expect)
  | .scalar d => settle d frames
  | .sign '[' => some (.array [] :: frames, .item)
  | .sign '\x7b' => some (frames, .firstKey [])
  | .sign _ => none

/-- Reads one lexeme. -/
def build : List Frame → Expect → Lexeme → Option (List Frame × Expect)
  | frames, .value, l => openValue frames l
  | .array [] :: frames, .item, .sign ']' => settle (.array []) frames
  | frames, .item, l => openValue frames l
  | frames, .firstKey _, .sign '\x7d' => settle (.object []) frames
  | frames, .firstKey members, .scalar (.string key) => some (.object members key :: frames, .colon)
  | frames, .key members, .scalar (.string key) => some (.object members key :: frames, .colon)
  | frames, .colon, .sign ':' => some (frames, .value)
  | .array items :: frames, .more, .sign ',' => some (.array items :: frames, .value)
  | .array items :: frames, .more, .sign ']' => settle (.array items.reverse) frames
  | .object members _ :: frames, .more, .sign ',' => some (frames, .key members)
  | .object members _ :: frames, .more, .sign '\x7d' => settle (.object members.reverse) frames
  | _, _, _ => none

/-- Puts lexemes together into one document. -/
def assemble : List Frame → Expect → List Lexeme → Option Document
  | [], .done d, [] => some d
  | _, _, [] => none
  | frames, expect, l :: rest => do
    let (frames, expect) ← build frames expect l
    assemble frames expect rest

/-- Reads a text that holds one document. -/
def read? (t : Text) : Option Document := do
  let found ← lexemes .between t
  assemble [] .value found

end RecordMapper.Document
