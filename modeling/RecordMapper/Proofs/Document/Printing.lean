import RecordMapper.Blob
import RecordMapper.Proofs.Text.Basic

/-!
Documents as text, and the documents that have one.

`Document.print` writes a document without blanks between its lexemes: digits and exponents of
numbers as they are kept, the characters of strings escaped where they must be, and their code units
as `\u` escapes of four digits. A document is well-formed if this writes what the format allows:
numbers with digits in each place and without leading zeros, and no control characters left to be
written by themselves.
-/

namespace RecordMapper

/-! ### Printing -/

/-- The point of a number and the digits behind it. -/
def Numeral.printFraction : Option Text → Text
  | none => []
  | some digits => '.' :: digits

/-- The exponent of a number. -/
def Numeral.printExponent : Option (Bool × Text) → Text
  | none => []
  | some (true, digits) => 'e' :: '-' :: digits
  | some (false, digits) => 'e' :: digits

/-- The number without its sign. -/
def Numeral.printUnsigned (n : Numeral) : Text :=
  n.whole ++ (printFraction n.fraction ++ printExponent n.exponent)

/-- The text of a number. -/
def Numeral.print (n : Numeral) : Text :=
  if n.negative then '-' :: n.printUnsigned else n.printUnsigned

/-- The text of a part of a string. -/
def StringPart.print : StringPart → Text
  | .char c => Blob.escapeChar c
  | .unit n =>
    ['\\', 'u', Blob.hexDigit (n / 4096), Blob.hexDigit (n / 256 % 16),
      Blob.hexDigit (n / 16 % 16), Blob.hexDigit (n % 16)]

namespace Document

/-- The text of a string. -/
def printString (parts : List StringPart) : Text :=
  '"' :: (parts.flatMap StringPart.print ++ ['"'])

mutual

/-- The text of a document. -/
def print : Document → Text
  | .null => ['n', 'u', 'l', 'l']
  | .bool true => ['t', 'r', 'u', 'e']
  | .bool false => ['f', 'a', 'l', 's', 'e']
  | .number n => n.print
  | .string parts => printString parts
  | .array items => '[' :: (Text.join [','] (printItems items) ++ [']'])
  | .object members => '\x7b' :: (Text.join [','] (printMembers members) ++ ['\x7d'])

/-- The texts of the items of an array. -/
def printItems : List Document → List Text
  | [] => []
  | d :: rest => d.print :: printItems rest

/-- The texts of the members of an object. -/
def printMembers : List (List StringPart × Document) → List Text
  | [] => []
  | (key, d) :: rest => (printString key ++ ':' :: d.print) :: printMembers rest

end

end Document

/-! ### Well-formed documents -/

/-- There are digits in each place of the number, and a zero before the point stands alone. -/
structure Numeral.WellFormed (n : Numeral) : Prop where
  whole : Text.IsDigits n.whole
  no_leading_zero : n.whole.head? = some '0' → n.whole.length = 1
  fraction : ∀ digits ∈ n.fraction, Text.IsDigits digits
  exponent : ∀ e ∈ n.exponent, Text.IsDigits e.2

/-- The characters below the space that have an escape of one letter. -/
def StringPart.lettered : List Char :=
  ['\x08', '\x0C', '\n', '\r', '\t']

/-- The part is a character that can be written by itself or behind a backslash, or a code unit of
16 bits. -/
def StringPart.WellFormed : StringPart → Prop
  | .char c => 0x20 ≤ c.toNat ∨ c ∈ lettered
  | .unit n => n < 0x10000

namespace Document

mutual

/-- All numbers and strings of the document are well-formed. -/
def WellFormed : Document → Prop
  | .null => True
  | .bool _ => True
  | .number n => n.WellFormed
  | .string parts => ∀ p ∈ parts, p.WellFormed
  | .array items => WellFormedItems items
  | .object members => WellFormedMembers members

/-- The items of an array are well-formed. -/
def WellFormedItems : List Document → Prop
  | [] => True
  | d :: rest => d.WellFormed ∧ WellFormedItems rest

/-- The members of an object are well-formed. -/
def WellFormedMembers : List (List StringPart × Document) → Prop
  | [] => True
  | (key, d) :: rest => (∀ p ∈ key, p.WellFormed) ∧ d.WellFormed ∧ WellFormedMembers rest

end

end Document

end RecordMapper
