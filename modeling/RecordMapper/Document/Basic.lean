import RecordMapper.Text.Basic

/-!
Documents in the JSON format, as they are written.

A `Document` keeps what the text says: the parts of a number as digits, and a string as characters
and the code units of its `\u` escapes. What the digits and units mean is decided where a document
is put to use, so that parts of a document that nobody looks at may hold numbers that are too large
or units without a partner.
-/

namespace RecordMapper

/-- A number as it is written: digits before the point, digits behind it if there is a point, and
an exponent with its sign. -/
structure Numeral where
  negative : Bool
  whole : Text
  fraction : Option Text
  exponent : Option (Bool × Text)
  deriving DecidableEq, Repr

/-- A part of a string: a character, or a code unit of UTF-16. -/
inductive StringPart where
  | char (c : Char)
  | unit (n : Nat)
  deriving DecidableEq, Repr

/-- A document as it is written. -/
inductive Document where
  | null
  | bool (b : Bool)
  | number (n : Numeral)
  | string (parts : List StringPart)
  | array (items : List Document)
  | object (members : List (List StringPart × Document))

namespace Document

mutual

/-- How deep arrays and objects nest. -/
def depth : Document → Nat
  | .null => 0
  | .bool _ => 0
  | .number _ => 0
  | .string _ => 0
  | .array items => depthOfItems items + 1
  | .object members => depthOfMembers members + 1

/-- The greatest depth of the items of an array. -/
def depthOfItems : List Document → Nat
  | [] => 0
  | d :: rest => max d.depth (depthOfItems rest)

/-- The greatest depth of the members of an object. -/
def depthOfMembers : List (List StringPart × Document) → Nat
  | [] => 0
  | (_, d) :: rest => max d.depth (depthOfMembers rest)

end

/-- A high surrogate and a low one stand for a character beyond U+FFFF. -/
def ofSurrogates (high low : Nat) : Char :=
  Char.ofNat (0x10000 + (high - 0xD800) * 0x400 + (low - 0xDC00))

/-- The text of a string. A surrogate without its partner has none. -/
def text? : List StringPart → Option Text
  | [] => some []
  | .char c :: rest => (text? rest).map (c :: ·)
  | .unit n :: rest =>
    if n < 0xD800 ∨ 0xDFFF < n then (text? rest).map (Char.ofNat n :: ·)
    else if n < 0xDC00 then
      match rest with
      | .unit low :: rest =>
        if 0xDC00 ≤ low ∧ low ≤ 0xDFFF then (text? rest).map (ofSurrogates n low :: ·) else none
      | _ => none
    else none

end Document

end RecordMapper
