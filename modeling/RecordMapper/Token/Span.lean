import RecordMapper.Token.Basic

/-!
Balanced spans: how the delimiter that closes a span is found.

A `Span` is opened and closed by delimiters, which may be keywords. The search for the close works
on the UTF-8 bytes of the text: a quote or escape character is compared as one byte, so that one
from U+0080 to U+00FF also meets the bytes of longer characters. `closeFrom?` walks over the bytes
and counts nested spans of the same delimiters; an escape byte hides the byte behind it, and between
two quote bytes nothing counts.
-/

namespace RecordMapper

/-! ### Bytes -/

/-- The UTF-8 bytes of a text. -/
def Text.bytes (t : Text) : List UInt8 :=
  t.flatMap String.utf8EncodeChar

/-- Splits a text behind its first `n` bytes. -/
def Text.splitBytes : (n : Nat) → Text → Text × Text
  | 0, t => ([], t)
  | _, [] => ([], [])
  | n + 1, c :: t =>
    let (front, rest) := Text.splitBytes (n + 1 - c.utf8Size) t
    (c :: front, rest)

namespace Byte

/-- An ASCII character as a byte. -/
def ofAscii (c : Char) : UInt8 :=
  c.toNat.toUInt8

/-- The byte of a character up to U+00FF. -/
def ofChar? (c : Char) : Option UInt8 :=
  if c.toNat < 256 then some c.toNat.toUInt8 else none

/-- The lower-case form of an ASCII letter. -/
def toLower (b : UInt8) : UInt8 :=
  if 65 ≤ b ∧ b ≤ 90 then b + 32 else b

/-- An ASCII letter, an ASCII digit or the underscore. -/
def isWord (b : UInt8) : Bool :=
  decide (48 ≤ b ∧ b ≤ 57) || decide (65 ≤ b ∧ b ≤ 90) || decide (97 ≤ b ∧ b ≤ 122) || b == 95

/-- What follows `start` in the bytes, if they start with it. -/
def after? (ignoreCase : Bool) : (start : List UInt8) → List UInt8 → Option (List UInt8)
  | [], bytes => some bytes
  | _ :: _, [] => none
  | a :: start, b :: bytes =>
    if (if ignoreCase then toLower a == toLower b else a == b) then after? ignoreCase start bytes
    else none

/-- What stands before and behind a keyword lets it stand on its own. -/
def standsAlone (before behind : Option UInt8) : Bool :=
  before.all (fun b => !isWord b && b != ofAscii '\x7b')
    && behind.all (fun b => !isWord b && b != ofAscii '\x7d')

end Byte

/-! ### Spans -/

/-- What becomes of the text between the delimiters of a span. -/
inductive Interior where
  /-- The span, delimiters included, stays part of the token around it. -/
  | inline
  /-- It becomes one flat token. -/
  | raw
  /-- It is tokenized and becomes one nested token. -/
  | recursive
  deriving DecidableEq, Repr

/-- A balanced span of text. -/
structure Span where
  opening : Text
  closing : Text
  interior : Interior
  /-- The delimiters are kept around a raw or recursive interior. -/
  keepDelimiters : Bool := false
  /-- The delimiters are words: letter case does not matter, and they stand on their own. -/
  keyword : Bool := false
  /-- Between two of these bytes the search for the close skips everything. -/
  quote : Option UInt8 := none
  /-- This byte hides the one behind it from the search for the close. -/
  escape : Option UInt8 := none
  /-- Given the text before the opening delimiter and the text behind the closing one, whether the
  span may be taken. -/
  guard : Text → Text → Bool := fun _ _ => true

namespace Span

/-- The delimiter stands at the start of the bytes. -/
def delimits (s : Span) (delimiter : List UInt8) (before : Option UInt8) (bytes : List UInt8) :
    Bool :=
  match Byte.after? s.keyword delimiter bytes with
  | some rest => !s.keyword || Byte.standsAlone before rest.head?
  | none => false

/-- Finds the delimiter that closes a span, as the positions of its first byte and of the byte
behind it. `depth` counts the spans opened since, `skip` the bytes that are not looked at any more,
`quoted` says that the search is between quotes, and `position` counts the bytes passed. -/
def closeFrom? (s : Span) : (depth skip : Nat) → (quoted : Bool) → (before : Option UInt8) →
    (position : Nat) → List UInt8 → Option (Nat × Nat)
  | _, _, _, _, _, [] => none
  | depth, skip + 1, quoted, _, position, b :: bytes =>
    closeFrom? s depth skip quoted (some b) (position + 1) bytes
  | depth, 0, true, _, position, b :: bytes =>
    if b = Byte.ofAscii '\\' then closeFrom? s depth 1 true (some b) (position + 1) bytes
    else closeFrom? s depth 0 (s.quote != some b) (some b) (position + 1) bytes
  | depth, 0, false, before, position, b :: bytes =>
    if s.escape = some b then closeFrom? s depth 1 false (some b) (position + 1) bytes
    else if s.quote = some b then closeFrom? s depth 0 true (some b) (position + 1) bytes
    else if s.delimits (Text.bytes s.closing) before (b :: bytes) then
      let size := (Text.bytes s.closing).length
      match depth, size with
      | 0, _ | _, 0 => some (position, position + size)
      | depth + 1, size + 1 => closeFrom? s depth size false (some b) (position + 1) bytes
    else if s.opening ≠ s.closing ∧ s.delimits (Text.bytes s.opening) before (b :: bytes) then
      closeFrom? s (depth + 1) ((Text.bytes s.opening).length - 1) false (some b) (position + 1)
        bytes
    else closeFrom? s depth 0 false (some b) (position + 1) bytes

/-- Finds the delimiter that closes a span in the text behind its opening delimiter, as byte
positions. -/
def closePosition? (s : Span) (rest : Text) : Option (Nat × Nat) :=
  closeFrom? s 0 0 false none 0 (Text.bytes rest)

/-- Splits the text behind an opening delimiter into the interior of the span and what follows the
closing delimiter. -/
def close? (s : Span) (rest : Text) : Option (Text × Text) :=
  (s.closePosition? rest).map fun (start, stop) =>
    ((Text.splitBytes start rest).1, (Text.splitBytes stop rest).2)

/-- The text before the opening delimiter, if the text read so far ends in one; `seen` is that text
with its last character first. -/
def openAtEnd? (s : Span) (seen rest : Text) : Option Text :=
  if s.opening.isEmpty then none
  else
    match Text.after? s.keyword s.opening.reverse seen with
    | some before =>
      if !s.keyword || Text.standsAlone before.head? rest.head? then some before.reverse else none
    | none => none

end Span

end RecordMapper
