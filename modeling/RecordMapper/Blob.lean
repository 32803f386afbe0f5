import RecordMapper.Document.Number
import RecordMapper.Document.Reading
import RecordMapper.Error

/-!
Values stored as documents in serialized columns.

`encode` writes a value as a document, records and entries without their null fields; `decode`
reads a document back, in which an object is a record. `decodeColumn` reads a column: an empty value
is null, text is decoded, and lists and records are taken as they are.
-/

namespace RecordMapper.Blob

/-! ### Writing -/

/-- A hexadecimal digit. -/
def hexDigit (n : Nat) : Char :=
  Nat.digitChar n

/-- A character of a string: as it is, or escaped if it is a quote, a backslash or a control
character. -/
def escapeChar (c : Char) : Text :=
  if c = '"' then ['\\', '"']
  else if c = '\\' then ['\\', '\\']
  else if c = '\x08' then ['\\', 'b']
  else if c = '\x0C' then ['\\', 'f']
  else if c = '\n' then ['\\', 'n']
  else if c = '\r' then ['\\', 'r']
  else if c = '\t' then ['\\', 't']
  else if c.toNat < 0x20 then
    ['\\', 'u', '0', '0', hexDigit (c.toNat / 16), hexDigit (c.toNat % 16)]
  else [c]

/-- A string of a document. -/
def encodeString (s : String) : Text :=
  '"' :: (s.toList.flatMap escapeChar ++ ['"'])

/-- A floating-point number; documents hold finite ones only. -/
def encodeFloat (x : Float) : Result Text :=
  if x.isFinite then .ok (Layout.document.print x)
  else Error.throw (.deserialization (.notEncodable x))

mutual

/-- The document of a value. -/
def encodeText : Value → Result Text
  | .null => .ok ['n', 'u', 'l', 'l']
  | .bool true => .ok ['t', 'r', 'u', 'e']
  | .bool false => .ok ['f', 'a', 'l', 's', 'e']
  | .int n => .ok (Integer.print n.toInt)
  | .float x => encodeFloat x
  | .string s => .ok (encodeString s)
  | .list items => do
    let texts ← encodeItems items
    .ok ('[' :: (Text.join [','] texts ++ [']']))
  | .record fields => do
    let texts ← encodeFields fields
    .ok ('\x7b' :: (Text.join [','] texts ++ ['\x7d']))
  | .entry e => encodeEntryText e

/-- The document of the fields of an entry. -/
def encodeEntryText : Entry → Result Text
  | ⟨_, fields, _⟩ => do
    let texts ← encodeFields fields
    .ok ('\x7b' :: (Text.join [','] texts ++ ['\x7d']))

/-- The items of an array. -/
def encodeItems : List Value → Result (List Text)
  | [] => .ok []
  | v :: rest => do
    let text ← encodeText v
    let texts ← encodeItems rest
    .ok (text :: texts)

/-- The members of an object, without the null fields. -/
def encodeFields : List (String × Value) → Result (List Text)
  | [] => .ok []
  | (name, v) :: rest =>
    if v.isNull then encodeFields rest
    else do
      let text ← encodeText v
      let texts ← encodeFields rest
      .ok ((encodeString name ++ ':' :: text) :: texts)

end

/-- Writes a value for a serialized column. -/
def encode (v : Value) : Result String :=
  (encodeText v).map String.ofList

/-- Writes the fields of an entry as a document. -/
def encodeEntry (e : Entry) : Result String :=
  (encodeEntryText e).map String.ofList

/-! ### Reading -/

/-- How deep arrays and objects may nest in a column. -/
def maxDepth : Nat := 127

mutual

/-- The value of a document. -/
def value? : Document → Option Value
  | .null => some .null
  | .bool b => some (.bool b)
  | .number n => n.value?
  | .string parts => (Document.text? parts).map fun t => .string (String.ofList t)
  | .array items => (values? items).map .list
  | .object members => (fields? members).map fun fields => .record (Assoc.ofList fields)

/-- The values of the items of an array. -/
def values? : List Document → Option (List Value)
  | [] => some []
  | d :: rest => do
    let v ← value? d
    let vs ← values? rest
    some (v :: vs)

/-- The names and values of the members of an object. -/
def fields? : List (List StringPart × Document) → Option (List (String × Value))
  | [] => some []
  | (key, d) :: rest => do
    let name ← Document.text? key
    let v ← value? d
    let fields ← fields? rest
    some ((String.ofList name, v) :: fields)

end

/-- Reads the contents of a serialized column. -/
def decode (text : String) : Result Value :=
  let value := do
    let d ← Document.read? text.toList
    if d.depth ≤ maxDepth then value? d else none
  match value with
  | some v => .ok v
  | none => Error.throw (.deserialization .malformed)

/-- Reads a serialized column as a driver returns it. -/
def decodeColumn (raw : Value) : Result Value :=
  if raw.isEmpty then .ok .null
  else
    match raw with
    | .string text => decode text
    | .record _ | .list _ => .ok raw
    | other => Error.throw (.deserialization (.notText other.kind))

end RecordMapper.Blob
