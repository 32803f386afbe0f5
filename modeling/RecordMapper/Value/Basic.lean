import RecordMapper.Assoc

/-!
Values and entries.

A `Value` is what a column holds, what a placeholder stands for and what a field of an entry is. An
`Entry` is a record of a model: its loaded fields, and the names of those that were changed since.
The two are defined together, since the value of a relation field is an entry. Field lists hold one
value per name (see `RecordMapper.Assoc`).
-/

namespace RecordMapper

mutual

/-- A dynamically typed value. -/
inductive Value where
  | null
  | bool (b : Bool)
  | int (n : Int64)
  | float (x : Float)
  | string (s : String)
  | list (items : List Value)
  /-- A record of named values, as a decoded document holds them. -/
  | record (fields : List (String × Value))
  /-- A materialized entry, the value of a relation field. -/
  | entry (e : Entry)

/-- A record of a model. A field is loaded if it has a value, null included; `dirty` names the
fields set since the entry was loaded, in the order in which they were set. -/
structure Entry where
  model : String
  fields : List (String × Value)
  dirty : List String

end

instance : Inhabited Value := ⟨.null⟩
instance : Inhabited Entry := ⟨⟨"", [], []⟩⟩

/-- A row of a query result: the columns with their values. -/
abbrev Row := List (String × Value)

/-- The kind of a value, as error messages name it. -/
inductive ValueKind where
  | bool | entry | float | int | list | null | record | string
  deriving DecidableEq, Repr

/-- The name of a kind in messages. -/
def ValueKind.name : ValueKind → String
  | .bool => "Bool"
  | .entry => "Entry"
  | .float => "F64"
  | .int => "I64"
  | .list => "List"
  | .null => "Null"
  | .record => "Record"
  | .string => "String"

/-- The declared type of a field. -/
inductive DataType where
  | bool | entry | float | int | list | string
  /-- Structured data stored as an encoded document. -/
  | serialized
  /-- A type that is not known, as that of null. -/
  | unknown
  deriving DecidableEq, Repr

namespace Value

/-- The kind of a value. -/
def kind : Value → ValueKind
  | .null => .null
  | .bool _ => .bool
  | .int _ => .int
  | .float _ => .float
  | .string _ => .string
  | .list _ => .list
  | .record _ => .record
  | .entry _ => .entry

/-- The type of a value. -/
def type : Value → DataType
  | .null => .unknown
  | .bool _ => .bool
  | .int _ => .int
  | .float _ => .float
  | .string _ => .string
  | .list _ => .list
  | .record _ => .serialized
  | .entry _ => .entry

/-- The value is null. -/
def isNull : Value → Bool
  | .null => true
  | _ => false

/-- The value is empty in the loose sense: null, false, zero, the empty text, the text `0`, or a
list or record of nothing. A joined relation without a value that is not empty is absent. -/
def isEmpty : Value → Bool
  | .null => true
  | .bool b => !b
  | .int n => n == 0
  | .float x => x == 0.0
  | .string s => s == "" || s == "0"
  | .list items => items.isEmpty
  | .record fields => fields.isEmpty
  | .entry _ => false

/-! ### Views -/

/-- The text of a text value. -/
def string? : Value → Option String
  | .string s => some s
  | _ => none

/-- The number of an integer value. -/
def int? : Value → Option Int64
  | .int n => some n
  | _ => none

/-- The entry of a relation field. -/
def entry? : Value → Option Entry
  | .entry e => some e
  | _ => none

/-- The items of a list. -/
def list? : Value → Option (List Value)
  | .list items => some items
  | _ => none

/-- The fields of a record. -/
def record? : Value → Option (List (String × Value))
  | .record fields => some fields
  | _ => none

/-- Takes a value out of its place and leaves null there. -/
def take (v : Value) : Value × Value :=
  (v, .null)

end Value

/-! ### Equality

Values are compared as data: floating-point numbers as numbers, so that a value that is not a
number differs from itself, and field lists without regard to their order. -/

mutual

/-- Two values are equal. -/
def Value.equals : Value → Value → Bool
  | .null, .null => true
  | .bool a, .bool b => a == b
  | .int a, .int b => a == b
  | .float a, .float b => a == b
  | .string a, .string b => a == b
  | .list as, .list bs => equalItems as bs
  | .record as, .record bs => as.length == bs.length && equalFields as bs
  | .entry a, .entry b => Entry.equals a b
  | _, _ => false

/-- Two entries are equal: the same model, equal fields and the same changed fields. -/
def Entry.equals : Entry → Entry → Bool
  | ⟨model, fields, dirty⟩, other =>
    model == other.model
      && (fields.length == other.fields.length && equalFields fields other.fields)
      && (dirty.length == other.dirty.length && dirty.all fun name => other.dirty.contains name)

/-- Two lists have equal items in the same order. -/
def equalItems : List Value → List Value → Bool
  | [], [] => true
  | a :: as, b :: bs => a.equals b && equalItems as bs
  | _, _ => false

/-- Every field of the first list has an equal value in the second. -/
def equalFields : List (String × Value) → List (String × Value) → Bool
  | [], _ => true
  | (name, a) :: rest, bs =>
    (match Assoc.get? name bs with
      | some b => a.equals b
      | none => false)
    && equalFields rest bs

end

instance : BEq Value := ⟨Value.equals⟩
instance : BEq Entry := ⟨Entry.equals⟩

end RecordMapper
