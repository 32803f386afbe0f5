import RecordMapper.Entry
import RecordMapper.Error
import RecordMapper.Number.Reading

/-!
Typed loading of values.

A `LoadType` names a type that a value can be loaded as; optional and list types nest. `load`
converts a value: text is read as a number, an integer widens to a floating-point number, null is
the absent value of an optional type and the empty list of a list type. `ofCarrier` goes the other
way and turns data of the type into a value.
-/

namespace RecordMapper

/-- A type that values are loaded as. -/
inductive LoadType where
  | bool
  | int
  | float
  | string
  | entry
  | value
  | option (t : LoadType)
  | list (t : LoadType)
  deriving DecidableEq, Repr

namespace LoadType

/-- The data of a type. -/
def Carrier : LoadType → Type
  | .bool => Bool
  | .int => Int64
  | .float => Float
  | .string => String
  | .entry => Entry
  | .value => Value
  | .option t => Option t.Carrier
  | .list t => List t.Carrier

/-- A field that is not loaded can still be loaded as a type of this kind. -/
def nullable : LoadType → Bool
  | .option _ => true
  | _ => false

/-- The error of a value that cannot be converted. -/
def mismatch {α : Type} (v : Value) (target : String) : Result α :=
  Error.throw (.typeConversion v.kind target)

/-- A truth value, or an integer for whether it is not zero. -/
def loadBool : Value → Result Bool
  | .bool b => .ok b
  | .int n => .ok (n != 0)
  | v => mismatch v "bool"

/-- An integer, or the text of one. -/
def loadInt : Value → Result Int64
  | .int n => .ok n
  | .string s =>
    match Integer.read? (Text.trim s.toList) with
    | some n => .ok n
    | none => mismatch (.string s) "i64"
  | v => mismatch v "i64"

/-- A floating-point number, an integer, or the text of a number. -/
def loadFloat : Value → Result Float
  | .float x => .ok x
  | .int n => .ok (Float.ofInt n.toInt)
  | .string s =>
    match Reading.float? (Text.trim s.toList) with
    | some x => .ok x
    | none => mismatch (.string s) "f64"
  | v => mismatch v "f64"

/-- A text. -/
def loadString : Value → Result String
  | .string s => .ok s
  | v => mismatch v "String"

/-- An entry. -/
def loadEntry : Value → Result Entry
  | .entry e => .ok e
  | v => mismatch v "Entry"

/-- Loads a value as data of a type. -/
def load : (t : LoadType) → Value → Result t.Carrier
  | .bool => loadBool
  | .int => loadInt
  | .float => loadFloat
  | .string => loadString
  | .entry => loadEntry
  | .value => fun v => .ok v
  | .option t => fun v => if v.isNull then .ok none else (t.load v).map some
  | .list t => fun v =>
    match v with
    | .list items => items.mapM t.load
    | .null => .ok []
    | v => mismatch v "Vec"

/-- The value that data of a type is kept as. -/
def ofCarrier : (t : LoadType) → t.Carrier → Value
  | .bool => .bool
  | .int => .int
  | .float => .float
  | .string => .string
  | .entry => .entry
  | .value => fun v => v
  | .option t => fun x =>
    match x with
    | some x => t.ofCarrier x
    | none => .null
  | .list t => fun xs => .list (xs.map t.ofCarrier)

end LoadType

/-- Loads a field of an entry. A field that is not loaded is an error unless the type is optional,
where it is absent. -/
def Entry.getAs (e : Entry) (t : LoadType) (name : String) : Result t.Carrier :=
  match e.get? name with
  | some v => t.load v
  | none =>
    if t.nullable then t.load .null else Error.throw (.schemaLookup (.field e.model name))

/-- How entries of a model become typed data. -/
structure Loader (α : Type) where
  model : String
  load : Entry → Result α

/-- The same data, as an optional value that is always present. -/
def Loader.optional {α : Type} (loader : Loader α) : Loader (Option α) where
  model := loader.model
  load e := (loader.load e).map some

end RecordMapper
