import RecordMapper.Document.Reading
import RecordMapper.Error

/-!
How result columns are named and entries are keyed.

A configuration is read from a document, either an object whose members are named settings or an
array of the settings in order; settings that are left out keep their defaults, and members of other
names are ignored. `Config.validate` asks for an alias separator and a self alias that does not
contain it.
-/

namespace RecordMapper

/-- The settings of materialization. -/
structure Config where
  /-- What separates the alias of a relation from the field in a column name. -/
  aliasSeparator : String := ":"
  /-- The alias whose columns belong to the root entry. -/
  selfAlias : String := "self"
  /-- The field of the self alias that is left out of the root entry. -/
  localeField : String := "locale"
  /-- Entries are keyed by the primary key rather than by their position. -/
  indexByPrimaryKey : Bool := true
  deriving DecidableEq, Repr

namespace Config

/-- The separator occurs in the text. -/
def occurs (separator : Text) : Text → Bool
  | [] => separator.isEmpty
  | c :: t => (Text.after? false separator (c :: t)).isSome || occurs separator t

/-- Checks that the separator and the self alias can be told apart. -/
def validate (c : Config) : Result Unit :=
  if c.aliasSeparator = "" then Error.throw (.invalidConfiguration .emptySeparator)
  else if c.selfAlias = "" then Error.throw (.invalidConfiguration .emptySelfAlias)
  else if occurs c.aliasSeparator.toList c.selfAlias.toList then
    Error.throw (.invalidConfiguration (.selfAliasHoldsSeparator c.selfAlias c.aliasSeparator))
  else .ok ()

/-! ### Reading -/

/-- The text of a document that is a string. -/
def string? : Document → Option String
  | .string parts => (Document.text? parts).map String.ofList
  | _ => none

/-- The truth value of a document that is one. -/
def bool? : Document → Option Bool
  | .bool b => some b
  | _ => none

/-- A setting: its name, and how a configuration takes its value from a document. -/
structure Setting where
  name : String
  read? : Document → Config → Option Config

/-- The settings in order. -/
def settings : List Setting :=
  [⟨"alias_separator", fun d c => (string? d).map fun s => { c with aliasSeparator := s }⟩,
    ⟨"self_alias", fun d c => (string? d).map fun s => { c with selfAlias := s }⟩,
    ⟨"locale_field", fun d c => (string? d).map fun s => { c with localeField := s }⟩,
    ⟨"index_by_primary_key", fun d c => (bool? d).map fun b => { c with indexByPrimaryKey := b }⟩]

/-- Reads the members of an object; `left` holds the settings that have not occurred yet. -/
def ofMembers? : (left : List Setting) → Config → List (List StringPart × Document) → Option Config
  | _, c, [] => some c
  | left, c, (key, d) :: rest => do
    let name ← (Document.text? key).map String.ofList
    match left.find? fun s => s.name == name with
    | some setting =>
      let c ← setting.read? d c
      ofMembers? (left.filter fun s => s.name != name) c rest
    | none => if settings.any fun s => s.name == name then none else ofMembers? left c rest

/-- Reads the items of an array, one for each setting from the first on. -/
def ofItems? : List Setting → Config → List Document → Option Config
  | _, c, [] => some c
  | [], _, _ :: _ => none
  | setting :: left, c, d :: rest => (setting.read? d c).bind fun c => ofItems? left c rest

/-- The configuration that a document describes. -/
def ofDocument? : Document → Option Config
  | .object members => ofMembers? settings {} members
  | .array items => ofItems? settings {} items
  | _ => none

/-- Reads a configuration and validates it. -/
def read (text : String) : Result Config :=
  match (Document.read? text.toList).bind ofDocument? with
  | none => Error.throw (.deserialization .malformed)
  | some c => c.validate.map fun _ => c

end Config

end RecordMapper
