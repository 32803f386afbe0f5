import RecordMapper.Blob
import RecordMapper.Config
import RecordMapper.Materialize.Entries
import RecordMapper.Schema

/-!
Materialization: entries from the flat rows of a result.

A column without the alias separator belongs to the entry of its row, and so does a column of the
self alias, except for its locale field. Any other column `alias:name` belongs to the relation field
`alias`: the columns of an alias, without it, are a row of the target model, from which a nested
entry is made in the same way. That row is joined if it has a column for the primary key and a value
that is not empty; otherwise the relation is null, or an empty list if it has many targets.
-/

namespace RecordMapper

namespace Column

/-- Splits a column name at the first separator, into what stands before and behind it. -/
def splitFrom? (separator : Text) : Text → Option (Text × Text)
  | [] => if separator.isEmpty then some ([], []) else none
  | c :: t =>
    match Text.after? false separator (c :: t) with
    | some rest => some ([], rest)
    | none => (splitFrom? separator t).map fun (front, rest) => (c :: front, rest)

/-- Splits a column name into an alias and the rest. -/
def split? (separator name : String) : Option (String × String) :=
  (splitFrom? separator.toList name.toList).map fun (front, rest) =>
    (String.ofList front, String.ofList rest)

/-- Where the value of a column goes. -/
inductive Slot where
  /-- To a field of the entry. -/
  | own (name : String)
  /-- Nowhere. -/
  | dropped
  /-- To a relation, as a column of the target. -/
  | joined (relation column : String)
  deriving DecidableEq, Repr

/-- Where the value of a column of this name goes. -/
def slot (config : Config) (name : String) : Slot :=
  match split? config.aliasSeparator name with
  | none => .own name
  | some (a, rest) =>
    if a = config.selfAlias then if rest = config.localeField then .dropped else .own rest
    else .joined a rest

end Column

namespace Row

/-- The fields of the entry itself. -/
def ownFields (config : Config) (row : Row) : Row :=
  Assoc.ofList (row.filterMap fun (name, v) =>
    match Column.slot config name with
    | .own field => some (field, v)
    | _ => none)

/-- Adds a value to the row of a relation. -/
def addJoined (groups : List (String × Row)) (a rest : String) (v : Value) :
    List (String × Row) :=
  Assoc.insert a (Assoc.insert rest v ((Assoc.get? a groups).getD [])) groups

/-- The rows of the relations, in the order in which their aliases first occur. -/
def groups (config : Config) (row : Row) : List (String × Row) :=
  row.foldl (fun groups (name, v) =>
    match Column.slot config name with
    | .joined a rest => addJoined groups a rest v
    | _ => groups) []

/-- The length of the longest column name. -/
def longestName (row : Row) : Nat :=
  row.foldl (fun n (name, _) => max n name.length) 0

/-- The row stands for a target that exists: it has a primary key column and a value that is not
empty. -/
def isJoined (target : Model) (row : Row) : Bool :=
  Assoc.contains target.primaryKey row && row.any fun (_, v) => !v.isEmpty

end Row

namespace Materialize

/-- Decodes the serialized fields of a row. -/
def decodeFields (m : Model) (fields : Row) : Result Row :=
  fields.mapM fun (name, v) =>
    if m.isSerialized name then
      (Error.within (.adhoc ("decoding `" ++ m.name ++ "::" ++ name ++ "`"))
        (Blob.decodeColumn v)).map fun v => (name, v)
    else .ok (name, v)

/-- The value of a relation field from the row of its columns, where `nested` makes an entry of the
target. -/
def relation (schema : Schema) (nested : Model → Row → Result Entry) (m : Model) (a : String)
    (group : Row) : Result Value := do
  let target ← schema.relationTarget m a
  let field ← m.field a
  if Row.isJoined target group then
    let e ← nested target group
    .ok (if field.type.isMany then .list [.entry e] else .entry e)
  else .ok (if field.type.isMany then .list [] else .null)

/-- Puts the values of the relations to the other fields. -/
def addRelations (schema : Schema) (nested : Model → Row → Result Entry) (m : Model)
    (fields : Row) (groups : List (String × Row)) : Result Row :=
  groups.foldlM (fun fields (a, group) =>
    (relation schema nested m a group).map fun v => Assoc.insert a v fields) fields

/-- Makes an entry of a row whose aliases nest less than `depth` deep. Where an empty separator
takes nothing off the column names, the nesting has no end, and at the last level the alias is
refused like one that is not a field. -/
def entryWithin (schema : Schema) (config : Config) : (depth : Nat) → Model → Row → Result Entry
  | 0, m, _ => Error.throw (.schemaLookup (.field m.name ""))
  | depth + 1, m, row => do
    let fields ← decodeFields m (Row.ownFields config row)
    let fields ← addRelations schema (entryWithin schema config depth) m fields
      (Row.groups config row)
    .ok (Entry.load m.name fields)

/-- Makes an entry of a row. Each alias that is taken off makes the longest column name shorter. -/
def entry (schema : Schema) (config : Config) (m : Model) (row : Row) : Result Entry :=
  entryWithin schema config (Row.longestName row + 1) m row

end Materialize

/-! ### Whole results -/

/-- How the rows of a result become entries. -/
structure Materializer where
  schema : Schema
  model : Model
  config : Config
  /-- The field whose value is the key of an entry; without one, keys are positions. -/
  indexBy : Option String

namespace Materializer

/-- Entries of a model keyed by its primary key, with the default configuration. -/
def ofModel (schema : Schema) (name : String) : Result Materializer :=
  (schema.model name).map fun m => ⟨schema, m, {}, some m.primaryKey⟩

/-- Uses a configuration, which may ask for positions as keys. -/
def withConfig (p : Materializer) (config : Config) : Materializer :=
  { p with config := config, indexBy := if config.indexByPrimaryKey then p.indexBy else none }

/-- Keys entries by the value of a field. -/
def keyedBy (p : Materializer) (field : String) : Materializer :=
  { p with indexBy := some field }

/-- Keys entries by position. -/
def positional (p : Materializer) : Materializer :=
  { p with indexBy := none }

/-- The key of a row: the value of the index column, which may stand under the self alias. -/
def key? (p : Materializer) (row : Row) : Option Key :=
  p.indexBy.bind fun field =>
    let value := (Assoc.get? field row).or
      (Assoc.get? (p.config.selfAlias ++ p.config.aliasSeparator ++ field) row)
    value.bind Key.ofValue?

/-- Makes an entry of one row. -/
def entry (p : Materializer) (row : Row) : Result Entry :=
  Materialize.entry p.schema p.config p.model row

/-- Adds rows to entries; `count` rows came before. -/
def addRows (p : Materializer) : (count : Nat) → Entries → List Row → Result Entries
  | _, entries, [] => .ok entries
  | count, entries, row :: rest => do
    let e ← Error.within
      (.adhoc ("materializing row " ++ toString count ++ " of `" ++ p.model.name ++ "`"))
      (p.entry row)
    addRows p (count + 1) (entries.insert (p.key? row) e) rest

/-- Makes entries of all rows and merges those with one key. The first row that fails ends it. -/
def entries (p : Materializer) (rows : List Row) : Result Entries :=
  addRows p 0 {} rows

end Materializer

end RecordMapper
