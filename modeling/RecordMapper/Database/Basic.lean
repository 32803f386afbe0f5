import RecordMapper.Materialize.Basic
import RecordMapper.Query.Parser
import RecordMapper.Query.Select

/-!
Databases: queries and statements over a driver.

A `Driver` runs statements and transactions on a state of its own, and each of its calls may fail.
A `Database` puts a schema and a configuration to it, and an `Action` is a computation on a
database. A query is compiled before the driver sees it, and its rows are materialized.
-/

namespace RecordMapper

/-! ### Queries -/

/-- A query in the query language. Without a select list every field is selected. -/
structure Query where
  model : String
  fields : Option String := none
  filter : Option String := none
  /-- The values of the placeholders in every part of the query. -/
  bindings : Bindings := {}
  orderBy : List (String × Direction) := []
  limit : Option UInt64 := none
  offset : Option UInt64 := none

/-- Parses the texts of a query: the select list, then the filter, then the ordering. -/
def Query.parse (q : Query) : Result Select := do
  let fields ← match q.fields with
    | some t => Parser.fields t.toList (some q.bindings)
    | none => .ok []
  let filter ← match q.filter with
    | some t => (Parser.condition t.toList (some q.bindings)).map some
    | none => .ok none
  let orderBy ← q.orderBy.mapM fun (t, direction) =>
    (Parser.expression t.toList (some q.bindings)).map fun e => (⟨e, direction⟩ : OrderBy)
  .ok { model := q.model, fields, filter, orderBy, limit := q.limit, offset := q.offset }

/-! ### Drivers -/

/-- What executes statements: each call gives a result and changes the state. -/
structure Driver (σ : Type) where
  /-- Runs a select statement and gives its rows. -/
  query : Schema → Select → σ → Result (List Row) × σ
  /-- Runs any other statement and gives the number of affected rows. -/
  execute : String → σ → Result UInt64 × σ
  beginTransaction : σ → Result Unit × σ
  commit : σ → Result Unit × σ
  rollback : σ → Result Unit × σ

/-- A driver with a schema, a configuration and its state. -/
structure Database (σ : Type) where
  schema : Schema
  config : Config
  driver : Driver σ
  state : σ
  /-- A transaction is open. -/
  inTransaction : Bool := false

/-- A computation on a database, which may fail. -/
abbrev Action (σ : Type) := ExceptT Error (StateM (Database σ))

namespace Database

variable {σ : Type}

/-- Connects to a database, once its configuration and its schema are checked. -/
def connect (schema : Schema) (config : Config) (driver : Driver σ) (state : σ) :
    Result (Database σ) := do
  config.validate
  schema.verify
  .ok { schema, config, driver, state }

/-- A result that does not depend on the driver. -/
def ofResult {α : Type} (result : Result α) : Action σ α :=
  fun db => (result, db)

/-- A call of the driver. -/
def call {α : Type} (run : Driver σ → σ → Result α × σ) : Action σ α :=
  fun db =>
    let (result, state) := run db.driver db.state
    (result, { db with state })

/-! ### Queries -/

/-- Parses a query and checks that its model and the relations it refers to exist. -/
def compile (db : Database σ) (q : Query) : Result Select := do
  let m ← db.schema.model q.model
  let select ← q.parse
  select.relationAliases.forM fun a =>
    if a = db.config.selfAlias then .ok ()
    else (db.schema.relationTarget m a).map fun _ => ()
  .ok select

/-- Runs a query and gives the entries of its rows. -/
def all (q : Query) : Action σ Entries := do
  let db ← get
  let select ← ofResult (db.compile q)
  let rows ← call fun driver => driver.query db.schema select
  ofResult do
    let p ← Materializer.ofModel db.schema select.model
    (p.withConfig db.config).entries rows

/-- Runs a query and gives its first entry. -/
def first (q : Query) : Action σ (Option Entry) := do
  let entries ← all q
  return entries.first?

/-- Runs a query and loads its first entry. -/
def load {α : Type} (loader : Loader α) (q : Query) : Action σ α :=
  if q.model ≠ loader.model then
    ofResult (Error.throw
      (.adhoc ("cannot load `" ++ q.model ++ "` entries as `" ++ loader.model ++ "`")))
  else do
    match ← first q with
    | some e => ofResult (loader.load e)
    | none =>
      ofResult (Error.throw (.adhoc ("query for `" ++ q.model ++ "` returned no results")))

/-! ### Statements and transactions -/

/-- Runs a statement and gives the number of affected rows. -/
def execute (sql : String) : Action σ UInt64 :=
  call fun driver => driver.execute sql

/-- Opens or closes the transaction for the calls that follow. -/
def setInTransaction (b : Bool) : Action σ Unit :=
  modify fun db => { db with inTransaction := b }

/-- Ends a transaction by what its body gave: commits after a success, and rolls back after a
failure or if the commit fails. A failure of the rollback is not told. -/
def finish {α : Type} (outcome : Result α) : Action σ α := fun db =>
  let (outcome, db) : Result α × Database σ :=
    match outcome with
    | .ok a =>
      let (result, db) := call (fun driver => driver.commit) db
      (result.map fun _ => a, { db with inTransaction := false })
    | .error e => (.error e, { db with inTransaction := false })
  match outcome with
  | .ok a => (.ok a, db)
  | .error e =>
    let (_, db) := call (fun driver => driver.rollback) db
    (.error e, db)

/-- Runs an action in a transaction. Inside an open transaction the action joins that one. -/
def transaction {α : Type} (body : Action σ α) : Action σ α := fun db =>
  if db.inTransaction then body db
  else
    match call (fun driver => driver.beginTransaction) db with
    | (.error e, db) => (.error e, db)
    | (.ok _, db) =>
      let (outcome, db) := body { db with inTransaction := true }
      finish outcome db

/-- Runs statements in order, up to the first that fails, and adds up the affected rows to those
counted before. -/
def executeAll : (affected : UInt64) → List String → Action σ UInt64
  | affected, [] => return affected
  | affected, sql :: rest => do
    let n ← execute sql
    executeAll (affected + n) rest

/-- Runs statements in one transaction and gives the number of affected rows. -/
def executeBatch (statements : List String) : Action σ UInt64 :=
  transaction (executeAll 0 statements)

end Database

end RecordMapper
