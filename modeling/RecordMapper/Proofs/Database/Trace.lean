import RecordMapper.Database.Basic

/-!
What a driver sees of a program.

A `Program` is made of the calls that a database offers: statements, queries, batches and
transaction blocks. Each call hands its result to the rest of the program, which may pass an error
on, swallow it, or go on in any other way. `Program.run` runs a program on a database whose driver
keeps a log (`Driver.traced`), and notes the transaction flag wherever the program is in control:
before each of its calls and at its end. So the log holds the calls of the driver in their order,
each with whether it succeeded, and between them what the program sees of the flag.
-/

namespace RecordMapper

/-! ### Logs -/

/-- A call of a driver. -/
inductive DriverCall where
  | query (select : Select)
  | execute (sql : String)
  | beginTransaction
  | commit
  | rollback

/-- An entry of a log. -/
inductive Event where
  /-- A call of the driver, and whether it succeeded. -/
  | call (c : DriverCall) (succeeded : Bool)
  /-- The transaction flag, where a program is in control. -/
  | flag (inTransaction : Bool)

/-- A log, its latest entry last. -/
abbrev Log := List Event

/-- A call of the driver, with a note of it in the log. -/
def Driver.noting {σ α : Type} (c : DriverCall) (run : σ → Result α × σ) :
    σ × Log → Result α × (σ × Log) :=
  fun s =>
    let (result, state) := run s.1
    (result, (state, s.2 ++ [.call c result.isOk]))

/-- The driver, with a log of its calls beside its state. -/
def Driver.traced {σ : Type} (d : Driver σ) : Driver (σ × Log) where
  query schema select := noting (.query select) (d.query schema select)
  execute sql := noting (.execute sql) (d.execute sql)
  beginTransaction := noting .beginTransaction d.beginTransaction
  commit := noting .commit d.commit
  rollback := noting .rollback d.rollback

/-! ### Programs -/

/-- A program made of the calls of a database. The rest of a program depends on the result of the
call before it, failures included. -/
inductive Program : Type → Type 1 where
  | done {α : Type} (result : Result α) : Program α
  | execute {α : Type} (sql : String) (next : Result UInt64 → Program α) : Program α
  | all {α : Type} (q : Query) (next : Result Entries → Program α) : Program α
  | executeBatch {α : Type} (statements : List String) (next : Result UInt64 → Program α) :
      Program α
  | transaction {α β : Type} (body : Program β) (next : Result β → Program α) : Program α

variable {σ : Type}

/-- The database, with its transaction flag noted in the log. -/
def Database.noteFlag (db : Database (σ × Log)) : Database (σ × Log) :=
  { db with state := (db.state.1, db.state.2 ++ [.flag db.inTransaction]) }

/-- Runs a program. -/
def Program.run : {α : Type} → Program α → Action (σ × Log) α
  | _, .done result => fun db => (result, db.noteFlag)
  | _, .execute sql next => fun db =>
    let (result, db) := Database.execute sql db.noteFlag
    (next result).run db
  | _, .all q next => fun db =>
    let (result, db) := Database.all q db.noteFlag
    (next result).run db
  | _, .executeBatch statements next => fun db =>
    let (result, db) := Database.executeBatch statements db.noteFlag
    (next result).run db
  | _, .transaction body next => fun db =>
    let (result, db) := Database.transaction body.run db.noteFlag
    (next result).run db

/-! ### Actions in sequence -/

namespace Database

/-- The second of two actions runs if the first one succeeds. -/
theorem bind_apply {σ α β : Type} (a : Action σ α) (f : α → Action σ β) (db : Database σ) :
    (a >>= f) db = match a db with
      | (.ok x, db') => f x db'
      | (.error e, db') => (.error e, db') := by
  have continued : (a >>= f) db = ExceptT.bindCont f (a db).1 (a db).2 := rfl
  rw [continued]
  cases a db with
  | mk result db' =>
    cases result with
    | ok x => rfl
    | error e => rfl

theorem get_apply (db : Database σ) : (get : Action σ (Database σ)) db = (.ok db, db) := rfl

end Database

/-! ### What a step adds to the log -/

/-- From one database to another the driver stayed the same and the entries `t` were added to the
log; at the end the transaction flag is `flag`. -/
structure Database.Appends (db db' : Database (σ × Log)) (flag : Bool) (t : Log) : Prop where
  driver : db'.driver = db.driver
  flag : db'.inTransaction = flag
  log : db'.state.2 = db.state.2 ++ t

namespace Database

variable {α : Type} {db db' db'' : Database (σ × Log)} {flag flag' : Bool} {t t' : Log}

theorem Appends.refl (hflag : db.inTransaction = flag) : db.Appends db flag [] :=
  ⟨rfl, hflag, (List.append_nil _).symm⟩

theorem Appends.trans (first : db.Appends db' flag t) (second : db'.Appends db'' flag' t') :
    db.Appends db'' flag' (t ++ t') := by
  refine ⟨second.driver.trans first.driver, second.flag, ?_⟩
  rw [second.log, first.log, List.append_assoc]

/-- Setting the flag adds nothing to the log. -/
theorem Appends.setFlag (appends : db.Appends db' flag t) (flag' : Bool) :
    db.Appends { db' with inTransaction := flag' } flag' t :=
  ⟨appends.driver, rfl, appends.log⟩

theorem appends_noteFlag (hflag : db.inTransaction = flag) :
    db.Appends db.noteFlag flag [.flag flag] := by
  subst hflag
  exact ⟨rfl, rfl, rfl⟩

/-- A call of a driver that keeps a log adds that call, and leaves the flag as it is. -/
theorem appends_call {run : Driver (σ × Log) → σ × Log → Result α × (σ × Log)} {c : DriverCall}
    (untraced : σ → Result α × σ) (noted : run db.driver = Driver.noting c untraced)
    (hflag : db.inTransaction = flag) :
    db.Appends (call run db).2 flag [.call c (call run db).1.isOk] := by
  unfold call
  rw [noted]
  exact ⟨rfl, hflag, rfl⟩

theorem appends_execute {d : Driver σ} (traced : db.driver = d.traced)
    (hflag : db.inTransaction = flag) (sql : String) :
    db.Appends (execute sql db).2 flag [.call (.execute sql) (execute sql db).1.isOk] := by
  refine appends_call (d.execute sql) ?_ hflag
  rw [traced]
  rfl

/-- A query that cannot be compiled gives the error and leaves the database as it is. -/
theorem all_of_refused {db : Database σ} {q : Query} {e : Error}
    (refused : db.compile q = .error e) : all q db = (.error e, db) := by
  unfold all
  rw [bind_apply, get_apply]
  simp only [bind_apply, ofResult, refused]

/-- A query reaches the driver at most once: not at all if it cannot be compiled. -/
theorem appends_all {d : Driver σ} (traced : db.driver = d.traced)
    (hflag : db.inTransaction = flag) (q : Query) :
    db.Appends (all q db).2 flag [] ∨
      ∃ select succeeded, db.Appends (all q db).2 flag [.call (.query select) succeeded] := by
  cases compiled : db.compile q with
  | error e =>
    rw [all_of_refused compiled]
    exact .inl (.refl hflag)
  | ok select =>
    have queried : (all q db).2 = (call (fun driver => driver.query db.schema select) db).2 := by
      unfold all
      rw [bind_apply, get_apply]
      simp only [bind_apply, ofResult, compiled]
      split
      · rename_i ran
        rw [ran]
      · rename_i ran
        rw [ran]
    rw [queried]
    refine .inr ⟨select, _, appends_call (d.query db.schema select) ?_ hflag⟩
    rw [traced]
    rfl

end Database

end RecordMapper
