import RecordMapper.Proofs.Database.Bracketing
import RecordMapper.Proofs.Database.Outcome

/-!
What a batch sends and what it counts.

The reference is a driver that is asked to execute all statements of the batch, one after another and
whatever it answers (`Driver.answers`). A batch sends them up to and including the first failing one
(`Driver.sent`), and its statements add up to the number of affected rows or to the error of that
statement (`Counts`). Outside an open transaction the outcome decides with the commit how the
transaction ends (`Ends`); inside one there is nothing around the statements.

A log beside the state of the driver has no part in what happens (`Database.executeBatch_logged`), so
what the log of a run holds was sent on every run.
-/

namespace RecordMapper

variable {σ α : Type}

/-! ### Statements that are sent -/

namespace Driver

/-- What the driver answers to statements that are all sent to it one after another. -/
def answers (d : Driver σ) : σ → List String → List (Result UInt64)
  | _, [] => []
  | s, sql :: rest => (d.execute sql s).1 :: d.answers (d.execute sql s).2 rest

/-- The calls for the statements up to and including the first that fails, and for all of them if
none does. -/
def sent (d : Driver σ) (s : σ) (statements : List String) : Log :=
  let answers := d.answers s statements
  (statements.zipWith (fun sql answer => .call (.execute sql) answer.isOk) answers).take
    (answers.findIdx (fun answer => !answer.isOk) + 1)

theorem sent_cons (d : Driver σ) (s : σ) (sql : String) (rest : List String) :
    d.sent s (sql :: rest) =
      .call (.execute sql) (d.execute sql s).1.isOk ::
        if (d.execute sql s).1.isOk then d.sent (d.execute sql s).2 rest else [] := by
  simp only [sent, answers, List.zipWith_cons_cons, List.take_succ_cons, List.findIdx_cons]
  cases (d.execute sql s).1 with
  | error e => rfl
  | ok n => rfl

end Driver

/-- The sum of the affected rows, with those counted before. -/
def rowsOf (affected : UInt64) (counts : List UInt64) : Nat :=
  counts.foldl (fun rows n => rows + n.toNat) affected.toNat

/-- While the sum is a 64-bit number, so is what was counted up to a statement. -/
theorem rowsOf_cons {affected n : UInt64} {counts : List UInt64}
    (fits : rowsOf affected (n :: counts) < UInt64.size) :
    rowsOf affected (n :: counts) = rowsOf (affected + n) counts := by
  have grows : ∀ (counts : List UInt64) (rows : Nat),
      rows ≤ counts.foldl (fun rows n => rows + n.toNat) rows := by
    intro counts
    induction counts with
    | nil => exact fun rows => Nat.le_refl rows
    | cons n rest ih => exact fun rows => Nat.le_trans (Nat.le_add_right ..) (ih _)
  have small : affected.toNat + n.toNat < UInt64.size := Nat.lt_of_le_of_lt (grows counts _) fits
  have added : (affected + n).toNat = affected.toNat + n.toNat := by
    rw [UInt64.toNat_add]
    exact Nat.mod_eq_of_lt small
  rw [rowsOf, rowsOf, List.foldl_cons, added]

/-- What the answers to all statements come to, with the affected rows counted before. -/
inductive Counts (affected : UInt64) (answers : List (Result UInt64)) : Result UInt64 → Prop where
  /-- The sum of the affected rows, if it is a 64-bit number. -/
  | all (counts : List UInt64) (total : UInt64) (succeeded : answers = counts.map .ok)
      (sum : rowsOf affected counts < UInt64.size → total.toNat = rowsOf affected counts) :
      Counts affected answers (.ok total)
  /-- The first failure. -/
  | failed (counts : List UInt64) (e : Error) (rest : List (Result UInt64))
      (first : answers = counts.map .ok ++ .error e :: rest) : Counts affected answers (.error e)

/-- An answer in front that counts `n` rows. -/
theorem Counts.cons {affected n : UInt64} {answers : List (Result UInt64)} {outcome : Result UInt64}
    (counts : Counts (affected + n) answers outcome) :
    Counts affected (.ok n :: answers) outcome := by
  cases counts with
  | all counts total succeeded sum =>
    refine .all (n :: counts) total (by rw [succeeded, List.map_cons]) fun fits => ?_
    have rows := rowsOf_cons fits
    rw [rows] at fits ⊢
    exact sum fits
  | failed counts e rest first =>
    exact .failed (n :: counts) e rest (by rw [first, List.map_cons, List.cons_append])

/-- How a transaction ends whose body gave this outcome, where a commit behind the body gives this
result; and what is told of it. -/
inductive Ends : (outcome : Result α) → (commit : Result Unit) → Ending → Result α → Prop where
  | committed (a : α) : Ends (.ok a) (.ok ()) .committed (.ok a)
  | commitFailed (a : α) (e : Error) (undone : Bool) :
      Ends (.ok a) (.error e) (.commitFailed undone) (.error e)
  | rolledBack (e : Error) (commit : Result Unit) (undone : Bool) :
      Ends (.error e) commit (.rolledBack undone) (.error e)

/-! ### Runs with a log -/

namespace Database

/-- The database with a log beside the state of its driver. -/
def logged (db : Database σ) (log : Log) : Database (σ × Log) where
  schema := db.schema
  config := db.config
  driver := db.driver.traced
  state := (db.state, log)
  inTransaction := db.inTransaction

theorem execute_apply (sql : String) (db : Database σ) :
    execute sql db =
      ((db.driver.execute sql db.state).1,
        { db with state := (db.driver.execute sql db.state).2 }) :=
  rfl

theorem execute_logged (sql : String) (db : Database σ) (log : Log) :
    execute sql (db.logged log) =
      ((execute sql db).1,
        (execute sql db).2.logged (log ++ [.call (.execute sql) (execute sql db).1.isOk])) :=
  rfl

/-- The statements of a batch, on a database with a log. -/
theorem executeAll_logged (affected : UInt64) (statements : List String) (db : Database σ)
    (log : Log) :
    executeAll affected statements (db.logged log) =
      ((executeAll affected statements db).1,
        (executeAll affected statements db).2.logged
          (log ++ db.driver.sent db.state statements)) := by
  induction statements generalizing affected db log with
  | nil =>
    rw [show db.driver.sent db.state [] = [] from rfl, List.append_nil]
    rfl
  | cons sql rest ih =>
    rw [executeAll, executeAll, bind_apply, bind_apply, execute_logged, execute_apply,
      Driver.sent_cons]
    cases (db.driver.execute sql db.state).1 with
    | error e => rfl
    | ok n =>
      have next := ih (affected + n) { db with state := (db.driver.execute sql db.state).2 }
        (log ++ [.call (.execute sql) true])
      rw [List.append_assoc] at next
      exact next

/-- The statements of a batch come to what the answers to all of them come to. -/
theorem counts_executeAll (affected : UInt64) (statements : List String) (db : Database σ) :
    Counts affected (db.driver.answers db.state statements)
      (executeAll affected statements db).1 := by
  induction statements generalizing affected db with
  | nil => exact .all [] affected rfl fun _ => rfl
  | cons sql rest ih =>
    rw [executeAll, bind_apply, execute_apply, Driver.answers]
    cases (db.driver.execute sql db.state).1 with
    | error e => exact .failed [] e _ rfl
    | ok n => exact (ih (affected + n) { db with state := (db.driver.execute sql db.state).2 }).cons

/-- The end of a transaction behind its body, on a database with a log. -/
theorem finish_logged (outcome : Result α) (db : Database σ) (body : Log) :
    ∃ ending, Ends outcome (call (fun driver => driver.commit) db).1 ending (finish outcome db).1 ∧
      finish outcome (db.logged (.call .beginTransaction true :: body)) =
        ((finish outcome db).1, (finish outcome db).2.logged (ending.log body)) := by
  cases outcome with
  | error e =>
    exact ⟨.rolledBack (db.driver.rollback db.state).1.isOk, .rolledBack .., rfl⟩
  | ok a =>
    have commit_logged : ∀ log, call (fun driver => driver.commit) (db.logged log) =
        ((call (fun driver => driver.commit) db).1, (call (fun driver => driver.commit) db).2.logged
          (log ++ [.call .commit (call (fun driver => driver.commit) db).1.isOk])) := fun _ => rfl
    unfold finish
    simp only [commit_logged]
    cases call (fun driver => driver.commit) db with
    | mk result db' =>
      cases result with
      | ok _ => exact ⟨.committed, .committed a, rfl⟩
      | error e =>
        have notes : (Event.call .beginTransaction true :: body) ++ [.call .commit false]
            ++ [.call .rollback (db'.driver.rollback db'.state).1.isOk] =
              Ending.log body (.commitFailed (db'.driver.rollback db'.state).1.isOk) := by
          rw [List.append_assoc]
          rfl
        refine ⟨.commitFailed (db'.driver.rollback db'.state).1.isOk, .commitFailed .., ?_⟩
        rw [← notes]
        rfl

/-- A transaction around a body that leaves a log behind, on a database with a log. -/
theorem transaction_logged {body : Action σ α} {body' : Action (σ × Log) α} {db : Database σ}
    (sent : Database σ → Log) (closed : db.inTransaction = false) (begun : db.started.1 = .ok ())
    (same : ∀ db log, body' (db.logged log) = ((body db).1, (body db).2.logged (log ++ sent db))) :
    ∃ ending, Ends (db.ranBody body).1 (db.committed body).1 ending (transaction body db).1 ∧
      transaction body' (db.logged []) =
        ((transaction body db).1, (transaction body db).2.logged
          (ending.log (sent { db.started.2 with inTransaction := true }))) := by
  have begin_logged : call (fun driver => driver.beginTransaction) (db.logged []) =
      (db.started.1, db.started.2.logged [.call .beginTransaction db.started.1.isOk]) := rfl
  have isClosed : (db.logged []).inTransaction = false := closed
  unfold committed ranBody transaction
  rw [closed, isClosed, if_neg Bool.false_ne_true, if_neg Bool.false_ne_true, begin_logged]
  rw [show call (fun driver => driver.beginTransaction) db = db.started from rfl]
  cases started : db.started with
  | mk result db' =>
    rw [started] at begun
    cases begun
    obtain ⟨ending, ends, finished⟩ := finish_logged (body { db' with inTransaction := true }).1
      (body { db' with inTransaction := true }).2 (sent { db' with inTransaction := true })
    refine ⟨ending, ends, ?_⟩
    have ran : body' { db'.logged [.call .beginTransaction true] with inTransaction := true } = _ :=
      same { db' with inTransaction := true } [.call .beginTransaction true]
    simp only [Except.isOk, Except.toBool, ran]
    exact finished

theorem executeBatch_outside {db : Database σ} (statements : List String)
    (closed : db.inTransaction = false) (begun : db.started.1 = .ok ()) :
    ∃ ending, Ends (db.ranBody (executeAll 0 statements)).1
        (db.committed (executeAll 0 statements)).1 ending (executeBatch statements db).1 ∧
      executeBatch statements (db.logged []) =
        ((executeBatch statements db).1, (executeBatch statements db).2.logged
          (ending.log (db.driver.sent db.started.2.state statements))) :=
  transaction_logged (fun db => db.driver.sent db.state statements) closed begun
    (executeAll_logged 0 statements)

theorem executeBatch_inside (db : Database σ) (statements : List String)
    (isOpen : db.inTransaction = true) :
    executeBatch statements db = executeAll 0 statements db :=
  transaction_joined (executeAll 0 statements) isOpen

/-- The log has no part in the result of a batch. -/
theorem executeBatch_logged (db : Database σ) (statements : List String) :
    (executeBatch statements (db.logged [])).1 = (executeBatch statements db).1 := by
  cases flag : db.inTransaction with
  | true =>
    rw [executeBatch_inside db statements flag,
      executeBatch_inside (db.logged []) statements flag, executeAll_logged]
  | false =>
    cases begun : db.started.1 with
    | ok _ =>
      obtain ⟨ending, -, ran⟩ := executeBatch_outside statements flag begun
      rw [ran]
    | error e =>
      rw [executeBatch, executeBatch, transaction_result _ flag,
        transaction_result _ (show (db.logged []).inTransaction = false from flag),
        show (db.logged []).started.1 = db.started.1 from rfl, begun]
      rfl

/-- **A batch runs in order, stops at the first failure and counts what it did.** Whatever the driver
does, a batch outside an open transaction whose beginning succeeds sends its statements up to and
including the first that fails, each once and in order, then a commit if none failed, and otherwise a
rollback, as behind a commit that fails. It succeeds only if all statements and the commit do, with
the sum of the affected rows wherever that is a 64-bit number, and otherwise gives the error of the
statement or of the commit, unchanged. Inside an open transaction the same statements are all it
sends, and their outcome is its result. The log of the calls has no part in the result. -/
theorem executeBatch_runs (db : Database σ) (statements : List String) :
    (executeBatch statements (db.logged [])).1 = (executeBatch statements db).1 ∧
    (db.inTransaction = false → db.started.1 = .ok () →
      ∃ outcome ending, Counts 0 (db.driver.answers db.started.2.state statements) outcome ∧
        Ends outcome (db.committed (executeAll 0 statements)).1 ending
          (executeBatch statements db).1 ∧
        (executeBatch statements (db.logged [])).2.state.2 =
          ending.log (db.driver.sent db.started.2.state statements)) ∧
    (db.inTransaction = true →
      Counts 0 (db.driver.answers db.state statements) (executeBatch statements db).1 ∧
        (executeBatch statements (db.logged [])).2.state.2 =
          db.driver.sent db.state statements) := by
  refine ⟨executeBatch_logged db statements, fun closed begun => ?_, fun isOpen => ?_⟩
  · obtain ⟨ending, ends, ran⟩ := executeBatch_outside statements closed begun
    refine ⟨(db.ranBody (executeAll 0 statements)).1, ending, ?_, ends, ?_⟩
    · exact counts_executeAll 0 statements { db.started.2 with inTransaction := true }
    · exact congrArg (fun result => result.2.state.2) ran
  · rw [executeBatch_inside db statements isOpen,
      executeBatch_inside (db.logged []) statements isOpen, executeAll_logged]
    exact ⟨counts_executeAll 0 statements db, rfl⟩

/-- A driver that runs no other statement than one that reaches two rows. -/
def updatesOnly : Database Unit where
  schema := {}
  config := {}
  driver := {
    query := fun _ _ s => (.ok [], s)
    execute := fun sql s =>
      (if sql = "UPDATE" then .ok 2 else Error.throw (.driverFailed "execute" []), s)
    beginTransaction := fun s => (.ok (), s)
    commit := fun s => (.ok (), s)
    rollback := fun s => (.ok (), s) }
  state := ()

/-- The statement behind the failing one is not sent, neither in a transaction of its own nor in an
open one. -/
theorem executeBatch_runs_updatesOnly :
    (∃ ending : Ending,
      (executeBatch ["UPDATE", "DROP", "UPDATE"] (updatesOnly.logged [])).2.state.2 =
        ending.log [.call (.execute "UPDATE") true, .call (.execute "DROP") false]) ∧
    (executeBatch ["UPDATE", "DROP", "UPDATE"]
        (({ updatesOnly with inTransaction := true } : Database Unit).logged [])).2.state.2 =
      [.call (.execute "UPDATE") true, .call (.execute "DROP") false] := by
  constructor
  · obtain ⟨_, ending, -, -, log⟩ :=
      (executeBatch_runs updatesOnly ["UPDATE", "DROP", "UPDATE"]).2.1 rfl rfl
    exact ⟨ending, log⟩
  · exact ((executeBatch_runs { updatesOnly with inTransaction := true }
      ["UPDATE", "DROP", "UPDATE"]).2.2 rfl).2

end Database

end RecordMapper
