import RecordMapper.Database.Basic

/-!
What a transaction reports.

A transaction on a database without an open one takes at most four steps: its beginning, its body,
the commit and the rollback. Only the first three are told to the caller, each by the database it
runs on: `Database.started`, `Database.ranBody` and `Database.committed`.

* `Database.transaction_result` gives the result of a transaction as that of the three steps one
  after another. The rollback, which stands behind a body or a commit that failed, changes the state
  of the driver and has no part in the result.
* `Database.transaction_reports` reads the result off: it is that of the body if all three steps
  succeed, and otherwise the error of the first step that fails. A transaction inside an open one is
  its body and nothing else.
-/

namespace RecordMapper

namespace Database

variable {σ α : Type}

/-! ### The steps of a transaction -/

/-- The beginning of a transaction. -/
def started (db : Database σ) : Result Unit × Database σ :=
  call (fun driver => driver.beginTransaction) db

/-- The body of a transaction, run behind the beginning. -/
def ranBody (body : Action σ α) (db : Database σ) : Result α × Database σ :=
  body { db.started.2 with inTransaction := true }

/-- The commit of a transaction, made behind the body. -/
def committed (body : Action σ α) (db : Database σ) : Result Unit × Database σ :=
  call (fun driver => driver.commit) (db.ranBody body).2

/-- Once the body gave its outcome, the result depends on the commit alone; whether a rollback
succeeds or fails is not told. -/
theorem finish_result (outcome : Result α) (db : Database σ) :
    (finish outcome db).1 =
      outcome >>= fun a => (call (fun driver => driver.commit) db).1.map fun _ => a := by
  cases outcome with
  | error e => rfl
  | ok a =>
    unfold finish
    cases ended : call (fun driver => driver.commit) db with
    | mk result db' =>
      cases result with
      | error e => rfl
      | ok _ => rfl

/-- A transaction of its own gives what its beginning, its body and its commit give one after
another. -/
theorem transaction_result (body : Action σ α) {db : Database σ}
    (closed : db.inTransaction = false) :
    (transaction body db).1 =
      db.started.1 >>= fun _ => (db.ranBody body).1 >>= fun a =>
        (db.committed body).1.map fun _ => a := by
  unfold transaction committed ranBody started
  rw [closed, if_neg Bool.false_ne_true]
  cases begun : call (fun driver => driver.beginTransaction) db with
  | mk result db' =>
    cases result with
    | error e => rfl
    | ok _ => exact finish_result _ _

/-! ### Success and failure -/

theorem transaction_eq_ok_iff (body : Action σ α) {db : Database σ}
    (closed : db.inTransaction = false) (a : α) :
    (transaction body db).1 = .ok a ↔
      db.started.1 = .ok () ∧ (db.ranBody body).1 = .ok a ∧ (db.committed body).1 = .ok () := by
  rw [transaction_result body closed, Result.bind_eq_ok_iff]
  constructor
  · rintro ⟨_, begun, more⟩
    obtain ⟨a', gave, ended⟩ := Result.exists_of_bind more
    obtain ⟨_, made, rfl⟩ := Result.exists_of_map ended
    exact ⟨begun, gave, made⟩
  · rintro ⟨begun, gave, ended⟩
    refine ⟨(), begun, Result.bind_eq_ok_iff.2 ⟨a, gave, ?_⟩⟩
    rw [ended]
    rfl

theorem transaction_eq_error_iff (body : Action σ α) {db : Database σ}
    (closed : db.inTransaction = false) (e : Error) :
    (transaction body db).1 = .error e ↔
      db.started.1 = .error e ∨
      db.started.1 = .ok () ∧ (db.ranBody body).1 = .error e ∨
      db.started.1 = .ok () ∧ (∃ a, (db.ranBody body).1 = .ok a) ∧
        (db.committed body).1 = .error e := by
  rw [transaction_result body closed, Result.bind_eq_error_iff]
  simp only [Result.bind_eq_error_iff, Result.map_eq_error_iff]
  constructor
  · rintro (refused | ⟨_, begun, failed | ⟨a, gave, refused⟩⟩)
    · exact .inl refused
    · exact .inr (.inl ⟨begun, failed⟩)
    · exact .inr (.inr ⟨begun, ⟨a, gave⟩, refused⟩)
  · rintro (refused | ⟨begun, failed⟩ | ⟨begun, ⟨a, gave⟩, refused⟩)
    · exact .inl refused
    · exact .inr ⟨(), begun, .inl failed⟩
    · exact .inr ⟨(), begun, .inr ⟨a, gave, refused⟩⟩

/-- **A transaction reports its first failure and nothing else.** On a database without an open
transaction, whatever the driver and the body do, a transaction succeeds with the result of its body
exactly when the beginning, the body and the commit succeed, and otherwise gives the error of the
first of the three that fails, unchanged; of the rollback nothing is told. Inside an open transaction
it is its body: the result, the state of the driver and the flag are those the body leaves. -/
theorem transaction_reports (body : Action σ α) (db : Database σ) :
    (db.inTransaction = false →
      (∀ a, (transaction body db).1 = .ok a ↔
        db.started.1 = .ok () ∧ (db.ranBody body).1 = .ok a ∧ (db.committed body).1 = .ok ()) ∧
      (∀ e, (transaction body db).1 = .error e ↔
        db.started.1 = .error e ∨
        db.started.1 = .ok () ∧ (db.ranBody body).1 = .error e ∨
        db.started.1 = .ok () ∧ (∃ a, (db.ranBody body).1 = .ok a) ∧
          (db.committed body).1 = .error e)) ∧
    (db.inTransaction = true → transaction body db = body db) := by
  refine ⟨fun closed => ⟨?_, ?_⟩, ?_⟩
  · exact transaction_eq_ok_iff body closed
  · exact transaction_eq_error_iff body closed
  · intro isOpen
    unfold transaction
    rw [if_pos isOpen]

/-- A connection that is lost as soon as a transaction has begun: every later call fails. -/
def lostConnection : Database Unit where
  schema := {}
  config := {}
  driver := {
    query := fun _ _ s => (Error.throw (.driverFailed "query" []), s)
    execute := fun _ s => (Error.throw (.driverFailed "execute" []), s)
    beginTransaction := fun s => (.ok (), s)
    commit := fun s => (Error.throw (.driverFailed "commit" []), s)
    rollback := fun s => (Error.throw (.driverFailed "rollback" []), s) }
  state := ()

/-- A commit fails and so does the rollback behind it: the error is that of the commit. The same
happens behind a body that fails, and a body that joins an open transaction fails on its own. -/
theorem transaction_reports_lost :
    (transaction (ofResult (.ok 5)) lostConnection).1 =
      (Error.throw (.driverFailed "commit" []) : Result Nat) ∧
    (transaction (execute "DELETE") lostConnection).1 =
      Error.throw (.driverFailed "execute" []) ∧
    transaction (execute "DELETE") { lostConnection with inTransaction := true } =
      execute "DELETE" { lostConnection with inTransaction := true } := by
  refine ⟨?_, ?_, ?_⟩
  · exact (((transaction_reports (ofResult (.ok 5)) lostConnection).1 rfl).2 _).2
      (.inr (.inr ⟨rfl, ⟨5, rfl⟩, rfl⟩))
  · exact (((transaction_reports (execute "DELETE") lostConnection).1 rfl).2 _).2
      (.inr (.inl ⟨rfl, rfl⟩))
  · exact (transaction_reports (execute "DELETE") { lostConnection with inTransaction := true }).2
      rfl

end Database

end RecordMapper
