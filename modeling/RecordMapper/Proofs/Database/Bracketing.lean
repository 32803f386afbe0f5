import Mathlib.Logic.ExistsUnique
import RecordMapper.Proofs.Database.Trace

/-!
Transactions are well bracketed on every run.

* `Bracket` says what a driver may see of one transaction: a failed beginning and nothing else, or a
  beginning, a body, and then a successful commit, a failed commit and a rollback, or a rollback.
  The body holds no call that begins or ends a transaction, and the flag is set all through it. How a
  transaction ended can be read off its log (`Bracket.ending_unique`).
* `Program.Bracketed` says what the log of a whole program looks like: one bracket for each
  transaction or batch that is not inside another one, no call that begins or ends a transaction
  anywhere else, and the flag not set outside the brackets.
* A program that runs inside an open transaction adds the log of a body (`Program.run_joined`), so a
  nested transaction leaves no trace of its own, and an outermost one adds a bracket
  (`Database.appends_transaction`). The statement about runs follows from the two.
-/

namespace RecordMapper

/-! ### Brackets -/

/-- An entry that the body of a transaction may hold: a statement, a query, or the flag as long as
it is set. -/
def Event.isInner : Event → Bool
  | .call (.query _) _ => true
  | .call (.execute _) _ => true
  | .call _ _ => false
  | .flag inTransaction => inTransaction

/-- The log of the body of a transaction. -/
def IsBody (t : Log) : Prop :=
  ∀ e ∈ t, e.isInner = true

theorem IsBody.append {t u : Log} (first : IsBody t) (second : IsBody u) : IsBody (t ++ u) := by
  intro e mem
  rcases List.mem_append.mp mem with mem | mem
  · exact first e mem
  · exact second e mem

/-- How a transaction ends. -/
inductive Ending where
  /-- It was not begun. -/
  | refused
  | committed
  /-- The commit failed; whether the rollback behind it succeeded is noted. -/
  | commitFailed (undone : Bool)
  /-- The body failed; whether the rollback behind it succeeded is noted. -/
  | rolledBack (undone : Bool)

/-- The log of a transaction with this body and this ending. -/
def Ending.log (body : Log) : Ending → Log
  | .refused => [.call .beginTransaction false]
  | .committed => .call .beginTransaction true :: (body ++ [.call .commit true])
  | .commitFailed undone =>
    .call .beginTransaction true :: (body ++ [.call .commit false, .call .rollback undone])
  | .rolledBack undone => .call .beginTransaction true :: (body ++ [.call .rollback undone])

/-- The log of one transaction. -/
def Bracket (ending : Ending) (t : Log) : Prop :=
  ∃ body, IsBody body ∧ t = ending.log body

/-- Without the entries of its body, a transaction leaves the calls that begin and end it. -/
theorem Ending.filter_log {body : Log} (inner : IsBody body) (ending : Ending) :
    (ending.log body).filter (fun e => !e.isInner) = ending.log [] := by
  have dropped : body.filter (fun e => !e.isInner) = [] := by
    rw [List.filter_eq_nil_iff]
    intro e mem
    simp [inner e mem]
  cases ending with
  | refused => rfl
  | committed => rw [log, List.filter_cons_of_pos rfl, List.filter_append, dropped]; rfl
  | commitFailed undone => rw [log, List.filter_cons_of_pos rfl, List.filter_append, dropped]; rfl
  | rolledBack undone => rw [log, List.filter_cons_of_pos rfl, List.filter_append, dropped]; rfl

/-- The endings exclude one another: a log is that of a transaction with one ending only. -/
theorem Bracket.ending_unique {ending ending' : Ending} {t : Log} (h : Bracket ending t)
    (h' : Bracket ending' t) : ending = ending' := by
  obtain ⟨body, inner, rfl⟩ := h
  obtain ⟨body', inner', same⟩ := h'
  have calls : ending.log [] = ending'.log [] := by
    rw [← ending.filter_log inner, same, ending'.filter_log inner']
  cases ending <;> cases ending' <;> simp_all [Ending.log]

theorem Bracket.existsUnique {ending : Ending} {t : Log} (h : Bracket ending t) :
    ∃! ending, Bracket ending t :=
  ⟨ending, h, fun _ other => other.ending_unique h⟩

/-! ### Logs of programs -/

/-- The log of a program on a database without an open transaction. Wherever the program is in
control the flag is not set, each of its transactions and batches is one bracket, and every other
call of the driver is a statement or a query. -/
inductive Program.Bracketed : {α : Type} → Program α → Log → Prop where
  | done {α : Type} {result : Result α} : Bracketed (.done result) [.flag false]
  | execute {α : Type} {sql : String} {next : Result UInt64 → Program α} {result : Result UInt64}
      {t : Log} (rest : Bracketed (next result) t) :
      Bracketed (.execute sql next) (.flag false :: .call (.execute sql) result.isOk :: t)
  | all {α : Type} {q : Query} {next : Result Entries → Program α} {result : Result Entries}
      {select : Select} {succeeded : Bool} {t : Log} (rest : Bracketed (next result) t) :
      Bracketed (.all q next) (.flag false :: .call (.query select) succeeded :: t)
  /-- A query that cannot be compiled does not reach the driver. -/
  | uncompiled {α : Type} {q : Query} {next : Result Entries → Program α} {result : Result Entries}
      {t : Log} (rest : Bracketed (next result) t) : Bracketed (.all q next) (.flag false :: t)
  | executeBatch {α : Type} {statements : List String} {next : Result UInt64 → Program α}
      {result : Result UInt64} {u t : Log} (bracket : ∃! ending, Bracket ending u)
      (rest : Bracketed (next result) t) :
      Bracketed (.executeBatch statements next) (.flag false :: (u ++ t))
  | transaction {α β : Type} {body : Program β} {next : Result β → Program α} {result : Result β}
      {u t : Log} (bracket : ∃! ending, Bracket ending u) (rest : Bracketed (next result) t) :
      Bracketed (.transaction body next) (.flag false :: (u ++ t))

/-! ### Inside an open transaction -/

section Runs

variable {σ α : Type} {d : Driver σ} {db : Database (σ × Log)}

/-- An action that, in an open transaction, leaves it open and adds the log of a body. -/
def Joins (d : Driver σ) (a : Action (σ × Log) α) : Prop :=
  ∀ db : Database (σ × Log), db.driver = d.traced → db.inTransaction = true →
    ∃ t, db.Appends (a db).2 true t ∧ IsBody t

namespace Database

/-- A transaction inside an open one is its body. -/
theorem transaction_joined {τ : Type} {db : Database τ} (body : Action τ α)
    (isOpen : db.inTransaction = true) : transaction body db = body db := by
  unfold transaction
  rw [if_pos isOpen]

theorem joins_execute (sql : String) : Joins d (execute sql) := by
  intro db traced isOpen
  refine ⟨_, appends_execute traced isOpen sql, fun e mem => ?_⟩
  rw [List.mem_singleton.mp mem]
  rfl

theorem joins_executeAll (affected : UInt64) (statements : List String) :
    Joins d (executeAll affected statements) := by
  induction statements generalizing affected with
  | nil =>
    intro db traced isOpen
    exact ⟨[], .refl isOpen, fun e mem => absurd mem List.not_mem_nil⟩
  | cons sql rest ih =>
    intro db traced isOpen
    obtain ⟨t, ran, inner⟩ := joins_execute (d := d) sql db traced isOpen
    rw [executeAll, bind_apply]
    cases executed : execute sql db with
    | mk result db' =>
      rw [executed] at ran
      cases result with
      | error e => exact ⟨t, ran, inner⟩
      | ok n =>
        obtain ⟨u, ranRest, innerRest⟩ :=
          ih (affected + n) db' (ran.driver.trans traced) ran.flag
        exact ⟨t ++ u, ran.trans ranRest, inner.append innerRest⟩

theorem joins_all (q : Query) : Joins d (all q) := by
  intro db traced isOpen
  rcases appends_all traced isOpen q with ran | ⟨select, succeeded, ran⟩
  · exact ⟨[], ran, fun e mem => absurd mem List.not_mem_nil⟩
  · refine ⟨_, ran, fun e mem => ?_⟩
    rw [List.mem_singleton.mp mem]
    rfl

theorem joins_transaction {body : Action (σ × Log) α} (joins : Joins d body) :
    Joins d (transaction body) := by
  intro db traced isOpen
  rw [transaction_joined body isOpen]
  exact joins db traced isOpen

theorem joins_executeBatch (statements : List String) : Joins d (executeBatch statements) :=
  joins_transaction (joins_executeAll 0 statements)

end Database

/-- What the flag note in front of a call adds inside an open transaction. -/
theorem isBody_flag : IsBody [.flag true] := by
  intro e mem
  rw [List.mem_singleton.mp mem]
  rfl

/-- After a flag note and a call that joins the open transaction, the rest of a program joins it
too. -/
theorem Joins.andThen {β : Type} {a : Action (σ × Log) β} {rest : Result β → Action (σ × Log) α}
    (first : Joins d a) (second : ∀ result, Joins d (rest result)) :
    Joins d fun db => rest (a db.noteFlag).1 (a db.noteFlag).2 := by
  intro db traced isOpen
  have noted := Database.appends_noteFlag isOpen
  obtain ⟨t, ran, inner⟩ := first db.noteFlag (noted.driver.trans traced) noted.flag
  obtain ⟨u, ranRest, innerRest⟩ := second (a db.noteFlag).1 (a db.noteFlag).2
    (ran.driver.trans (noted.driver.trans traced)) ran.flag
  exact ⟨_, (noted.trans ran).trans ranRest, (isBody_flag.append inner).append innerRest⟩

/-- A program inside an open transaction begins and ends none, and leaves that one open. -/
theorem Program.run_joined (d : Driver σ) (p : Program α) : Joins d p.run := by
  induction p with
  | done result =>
    intro db traced isOpen
    exact ⟨_, Database.appends_noteFlag isOpen, isBody_flag⟩
  | execute sql next ih => exact (Database.joins_execute sql).andThen ih
  | all q next ih => exact (Database.joins_all q).andThen ih
  | executeBatch statements next ih => exact (Database.joins_executeBatch statements).andThen ih
  | transaction body next ihBody ih => exact (Database.joins_transaction ihBody).andThen ih

/-! ### Outside transactions -/

namespace Database

theorem appends_commit (traced : db.driver = d.traced) :
    db.Appends (call (fun driver => driver.commit) db).2 db.inTransaction
      [.call .commit (call (fun driver => driver.commit) db).1.isOk] := by
  refine appends_call d.commit ?_ rfl
  rw [traced]
  rfl

theorem appends_rollback (traced : db.driver = d.traced) :
    db.Appends (call (fun driver => driver.rollback) db).2 db.inTransaction
      [.call .rollback (call (fun driver => driver.rollback) db).1.isOk] := by
  refine appends_call d.rollback ?_ rfl
  rw [traced]
  rfl

/-- What stands behind the body of a transaction that was begun: a commit, a commit that fails with
a rollback, or a rollback. Then the flag is not set any more. -/
theorem appends_finish (traced : db.driver = d.traced) (outcome : Result α) :
    ∃ t ending, db.Appends (finish outcome db).2 false t ∧
      ∀ body, Ending.log body ending = .call .beginTransaction true :: (body ++ t) := by
  cases outcome with
  | error e =>
    have undone : ({ db with inTransaction := false } : Database (σ × Log)).Appends _ _ _ :=
      appends_rollback traced
    exact ⟨_, .rolledBack _, ((Appends.refl rfl).setFlag false).trans undone, fun body => rfl⟩
  | ok a =>
    have ended := (appends_commit traced).setFlag false
    unfold finish
    cases committed : call (fun driver => driver.commit) db with
    | mk result db' =>
      rw [committed] at ended
      cases result with
      | ok _ => exact ⟨_, .committed, ended, fun body => rfl⟩
      | error e =>
        have undone : ({ db' with inTransaction := false } : Database (σ × Log)).Appends _ _ _ :=
          appends_rollback (ended.driver.trans traced)
        exact ⟨_, .commitFailed _, ended.trans undone, fun body => rfl⟩

/-- A transaction on a database without an open one adds one bracket, and leaves none open. -/
theorem appends_transaction {body : Action (σ × Log) α} (joins : Joins d body)
    (traced : db.driver = d.traced) (closed : db.inTransaction = false) :
    ∃ t ending, db.Appends (transaction body db).2 false t ∧ Bracket ending t := by
  have begun : db.Appends (call (fun driver => driver.beginTransaction) db).2 false
      [.call .beginTransaction (call (fun driver => driver.beginTransaction) db).1.isOk] := by
    refine appends_call d.beginTransaction ?_ closed
    rw [traced]
    rfl
  unfold transaction
  rw [closed, if_neg Bool.false_ne_true]
  cases started : call (fun driver => driver.beginTransaction) db with
  | mk result db' =>
    rw [started] at begun
    cases result with
    | error e => exact ⟨_, .refused, begun, [], fun e mem => absurd mem List.not_mem_nil, rfl⟩
    | ok _ =>
      obtain ⟨t, ran, inner⟩ := joins { db' with inTransaction := true }
        (begun.driver.trans traced) rfl
      obtain ⟨u, ending, ended, shape⟩ := appends_finish
        (ran.driver.trans (begun.driver.trans traced)) (body { db' with inTransaction := true }).1
      exact ⟨_, ending, ((begun.setFlag true).trans ran).trans ended, t, inner, (shape t).symm⟩

end Database

/-- A program on a database without an open transaction adds a well-bracketed log. -/
theorem Program.run_outside (p : Program α) {db : Database (σ × Log)}
    (traced : db.driver = d.traced) (closed : db.inTransaction = false) :
    ∃ t, db.Appends (p.run db).2 false t ∧ p.Bracketed t := by
  induction p generalizing db with
  | done result =>
    exact ⟨_, Database.appends_noteFlag closed, .done⟩
  | execute sql next ih =>
    have noted := Database.appends_noteFlag closed
    have ran := noted.trans (Database.appends_execute (noted.driver.trans traced) noted.flag sql)
    obtain ⟨t, ranRest, rest⟩ := ih _ (ran.driver.trans traced) ran.flag
    exact ⟨_, ran.trans ranRest, .execute rest⟩
  | all q next ih =>
    have noted := Database.appends_noteFlag closed
    rcases Database.appends_all (noted.driver.trans traced) noted.flag q with
      none | ⟨select, succeeded, one⟩
    · have ran := noted.trans none
      obtain ⟨t, ranRest, rest⟩ := ih _ (ran.driver.trans traced) ran.flag
      exact ⟨_, ran.trans ranRest, .uncompiled rest⟩
    · have ran := noted.trans one
      obtain ⟨t, ranRest, rest⟩ := ih _ (ran.driver.trans traced) ran.flag
      exact ⟨_, ran.trans ranRest, .all rest⟩
  | executeBatch statements next ih =>
    have noted := Database.appends_noteFlag closed
    obtain ⟨u, ending, one, bracket⟩ := Database.appends_transaction
      (Database.joins_executeAll 0 statements) (noted.driver.trans traced) noted.flag
    have ran := noted.trans one
    obtain ⟨t, ranRest, rest⟩ := ih _ (ran.driver.trans traced) ran.flag
    exact ⟨_, ran.trans ranRest, .executeBatch bracket.existsUnique rest⟩
  | transaction body next _ ih =>
    have noted := Database.appends_noteFlag closed
    obtain ⟨u, ending, one, bracket⟩ := Database.appends_transaction
      (body.run_joined d) (noted.driver.trans traced) noted.flag
    have ran := noted.trans one
    obtain ⟨t, ranRest, rest⟩ := ih _ (ran.driver.trans traced) ran.flag
    exact ⟨_, ran.trans ranRest, .transaction bracket.existsUnique rest⟩

/-- **Transactions are well bracketed on every run.** Whatever the driver does and whatever the
program is, the log of a run from a new connection has one bracket for each outermost transaction,
no call that begins or ends a transaction elsewhere, and the flag set inside the brackets only. -/
theorem Program.run_bracketed (schema : Schema) (config : Config) (d : Driver σ) (s : σ)
    (p : Program α) :
    p.Bracketed (p.run { schema, config, driver := d.traced, state := (s, []) }).2.state.2 ∧
      (p.run { schema, config, driver := d.traced, state := (s, []) }).2.inTransaction = false := by
  obtain ⟨t, ran, bracketed⟩ := p.run_outside
    (show ({ schema, config, driver := d.traced, state := (s, []) } : Database (σ × Log)).driver
      = d.traced from rfl) rfl
  constructor
  · rw [ran.log]
    exact bracketed
  · exact ran.flag

end Runs

end RecordMapper
