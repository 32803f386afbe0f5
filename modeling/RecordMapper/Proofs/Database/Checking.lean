import RecordMapper.Proofs.Database.Trace
import RecordMapper.Proofs.Materialize.Children
import RecordMapper.Proofs.Query.References

/-!
Queries are checked before a driver sees them.

The relations that a statement refers to are the tables of the field references among its leaves,
and each of them is looked up in the model. The parser turns a reference that a query mentions into
a field, unless it keeps it as text: so **a query that mentions a field behind a name that is no
relation is refused, and the database stays as it is** (`Database.refuses_unrelated`), as long as
the statement has the reference in no text that is handed on.

The condition matters. Texts that no rule of the grammar applies to are handed on as they are, and
the references in them are not looked up (`Database.accepts_unrelated_in_list`).
-/

namespace RecordMapper

open Text

/-! ### The relations of a statement -/

theorem mem_foldl_unseen {α : Type} [BEq α] [LawfulBEq α] {a : α} (l seen : List α) :
    a ∈ l.foldl (fun seen b => if seen.contains b then seen else seen ++ [b]) seen
      ↔ a ∈ seen ∨ a ∈ l := by
  induction l generalizing seen with
  | nil => simp
  | cons b l ih =>
    rw [List.foldl_cons, ih]
    split
    · rename_i known
      have known := List.contains_iff_mem.1 known
      constructor
      · exact Or.imp_right (List.mem_cons_of_mem b)
      · rintro (before | mem)
        · exact .inl before
        · rcases List.mem_cons.1 mem with rfl | later
          · exact .inl known
          · exact .inr later
    · simp [or_assoc]

namespace Select

theorem mem_relationAliases {s : Select} {a : String} :
    a ∈ s.relationAliases ↔ ∃ ref ∈ s.references, ref.table = some a := by
  rw [relationAliases, mem_foldl_unseen, List.mem_filterMap]
  simp

/-- A relation that a leaf refers to is a relation of the statement. -/
theorem mem_relationAliases_of_leaf {s : Select} {ref : FieldRef} {a : String}
    (leaf : .field ref ∈ s.leaves) (table : ref.table = some a) : a ∈ s.relationAliases := by
  have reference : ref ∈ s.references := by
    rw [references_eq, List.mem_filterMap]
    exact ⟨_, leaf, rfl⟩
  exact mem_relationAliases.2 ⟨ref, reference, table⟩

end Select

/-! ### Compiled queries -/

namespace Database

variable {σ : Type} {db : Database σ} {q : Query} {m : Model}

/-- The check of a name that a statement refers to. -/
def checkAlias (db : Database σ) (m : Model) (a : String) : Result Unit :=
  if a = db.config.selfAlias then .ok () else (db.schema.relationTarget m a).map fun _ => ()

theorem checkAlias_eq_ok_iff {a : String} : db.checkAlias m a = .ok () ↔
    a = db.config.selfAlias ∨ ∃ target, db.schema.relationTarget m a = .ok target := by
  unfold checkAlias
  split
  · rename_i own
    exact iff_of_true rfl (.inl own)
  · rename_i other
    cases db.schema.relationTarget m a with
    | error e => simp [other, Except.map]
    | ok target => simp [Except.map]

theorem compile_eq (db : Database σ) (q : Query) :
    db.compile q = (db.schema.model q.model >>= fun m => q.parse >>= fun select =>
      select.relationAliases.forM (db.checkAlias m) >>= fun _ => .ok select) :=
  rfl

/-- **A query is compiled if its model is registered, its texts can be parsed, and every name that
its statement refers to is the model itself or a relation of it.** -/
theorem compile_eq_ok_iff {select : Select} : db.compile q = .ok select ↔
    q.parse = .ok select ∧ ∃ m, db.schema.model q.model = .ok m ∧
      ∀ a ∈ select.relationAliases,
        a = db.config.selfAlias ∨ ∃ target, db.schema.relationTarget m a = .ok target := by
  simp only [← checkAlias_eq_ok_iff, ← Result.forM_eq_ok_iff]
  rw [compile_eq]
  constructor
  · intro compiled
    obtain ⟨m, registered, parsed⟩ := Result.exists_of_bind compiled
    obtain ⟨select', read, checked⟩ := Result.exists_of_bind parsed
    obtain ⟨_, passed, same⟩ := Result.exists_of_bind checked
    cases same
    exact ⟨read, m, registered, passed⟩
  · rintro ⟨read, m, registered, passed⟩
    rw [registered, read]
    show (select.relationAliases.forM (db.checkAlias m) >>= fun _ => .ok select) = _
    rw [passed]
    rfl

/-- A query that cannot be compiled gives no first entry. -/
theorem first_of_refused {e : Error} (refused : db.compile q = .error e) :
    first q db = (.error e, db) := by
  unfold first
  rw [bind_apply, all_of_refused refused]

/-- A query that cannot be compiled loads nothing. -/
theorem load_of_refused {e : Error} (refused : db.compile q = .error e) {α : Type}
    (loader : Loader α) : ∃ e', load loader q db = (.error e', db) := by
  unfold load
  split
  · exact ⟨_, rfl⟩
  · exact ⟨e, by rw [bind_apply, first_of_refused refused]⟩

end Database

/-! ### Books without an editor -/

namespace Library

/-- A driver that counts its calls, and finds nothing. -/
def counter : Driver Nat where
  query _ _ calls := (.ok [], calls + 1)
  execute _ calls := (.ok 0, calls + 1)
  beginTransaction calls := (.ok (), calls + 1)
  commit calls := (.ok (), calls + 1)
  rollback calls := (.ok (), calls + 1)

def shelves : Database Nat := { schema := catalog, config := {}, driver := counter, state := 0 }

/-- Books by the name of an editor. -/
def byEditor : Query :=
  { model := "Book", filter := some "\x7beditor.name\x7d = %name%",
    bindings := .ofList [("name", .string "Ann")] }

/-- Books whose keys are in a list with the key of an editor. -/
def amongEditors : Query :=
  { model := "Book", filter := some "\x7bid\x7d IN (\x7beditor.id\x7d, 2)" }

/-- A field of an editor. -/
def editor (name : Text) (isName : IsName name) : Qualified where
  table := "editor".toList
  name := name
  table_isName := isName_of_checked rfl
  name_isName := isName

end Library

/-! ### Refused queries -/

/-- The name is that of no relation of the model. -/
def Model.Unrelated (m : Model) (name : String) : Prop :=
  ∀ f, m.field? name = some f → f.type.isRelation = false

theorem Model.Unrelated.relationTarget_ne {m : Model} {name : String} (unrelated : m.Unrelated name)
    (schema : Schema) (target : Model) : schema.relationTarget m name ≠ .ok target := by
  intro found
  obtain ⟨f, t, field, points, -⟩ := schema.relationTarget_eq_ok_iff.1 found
  have none := unrelated f field
  rw [FieldType.isRelation, points] at none
  cases none

theorem Library.book_unrelated : book.Unrelated "editor" := by
  intro f found
  cases found

/-- The statement has the reference in no text: in none that is handed on, and in no string literal,
unless the bound values put none into a literal. -/
structure Qualified.Unhidden (r : Qualified) (b : Bindings) (select : Select) : Prop where
  raw : ∀ sql, .raw sql ∈ select.leaves → ¬ r.text <:+: sql.toList
  literals : b.IsUnquoted ∨
    ∀ s a, .scalar (.string s) a ∈ select.leaves → ¬ r.text <:+: s.toList

section Unrelated

open Library

variable {q : Query} {r : Qualified} {t : String}

/-- A reference that the statement has in no text is a field of it. -/
theorem Query.exists_field_of_unhidden {select : Select} (named : q.bindings.IsNamed)
    (read : q.parse = .ok select) (mem : t ∈ q.texts) (mentioned : r.MentionedIn t.toList)
    (unhidden : r.Unhidden q.bindings select) :
    ∃ ref, .field ref ∈ select.leaves ∧ r.Names ref := by
  have shown : ∀ literals, (literals = true →
      ∀ s a, .scalar (.string s) a ∈ select.leaves → ¬ r.text <:+: s.toList) →
      r.Among literals select.leaves → ∃ ref, .field ref ∈ select.leaves ∧ r.Names ref := by
    rintro literals counted ⟨leaf, member, held⟩
    match leaf, held with
    | .field ref, held => exact ⟨ref, member, held⟩
    | .raw sql, held => exact absurd held (unhidden.raw sql member)
    | .scalar (.string s) a, held => exact absurd held.2 (counted held.1 s a member)
  rcases unhidden.literals with unquoted | apart
  · exact shown false (fun counted => by cases counted)
      (Query.among_parse ⟨named, fun _ => unquoted⟩ mem mentioned read)
  · exact shown true (fun _ => apart)
      (Query.among_parse ⟨named, fun counted => by cases counted⟩ mem mentioned read)

/-- **A query that mentions a field behind a name that is no relation is refused.** It gives an
error, and the driver is not called. What the query binds has names of word characters, and its
statement has the reference in no text. -/
theorem Database.refuses_unrelated {σ : Type} {db : Database σ} {m : Model}
    (registered : db.schema.model q.model = .ok m) (mem : t ∈ q.texts)
    (mentioned : r.MentionedIn t.toList) (other : String.ofList r.table ≠ db.config.selfAlias)
    (unrelated : m.Unrelated (String.ofList r.table)) (named : q.bindings.IsNamed)
    (unhidden : ∀ select, q.parse = .ok select → r.Unhidden q.bindings select) :
    ∃ e, db.compile q = .error e ∧ all q db = (.error e, db) ∧ first q db = (.error e, db)
      ∧ ∀ {α : Type} (loader : Loader α), ∃ e', load loader q db = (.error e', db) := by
  cases compiled : db.compile q with
  | error e =>
    exact ⟨e, rfl, all_of_refused compiled, first_of_refused compiled, load_of_refused compiled⟩
  | ok select =>
    obtain ⟨read, m', registered', related⟩ := compile_eq_ok_iff.1 compiled
    cases registered.symm.trans registered'
    obtain ⟨ref, leaf, names⟩ :=
      Query.exists_field_of_unhidden named read mem mentioned (unhidden select read)
    rcases related _ (Select.mem_relationAliases_of_leaf leaf names.1) with own | ⟨target, found⟩
    · exact absurd own other
    · exact absurd found (unrelated.relationTarget_ne db.schema target)

/-- Books have no editor to filter by. -/
theorem Database.refuses_unrelated_byEditor :
    byEditor.parse.isOk = true ∧ ∃ e, shelves.compile byEditor = .error e
      ∧ all byEditor shelves = (.error e, shelves) ∧ first byEditor shelves = (.error e, shelves)
      ∧ ∀ {α : Type} (loader : Loader α),
          ∃ e', load loader byEditor shelves = (.error e', shelves) := by
  have named : byEditor.bindings.IsNamed := by
    intro pair mem
    obtain rfl := List.mem_singleton.1 mem
    exact isName_of_checked rfl
  have unquoted : byEditor.bindings.IsUnquoted := by
    intro pair mem
    obtain rfl := List.mem_singleton.1 mem
    exact IsName.isUnquoted (isName_of_checked rfl)
  have noRaw : byEditor.parse.toOption.any (fun s => s.leaves.any Expr.isRaw) = false := by
    decide +kernel
  refine ⟨by decide +kernel, refuses_unrelated (m := book) rfl (List.mem_singleton_self _)
    (r := editor "name".toList (isName_of_checked rfl)) ⟨[], " = %name%".toList, rfl, rfl⟩
    (by decide) book_unrelated named fun select read => ⟨fun sql mem => ?_, .inl unquoted⟩⟩
  rw [read] at noRaw
  have raw : select.leaves.any Expr.isRaw = true := List.any_eq_true.2 ⟨_, mem, rfl⟩
  cases noRaw.symm.trans raw

/-- A list is no form of the query language: it is kept as text, and the editor in it is not looked
up. The query is compiled, and the driver is called. -/
theorem Database.accepts_unrelated_in_list :
    catalog.verify = .ok () ∧ shelves.schema.model amongEditors.model = .ok book
      ∧ (∃ t ∈ amongEditors.texts,
          (editor "id".toList (isName_of_checked rfl)).MentionedIn t.toList)
      ∧ "editor" ≠ shelves.config.selfAlias ∧ book.Unrelated "editor"
      ∧ (shelves.compile amongEditors).isOk = true ∧ (all amongEditors shelves).2.state = 1 := by
  refine ⟨rfl, rfl, ?_, by decide, book_unrelated, by decide +kernel, by decide +kernel⟩
  exact ⟨_, List.mem_singleton_self _, "\x7bid\x7d IN (".toList, ", 2)".toList, rfl, rfl⟩

end Unrelated

end RecordMapper
