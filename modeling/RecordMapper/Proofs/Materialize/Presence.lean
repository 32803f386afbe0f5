import RecordMapper.Proofs.Materialize.OwnColumns

/-!
Which nested entries stand for a target that exists.

A relation holds a target if its columns have the primary key and some value that is not empty. So a
target without a primary key is made of columns with an empty key and another value
(`Materializer.entry_phantom`). Where an empty key stands among empty columns only, as in the rows of
an outer join (`Row.TellsTarget`), the key alone decides: the relation holds a target if and only if
the key is not empty, and the target has that key (`Materializer.relation_tells_target`).

`Row.Reaches` follows the columns of a row and the fields of its entry along the same aliases. It
reaches all nested entries, unless a column of the row holds an entry itself
(`Materialize.exists_reaches_of_nested`).
-/

namespace RecordMapper

variable {schema : Schema} {config : Config} {m : Model}

/-! ### Relations and their columns -/

/-- The value of a relation from the entry of its target, if there is one. -/
def Value.ofTarget (many : Bool) : Option Entry → Value
  | some e => if many then .list [.entry e] else .entry e
  | none => if many then .list [] else .null

theorem Value.entry_mem_items_ofTarget {many : Bool} {target? : Option Entry} {e : Entry} :
    .entry e ∈ (ofTarget many target?).items ↔ target? = some e := by
  cases target? <;> cases many <;> simp [ofTarget, items, eq_comm]

/-- The columns of a target have a primary key that is not empty. -/
def Row.HasKey (target : Model) (group : Row) : Prop :=
  ∃ key, Assoc.get? target.primaryKey group = some key ∧ key.isEmpty = false

/-- The primary key of the entry is loaded and not empty. -/
def Entry.HasKey (m : Model) (e : Entry) : Prop :=
  ∃ key, e.get? m.primaryKey = some key ∧ key.isEmpty = false

/-- The columns tell by the primary key whether there is a target: where the key is empty, as in the
row of an outer join that found none, so are the other columns. -/
def Row.TellsTarget (target : Model) (group : Row) : Prop :=
  ∀ key, Assoc.get? target.primaryKey group = some key → key.isEmpty = true →
    ∀ column ∈ group, column.2.isEmpty = true

/-- The primary key column is the only one of its field, and is taken as it is. -/
structure Row.LoadsKey (config : Config) (target : Model) (group : Row) : Prop where
  unseparated : config.Unseparated target.primaryKey
  not_serialized : target.isSerialized target.primaryKey = false
  unaliased : ¬ group.HasAlias config target.primaryKey
  single : config.prefixed config.selfAlias target.primaryKey ∉ Assoc.keys group

theorem Row.isJoined_iff_hasKey {target : Model} {group : Row} (tells : group.TellsTarget target) :
    isJoined target group = true ↔ group.HasKey target := by
  rw [isJoined, Assoc.contains, Bool.and_eq_true, Option.isSome_iff_exists, List.any_eq_true]
  constructor
  · rintro ⟨⟨key, found⟩, column, mem, nonempty⟩
    refine ⟨key, found, ?_⟩
    by_contra empty
    have all := tells key found (by simpa using empty) column mem
    simp [all] at nonempty
  · rintro ⟨key, found, nonempty⟩
    exact ⟨⟨key, found⟩, _, Assoc.mem_of_get? found, by simp [nonempty]⟩

/-! ### Entries that a row reaches -/

/-- Along a chain of aliases that the columns of the row have and that lead from target to target in
the entry made of it, the row reaches the last target with its model and its columns. -/
inductive Row.Reaches (schema : Schema) (config : Config) :
    Model → Row → Entry → Model → (group : Row) → (holder : Entry) → Prop
  | refl (m : Model) (row : Row) (e : Entry) : Reaches schema config m row e m row e
  | through {m : Model} {row : Row} {e : Entry} {a : String} {target : Model} {v : Value}
    {inner : Entry} {last : Model} {group : Row} {holder : Entry} (used : row.HasAlias config a)
    (resolved : schema.relationTarget m a = .ok target) (found : e.get? a = some v)
    (mem : .entry inner ∈ v.items)
    (rest : Reaches schema config target (row.under config a) inner last group holder) :
    Reaches schema config m row e last group holder

/-- No column of the row holds an entry itself, alone or in a list. -/
def Row.HoldsNoEntry (row : Row) : Prop :=
  ∀ column ∈ row, ∀ e, .entry e ∉ column.2.items

theorem Row.HoldsNoEntry.under {row : Row} (plain : row.HoldsNoEntry) {a : String}
    (used : row.HasAlias config a) : (row.under config a).HoldsNoEntry := by
  intro column held e
  have grouped := Assoc.mem_of_get? (Row.get?_groups_of_hasAlias used)
  obtain ⟨name, there, -⟩ := Row.exists_column_of_groups grouped held
  exact plain (name, column.2) there e

namespace Materialize

variable {depth : Nat} {row : Row} {e : Entry}

/-- An alias of a row gives its relation the target that the columns stand for, if they do. -/
theorem exists_target_of_hasAlias (made : entryWithin schema config depth m row = .ok e)
    {a : String} (used : row.HasAlias config a) {target : Model}
    (resolved : schema.relationTarget m a = .ok target) :
    ∃ target?, e.get? a = some (.ofTarget (m.isMany a) target?) ∧
      target?.isSome = Row.isJoined target (row.under config a) ∧
      ∀ inner, target? = some inner →
        ∃ less, entryWithin schema config less target (row.under config a) = .ok inner := by
  obtain ⟨less, -, -, fields⟩ := fields_of_entryWithin made
  obtain ⟨v, related, found⟩ := (fields a).1 _ (Row.get?_groups_of_hasAlias used)
  obtain ⟨target', resolved', holds⟩ := cases_of_relation related
  cases resolved.symm.trans resolved'
  split at holds
  · rename_i joined
    obtain ⟨inner, nested, rfl⟩ := holds
    exact ⟨some inner, found, joined.symm, fun _ same => ⟨less, Option.some.inj same ▸ nested⟩⟩
  · rename_i absent
    refine ⟨none, ?_, by simpa using absent, fun _ none => by cases none⟩
    rw [found, holds]
    rfl

theorem exists_entryWithin_of_hasAlias (made : entryWithin schema config depth m row = .ok e)
    {a : String} (used : row.HasAlias config a) {target : Model}
    (resolved : schema.relationTarget m a = .ok target) {v : Value} (found : e.get? a = some v)
    {inner : Entry} (mem : .entry inner ∈ v.items) :
    ∃ less, entryWithin schema config less target (row.under config a) = .ok inner := by
  obtain ⟨target?, there, -, nested⟩ := exists_target_of_hasAlias made used resolved
  cases found.symm.trans there
  exact nested inner (Value.entry_mem_items_ofTarget.1 mem)

/-- What a row reaches is made of the columns. -/
theorem entryWithin_of_reaches (made : entryWithin schema config depth m row = .ok e)
    {last : Model} {group : Row} {holder : Entry}
    (reached : Row.Reaches schema config m row e last group holder) :
    ∃ less, entryWithin schema config less last group = .ok holder := by
  induction reached generalizing depth with
  | refl => exact ⟨depth, made⟩
  | through used resolved found mem rest ih =>
    obtain ⟨less, nested⟩ := exists_entryWithin_of_hasAlias made used resolved found mem
    exact ih nested

/-- The primary key of an entry is that of its columns. -/
theorem get?_primaryKey_of_loadsKey (made : entryWithin schema config depth m row = .ok e)
    (distinct : (Assoc.keys row).Nodup) (loads : row.LoadsKey config m) :
    e.get? m.primaryKey = Assoc.get? m.primaryKey row := by
  have ordered : ¬ [m.primaryKey, config.prefixed config.selfAlias m.primaryKey].Sublist
      (Assoc.keys row) := fun sub => loads.single (sub.subset (by simp))
  rw [get?_eq_ownFields made loads.not_serialized loads.unaliased,
    Row.get?_ownFields_eq distinct loads.unseparated (fun _ => ordered)
      fun mem => absurd mem loads.single,
    Assoc.get?_eq_none_iff.2 loads.single, Option.or_none]

/-- Where no column holds an entry, the targets in an entry come from aliases of the row. -/
theorem hasAlias_of_mem_items (made : entryWithin schema config depth m row = .ok e)
    (plain : row.HoldsNoEntry) {a : String} {target : Model}
    (resolved : schema.relationTarget m a = .ok target) {v : Value} (found : e.get? a = some v)
    {inner : Entry} (mem : .entry inner ∈ v.items) : row.HasAlias config a := by
  by_contra unaliased
  have own := get?_eq_ownFields made (Schema.not_serialized_of_relationTarget resolved) unaliased
  rw [found] at own
  obtain ⟨name, column, -⟩ := Row.exists_column_of_ownFields (Assoc.mem_of_get? own.symm)
  exact plain _ column inner mem

/-- A row without entries in its columns reaches every nested entry. -/
theorem exists_reaches_of_nested (made : entryWithin schema config depth m row = .ok e)
    (plain : row.HoldsNoEntry) {last : Model} {holder : Entry}
    (nested : e.Nested schema m last holder) :
    ∃ group, Row.Reaches schema config m row e last group holder ∧ group.HoldsNoEntry := by
  induction nested generalizing depth row with
  | refl m e => exact ⟨row, .refl m row e, plain⟩
  | step resolved found mem rest ih =>
    have used := hasAlias_of_mem_items made plain resolved found mem
    obtain ⟨less, inner⟩ := exists_entryWithin_of_hasAlias made used resolved found mem
    obtain ⟨group, reached, holdsNone⟩ := ih inner (plain.under used)
    exact ⟨group, .through used resolved found mem reached, holdsNone⟩

end Materialize

/-- A row with a book and its author, to whom no books were joined. -/
def Library.outerRow : Row :=
  [("id", .int 1), ("author:id", .int 7), ("author:books:id", .null),
    ("author:books:title", .string "")]

namespace Materializer

/-- **A nested entry stands for a target that exists**, where the columns of each relation tell by
the primary key whether there is one. At every depth, a relation is null or an empty list if the
primary key among its columns is missing or empty, and otherwise holds one target; the primary key
of the target is loaded and not empty, as long as its column is the only one of the field. And these
are all nested entries, if no column of the row holds an entry itself. -/
theorem relation_tells_target (p : Materializer) {row : Row} {e : Entry}
    (made : p.entry row = .ok e) :
    (∀ m group holder, Row.Reaches p.schema p.config p.model row e m group holder →
      ∀ a target, group.HasAlias p.config a → p.schema.relationTarget m a = .ok target →
        (group.under p.config a).TellsTarget target →
          ∃ target?, holder.get? a = some (.ofTarget (m.isMany a) target?) ∧
            (target?.isSome ↔ (group.under p.config a).HasKey target) ∧
            ∀ inner, target? = some inner → (group.under p.config a).LoadsKey p.config target →
              inner.HasKey target) ∧
    (row.HoldsNoEntry → ∀ m holder, e.Nested p.schema p.model m holder →
      ∃ group, Row.Reaches p.schema p.config p.model row e m group holder ∧
        ∀ a target v inner, p.schema.relationTarget m a = .ok target → holder.get? a = some v →
          .entry inner ∈ v.items → group.HasAlias p.config a) := by
  constructor
  · intro m group holder reached a target used resolved tells
    obtain ⟨depth, ofGroup⟩ := Materialize.entryWithin_of_reaches made reached
    obtain ⟨target?, found, joined, nested⟩ :=
      Materialize.exists_target_of_hasAlias ofGroup used resolved
    have decides : target?.isSome ↔ (group.under p.config a).HasKey target := by
      rw [joined, Row.isJoined_iff_hasKey tells]
    refine ⟨target?, found, decides, ?_⟩
    rintro inner rfl loads
    obtain ⟨key, column, nonempty⟩ := decides.1 rfl
    obtain ⟨less, ofColumns⟩ := nested inner rfl
    refine ⟨key, ?_, nonempty⟩
    rw [Materialize.get?_primaryKey_of_loadsKey ofColumns (Assoc.keys_nodup_ofList _) loads, column]
  · intro plain m holder nested
    obtain ⟨group, reached, holdsNone⟩ := Materialize.exists_reaches_of_nested made plain nested
    obtain ⟨depth, ofGroup⟩ := Materialize.entryWithin_of_reaches made reached
    exact ⟨group, reached, fun a target v inner resolved found mem =>
      Materialize.hasAlias_of_mem_items ofGroup holdsNone resolved found mem⟩

/-- The key and the title of the author's book are empty, so the author has none. -/
theorem relation_tells_target_outerJoin :
    ∃ e author, Library.books.entry Library.outerRow = .ok e ∧
      e.get? "author" = some (.entry author) ∧ author.HasKey Library.author ∧
      author.get? "books" = some (.list []) := by
  obtain ⟨e, made⟩ : ∃ e, Library.books.entry Library.outerRow = .ok e := ⟨_, rfl⟩
  have related := (relation_tells_target Library.books made).1
  have unseparated : ({} : Config).Unseparated "id" :=
    Config.unseparated_of_not_mem (c := ':') (by decide) (by decide)
  obtain ⟨author?, found, joined, keyed⟩ := related _ _ _ (.refl _ _ _) "author" Library.author
    (Row.hasAlias_iff.2 (by decide)) rfl (fun key same empty => by cases same; cases empty)
  have there : author?.isSome := joined.2 ⟨.int 7, rfl, rfl⟩
  obtain ⟨author, rfl⟩ := Option.isSome_iff_exists.1 there
  refine ⟨e, author, made, found, ?_, ?_⟩
  · exact keyed author rfl ⟨unseparated, rfl, fun used => Row.hasAlias_iff.1 used rfl, by decide⟩
  · have reached : Row.Reaches Library.catalog {} Library.book Library.outerRow e
        Library.author (Library.outerRow.under {} "author") author :=
      .through (Row.hasAlias_iff.2 (by decide)) rfl found (List.mem_singleton_self _) (.refl _ _ _)
    obtain ⟨book?, below, joined, -⟩ := related _ _ _ reached "books" Library.book
      (Row.hasAlias_iff.2 (by decide)) rfl (fun _ _ _ => by decide)
    have absent : ¬ book?.isSome := by
      rw [joined]
      rintro ⟨key, same, nonempty⟩
      cases same
      cases nonempty
    rw [below, Option.not_isSome_iff_eq_none.1 absent]
    rfl

/-- The columns of an author without a key are made into an author without a key. -/
theorem entry_phantom :
    Library.catalog.verify = .ok () ∧
      Library.catalog.relationTarget Library.book "author" = .ok Library.author ∧
      Row.under {} "author" [("id", .int 1), ("author:id", .null), ("author:name", .string "Ann")]
        = [("id", .null), ("name", .string "Ann")] ∧
      ∃ e author, Library.books.entry [("id", .int 1), ("author:id", .null),
          ("author:name", .string "Ann")] = .ok e ∧
        e.get? "author" = some (.entry author) ∧ ¬ author.HasKey Library.author := by
  refine ⟨rfl, rfl, rfl, _, ⟨"Author", [("id", .null), ("name", .string "Ann")], []⟩, rfl, rfl, ?_⟩
  rintro ⟨key, found, nonempty⟩
  cases found
  cases nonempty

end Materializer

end RecordMapper
