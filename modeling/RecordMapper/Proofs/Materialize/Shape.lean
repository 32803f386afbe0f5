import RecordMapper.Proofs.Materialize.Children
import RecordMapper.Proofs.Materialize.Nesting

/-!
The shape of what a row is made into.

`Entry.Shaped` says what a schema and the column names of a row ask of an entry: it is of the model,
its fields are those that the columns feed (`Column.Feeds`), and each alias is a relation of the
model, whose field holds what `Value.RelationShaped` allows: nothing or one entry of the target,
alone or as a list, which in turn is shaped by the columns under the alias.

Every entry that is made of a row has this shape (`Materializer.entry_shaped`). The proof goes along
the depth that aliases nest, not along the schema, whose relations may lead back to where they
started; for the same reason making an entry always ends.
-/

namespace RecordMapper

variable {schema : Schema} {config : Config} {m : Model}

/-! ### Fields that columns feed -/

/-- A column gives an entry its field: that of its name if there is no separator in it, the one
behind the self alias unless it is the locale field, or the relation of any other alias. -/
inductive Column.Feeds (config : Config) (column : String) : (field : String) → Prop
  | bare (whole : Column.split? config.aliasSeparator column = none) : Feeds config column column
  | self {rest : String}
    (split : Column.split? config.aliasSeparator column = some (config.selfAlias, rest))
    (kept : rest ≠ config.localeField) : Feeds config column rest
  | through {a rest : String} (split : Column.split? config.aliasSeparator column = some (a, rest))
    (other : a ≠ config.selfAlias) : Feeds config column a

theorem Column.feeds_iff {column name : String} :
    Feeds config column name ↔
      slot config column = .own name ∨ ∃ rest, slot config column = .joined name rest := by
  constructor
  · intro feeds
    cases feeds with
    | bare whole => exact .inl (by rw [slot, whole])
    | self split kept => exact .inl (by simp [slot, split, kept])
    | through split other => exact .inr ⟨_, by rw [slot, split]; exact if_neg other⟩
  · intro goes
    unfold slot at goes
    cases split : split? config.aliasSeparator column with
    | none =>
      simp only [split, Slot.own.injEq, reduceCtorEq, exists_false, or_false] at goes
      exact goes ▸ .bare split
    | some parts =>
      obtain ⟨a, rest⟩ := parts
      by_cases self : a = config.selfAlias
      · subst self
        by_cases locale : rest = config.localeField
        · simp [split, locale] at goes
        · simp only [split, locale, if_true, if_false, Slot.own.injEq, reduceCtorEq, exists_false,
            or_false] at goes
          exact goes ▸ .self split locale
      · simp only [split, self, if_false, reduceCtorEq, Slot.joined.injEq, exists_and_left,
          exists_eq', and_true, false_or] at goes
        exact goes ▸ .through split self

/-- The fields of the entry itself are fed by columns that are no part of a relation. -/
theorem Row.mem_keys_ownFields {row : Row} {name : String} :
    name ∈ Assoc.keys (ownFields config row) ↔
      ∃ column ∈ row, Column.slot config column.1 = .own name := by
  rw [ownFields_eq, Assoc.mem_keys_ofList]
  constructor
  · intro mem
    obtain ⟨field, own, rfl⟩ := List.mem_map.1 mem
    obtain ⟨column, there, feeds⟩ := List.mem_filterMap.1 own
    refine ⟨column, there, ?_⟩
    unfold Column.own? at feeds
    split at feeds
    · rename_i slot
      cases feeds
      exact slot
    · cases feeds
  · rintro ⟨column, there, slot⟩
    refine List.mem_map.2 ⟨(name, column.2), List.mem_filterMap.2 ⟨column, there, ?_⟩, rfl⟩
    rw [Column.own?, slot]

/-! ### Shapes -/

mutual

/-- The entry has the shape that the schema and the columns of the row ask for. -/
inductive Entry.Shaped (schema : Schema) (config : Config) : Model → Row → Entry → Prop
  | intro {m : Model} {row : Row} {e : Entry} (model : e.model = m.name)
    (distinct : e.fieldNames.Nodup)
    (fields : ∀ name, name ∈ e.fieldNames ↔ ∃ column ∈ row, Column.Feeds config column.1 name)
    (relations : ∀ a, row.HasAlias config a → ∃ target, schema.relationTarget m a = .ok target)
    (related : ∀ a target v, row.HasAlias config a → schema.relationTarget m a = .ok target →
      e.get? a = some v →
        Value.RelationShaped schema config (m.isMany a) target (row.under config a) v) :
    Entry.Shaped schema config m row e

/-- The value is one that a relation to the target may have, for the columns under its alias: null
or an entry, and if the relation has many targets an empty list or a list of one entry. -/
inductive Value.RelationShaped (schema : Schema) (config : Config) :
    (many : Bool) → Model → Row → Value → Prop
  | null {target : Model} {group : Row} :
    Value.RelationShaped schema config false target group .null
  | entry {target : Model} {group : Row} {e : Entry}
    (shaped : Entry.Shaped schema config target group e) :
    Value.RelationShaped schema config false target group (.entry e)
  | empty {target : Model} {group : Row} :
    Value.RelationShaped schema config true target group (.list [])
  | item {target : Model} {group : Row} {e : Entry}
    (shaped : Entry.Shaped schema config target group e) :
    Value.RelationShaped schema config true target group (.list [.entry e])

end

namespace Materialize

/-- An entry that is made of a row is fresh from the database: nothing in it is changed. -/
theorem exists_load_of_entryWithin {depth : Nat} {row : Row} {e : Entry}
    (made : entryWithin schema config depth m row = .ok e) :
    ∃ fields, e = Entry.load m.name fields := by
  cases depth with
  | zero => cases made
  | succ depth =>
    obtain ⟨own, -, made⟩ := Result.exists_of_bind made
    obtain ⟨whole, -, made⟩ := Result.exists_of_bind made
    cases made
    exact ⟨whole, rfl⟩

theorem model_of_entryWithin {depth : Nat} {row : Row} {e : Entry}
    (made : entryWithin schema config depth m row = .ok e) : e.model = m.name := by
  obtain ⟨fields, rfl⟩ := exists_load_of_entryWithin made
  rfl

theorem unchanged_of_entryWithin {depth : Nat} {row : Row} {e : Entry}
    (made : entryWithin schema config depth m row = .ok e) : e.dirty = [] := by
  obtain ⟨fields, rfl⟩ := exists_load_of_entryWithin made
  rfl

/-- The fields of an entry are those that the columns of the row feed. -/
theorem mem_fieldNames_of_entryWithin {depth : Nat} {row : Row} {e : Entry}
    (made : entryWithin schema config depth m row = .ok e) (name : String) :
    name ∈ e.fieldNames ↔ ∃ column ∈ row, Column.Feeds config column.1 name := by
  obtain ⟨less, -, -, fields⟩ := fields_of_entryWithin made
  obtain ⟨related, own⟩ := fields name
  have held : name ∈ e.fieldNames ↔ e.get? name ≠ none := by
    rw [Entry.fieldNames, Entry.get?, ne_eq, Assoc.get?_eq_none_iff, not_not]
  by_cases used : row.HasAlias config name
  · obtain ⟨v, -, there⟩ := related _ (Row.get?_groups_of_hasAlias used)
    obtain ⟨column, mem, rest, joined⟩ := used
    have feeds : Column.Feeds config column.1 name := Column.feeds_iff.2 (.inr ⟨_, joined⟩)
    exact iff_of_true (held.2 (by simp [there])) ⟨column, mem, feeds⟩
  · have loads := own (Row.get?_groups_eq_none used)
    have same : e.get? name ≠ none ↔ name ∈ Assoc.keys (Row.ownFields config row) := by
      rw [← not_not (a := name ∈ _), ← Assoc.get?_eq_none_iff]
      generalize Assoc.get? name (Row.ownFields config row) = raw at loads
      generalize e.get? name = v at loads
      cases loads with
      | none => simp
      | some => simp
    rw [held, same, Row.mem_keys_ownFields]
    refine exists_congr fun column => and_congr_right fun mem => ?_
    rw [Column.feeds_iff, or_iff_left]
    rintro ⟨rest, joined⟩
    exact used ⟨column, mem, rest, joined⟩

/-- What is made of the columns under an alias has the shape of the relation, if nested entries have
the shape of their model. -/
theorem relationShaped_of_relation {nested : Model → Row → Result Entry}
    (shaped : ∀ target group e, nested target group = .ok e → e.Shaped schema config target group)
    {a : String} {target : Model} (resolved : schema.relationTarget m a = .ok target) {group : Row}
    {v : Value} (made : relation schema nested m a group = .ok v) :
    v.RelationShaped schema config (m.isMany a) target group := by
  obtain ⟨target', resolved', holds⟩ := cases_of_relation made
  cases resolved.symm.trans resolved'
  split at holds
  · obtain ⟨e, inner, rfl⟩ := holds
    cases m.isMany a with
    | false => exact .entry (shaped _ _ _ inner)
    | true => exact .item (shaped _ _ _ inner)
  · subst holds
    cases m.isMany a with
    | false => exact .null
    | true => exact .empty

/-- **What is made of a row has the shape that the schema declares**, by induction on how deep the
aliases nest. -/
theorem shaped_of_entryWithin {depth : Nat} {row : Row} {e : Entry}
    (made : entryWithin schema config depth m row = .ok e) : e.Shaped schema config m row := by
  induction depth generalizing m row e with
  | zero => cases made
  | succ depth ih =>
    obtain ⟨less, deep, distinct, fields⟩ := fields_of_entryWithin made
    cases deep
    have related : ∀ a, row.HasAlias config a → ∃ v,
        relation schema (entryWithin schema config depth) m a (row.under config a) = .ok v ∧
          e.get? a = some v :=
      fun a used => (fields a).1 _ (Row.get?_groups_of_hasAlias used)
    refine .intro (model_of_entryWithin made) distinct (mem_fieldNames_of_entryWithin made) ?_ ?_
    · intro a used
      obtain ⟨v, holds, -⟩ := related a used
      obtain ⟨target, resolved, -⟩ := cases_of_relation holds
      exact ⟨target, resolved⟩
    · intro a target v used resolved found
      obtain ⟨w, holds, there⟩ := related a used
      cases found.symm.trans there
      exact relationShaped_of_relation (fun _ _ _ inner => ih inner) resolved holds

end Materialize

/-- **Materialized entries have the shape the schema declares.** An entry made of a row is of the
model, its fields are exactly those that the columns feed, and each alias is a relation of the
model, whose value is null, one entry of the target, or a list of at most one, as the relation is
declared; a nested entry has this shape for the columns under its alias, at every depth. And the
making ends on every row: the longest column name bounds how deep it goes, so that whatever stands
at the bottom of a larger budget is never asked. -/
theorem Materializer.entry_shaped (p : Materializer) (separated : p.config.aliasSeparator ≠ "")
    (row : Row) :
    (∀ e, p.entry row = .ok e → e.Shaped p.schema p.config p.model row) ∧
      ∀ bottom budget, row.longestName < budget →
        Materialize.entryAbove p.schema p.config bottom budget p.model row = p.entry row := by
  constructor
  · intro e made
    exact Materialize.shaped_of_entryWithin made
  · intro bottom budget enough
    exact Materialize.entryAbove_eq_entry separated enough p.model

/-- A row of a book leads over its author to another book, which has no tag: the relations of the
schema lead back to books. -/
theorem Materializer.entry_shaped_cyclic :
    ∃ e, Library.books.entry [("id", .int 1), ("author:id", .int 7), ("author:books:id", .int 2),
        ("author:books:tags:id", .null)] = .ok e ∧
      e.Shaped Library.catalog {} Library.book [("id", .int 1), ("author:id", .int 7),
        ("author:books:id", .int 2), ("author:books:tags:id", .null)] :=
  ⟨_, rfl, (Materializer.entry_shaped Library.books (by decide) _).1 _ rfl⟩

end RecordMapper
