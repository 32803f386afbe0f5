import RecordMapper.Proofs.Materialize.RoundTrip
import RecordMapper.Proofs.Value.Distinct

/-!
What a row is made into.

`Materialize.fields_of_entryWithin` tells, field by field, what an entry made of a row holds: the
value of a relation that the row has columns for, and otherwise the column of the entry itself,
decoded if it is serialized. The columns of a relation are columns of the row
(`Row.exists_column_of_groups`), so what holds of all values of a row holds of the values of its
relations.
-/

namespace RecordMapper

variable {schema : Schema} {config : Config} {m : Model}

/-! ### Own fields and groups -/

namespace Row

/-- A field of the entry itself is a column of the row. -/
theorem exists_column_of_ownFields {row : Row} {field : String × Value}
    (mem : field ∈ ownFields config row) :
    ∃ name, (name, field.2) ∈ row ∧ Column.slot config name = .own field.1 := by
  rw [ownFields_eq] at mem
  obtain ⟨⟨name, v⟩, column, own⟩ := List.mem_filterMap.1 (Assoc.mem_ofList mem)
  unfold Column.own? at own
  split at own
  · rename_i slot
    cases own
    exact ⟨name, column, slot⟩
  · cases own

/-- A column whose name does not hold the separator is the field of that name, unless the row has
one behind the self alias, too. -/
theorem get?_ownFields (valid : config.validate = .ok ()) {row : Row}
    (distinct : (Assoc.keys row).Nodup) {name : String} (unseparated : config.Unseparated name)
    (unaliased : config.prefixed config.selfAlias name ∉ Assoc.keys row) {v : Value}
    (column : Assoc.get? name row = some v) :
    Assoc.get? name (ownFields config row) = some v := by
  have own : (name, v) ∈ row.filterMap (Column.own? config) :=
    List.mem_filterMap.2 ⟨_, Assoc.mem_of_get? column, by
      simp [Column.own?, Column.slot_own valid unseparated]⟩
  have held : name ∈ Assoc.keys (ownFields config row) := by
    rw [ownFields_eq, Assoc.mem_keys_ofList]
    exact List.mem_map.2 ⟨_, own, rfl⟩
  cases found : Assoc.get? name (ownFields config row) with
  | none => exact absurd held (Assoc.get?_eq_none_iff.1 found)
  | some w =>
    obtain ⟨other, mem, slot⟩ := exists_column_of_ownFields (Assoc.mem_of_get? found)
    rcases Column.eq_or_eq_of_slot_own slot with same | same
    · rw [same] at mem
      rw [← column, Assoc.get?_of_mem distinct mem]
    · rw [same] at mem
      exact absurd (List.mem_map.2 ⟨_, mem, rfl⟩) unaliased

/-- The groups have distinct aliases, and the columns in each of them distinct names. -/
def DistinctGroups (groups : List (String × Row)) : Prop :=
  (Assoc.keys groups).Nodup ∧ ∀ g ∈ groups, (Assoc.keys g.2).Nodup

theorem DistinctGroups.addColumn {groups : List (String × Row)} (distinct : DistinctGroups groups)
    (column : String × Value) : DistinctGroups (addColumn config groups column) := by
  unfold Row.addColumn
  split
  · rename_i a rest slot
    refine ⟨Assoc.keys_nodup_insert distinct.1, fun g mem => ?_⟩
    rcases Assoc.mem_insert mem with rfl | mem
    · apply Assoc.keys_nodup_insert
      cases found : Assoc.get? a groups with
      | none => exact List.nodup_nil
      | some group => exact distinct.2 _ (Assoc.mem_of_get? found)
    · exact distinct.2 g mem
  · exact distinct

theorem distinct_groups (row : Row) : DistinctGroups (groups config row) := by
  have fold : ∀ (row : Row) {gs : List (String × Row)}, DistinctGroups gs →
      DistinctGroups (row.foldl (Row.addColumn config) gs) := by
    intro row
    induction row with
    | nil => exact fun distinct => distinct
    | cons column rest ih => exact fun distinct => ih (distinct.addColumn column)
  exact fold row ⟨List.nodup_nil, List.forall_mem_nil _⟩

/-- What is a column of a relation is one already, or a column of the row under its alias. -/
theorem exists_column_of_foldl_addColumn {row : Row} {groups : List (String × Row)} {a : String}
    {group : Row} (mem : (a, group) ∈ row.foldl (addColumn config) groups) {column : String × Value}
    (held : column ∈ group) :
    (∃ name, (name, column.2) ∈ row ∧ Column.slot config name = .joined a column.1) ∨
      ∃ group', (a, group') ∈ groups ∧ column ∈ group' := by
  induction row generalizing groups with
  | nil => exact .inr ⟨group, mem, held⟩
  | cons first rest ih =>
    rcases @ih (addColumn config groups first) mem with
      ⟨name, there, slot⟩ | ⟨group', there, held⟩
    · exact .inl ⟨name, List.mem_cons_of_mem _ there, slot⟩
    · unfold addColumn at there
      split at there
      · rename_i a' rest' slot
        rcases Assoc.mem_insert there with same | there
        · obtain ⟨rfl, rfl⟩ := Prod.mk.inj same
          rcases Assoc.mem_insert held with rfl | held
          · exact .inl ⟨first.1, List.mem_cons_self .., slot⟩
          · cases found : Assoc.get? a groups with
            | none =>
              rw [found] at held
              cases held
            | some group' =>
              rw [found] at held
              exact .inr ⟨group', Assoc.mem_of_get? found, held⟩
        · exact .inr ⟨group', there, held⟩
      · exact .inr ⟨group', there, held⟩

/-- A column of a relation is a column of the row under its alias. -/
theorem exists_column_of_groups {row : Row} {a : String} {group : Row}
    (mem : (a, group) ∈ groups config row) {column : String × Value} (held : column ∈ group) :
    ∃ name, (name, column.2) ∈ row ∧ Column.slot config name = .joined a column.1 := by
  rcases exists_column_of_foldl_addColumn mem held with there | ⟨group', inside, -⟩
  · exact there
  · cases inside

end Row

/-! ### Fields of what is made -/

namespace Materialize

/-- The field of this name as it is loaded from a column: decoded if the model stores it as a
document. -/
def Loads (m : Model) (name : String) (raw v : Value) : Prop :=
  if m.isSerialized name then Blob.decodeColumn raw = .ok v else v = raw

/-- The second fields are the first ones as they are loaded. -/
def LoadsAll (m : Model) : Row → Row → Prop :=
  List.Forall₂ fun field loaded => loaded.1 = field.1 ∧ Loads m field.1 field.2 loaded.2

theorem loadsAll_of_decodeFields {fields own : Row} (decoded : decodeFields m fields = .ok own) :
    LoadsAll m fields own := by
  induction fields generalizing own with
  | nil =>
    cases decoded
    exact .nil
  | cons field rest ih =>
    obtain ⟨name, raw⟩ := field
    rw [decodeFields, List.mapM_cons] at decoded
    obtain ⟨loaded, first, decoded⟩ := Result.exists_of_bind decoded
    obtain ⟨others, remaining, decoded⟩ := Result.exists_of_bind decoded
    cases decoded
    refine .cons ?_ (ih remaining)
    unfold Loads
    by_cases serialized : m.isSerialized name
    · simp only [serialized, if_true] at first ⊢
      cases read : Blob.decodeColumn raw with
      | error e =>
        rw [read] at first
        cases first
      | ok v =>
        rw [read] at first
        cases first
        exact ⟨rfl, rfl⟩
    · simp only [serialized] at first ⊢
      cases first
      exact ⟨rfl, rfl⟩

theorem LoadsAll.keys_eq {fields own : Row} (loads : LoadsAll m fields own) :
    Assoc.keys own = Assoc.keys fields := by
  induction loads with
  | nil => rfl
  | cons first _ ih =>
    rw [Assoc.keys, List.map_cons, first.1]
    exact congrArg _ ih

theorem LoadsAll.rel_get? {fields own : Row} (loads : LoadsAll m fields own) (name : String) :
    Option.Rel (Loads m name) (Assoc.get? name fields) (Assoc.get? name own) := by
  induction loads with
  | nil => exact .none
  | cons first _ ih =>
    rw [Assoc.get?, Assoc.get?, first.1]
    split
    · rename_i same
      exact .some (same ▸ first.2)
    · exact ih

/-- A relation holds what is made of its columns, if they stand for a target. -/
theorem cases_of_relation {nested : Model → Row → Result Entry} {a : String} {group : Row}
    {v : Value} (made : relation schema nested m a group = .ok v) :
    ∃ target, schema.relationTarget m a = .ok target ∧
      if Row.isJoined target group then
        ∃ e, nested target group = .ok e ∧ v = if m.isMany a then .list [.entry e] else .entry e
      else v = if m.isMany a then .list [] else .null := by
  cases resolved : schema.relationTarget m a with
  | error e =>
    rw [relation, resolved] at made
    cases made
  | ok target =>
    obtain ⟨f, -, found, -, -⟩ := Schema.relationTarget_eq_ok_iff.1 resolved
    have many : m.isMany a = f.type.isMany := by rw [Model.isMany, found]; rfl
    rw [relation_eq resolved found] at made
    refine ⟨target, rfl, ?_⟩
    rw [many]
    split at made
    · rename_i joined
      rw [if_pos joined]
      cases inner : nested target group with
      | error e =>
        rw [inner] at made
        cases made
      | ok e =>
        rw [inner] at made
        cases made
        exact ⟨e, rfl, rfl⟩
    · rename_i joined
      rw [if_neg joined]
      cases made
      rfl

/-- The relations are put to the fields, and the other fields stay. -/
theorem get?_of_addRelations {nested : Model → Row → Result Entry} {groups : List (String × Row)}
    (distinct : (Assoc.keys groups).Nodup) {fields whole : Row}
    (added : addRelations schema nested m fields groups = .ok whole) (name : String) :
    (∀ group, Assoc.get? name groups = some group →
      ∃ v, relation schema nested m name group = .ok v ∧ Assoc.get? name whole = some v) ∧
    (Assoc.get? name groups = none → Assoc.get? name whole = Assoc.get? name fields) := by
  induction groups generalizing fields with
  | nil =>
    cases added
    refine ⟨fun _ found => ?_, fun _ => rfl⟩
    cases found
  | cons first rest ih =>
    obtain ⟨a, group⟩ := first
    have distinct : a ∉ Assoc.keys rest ∧ (Assoc.keys rest).Nodup := List.nodup_cons.1 distinct
    cases made : relation schema nested m a group with
    | error e =>
      rw [addRelations, List.foldlM_cons] at added
      simp only [made] at added
      cases added
    | ok v =>
      rw [addRelations_cons made] at added
      obtain ⟨related, kept⟩ := ih distinct.2 added
      rw [Assoc.get?]
      by_cases same : a = name
      · subst same
        have last := kept (Assoc.get?_eq_none_iff.2 distinct.1)
        rw [Assoc.get?_insert, if_pos rfl] at last
        rw [if_pos rfl]
        refine ⟨fun group' found => ?_, fun absent => by cases absent⟩
        cases found
        exact ⟨v, made, last⟩
      · rw [if_neg same]
        refine ⟨related, fun absent => ?_⟩
        rw [kept absent, Assoc.get?_insert, if_neg same]

theorem nodup_of_addRelations {nested : Model → Row → Result Entry} {groups : List (String × Row)}
    {fields whole : Row} (distinct : (Assoc.keys fields).Nodup)
    (added : addRelations schema nested m fields groups = .ok whole) :
    (Assoc.keys whole).Nodup := by
  induction groups generalizing fields with
  | nil =>
    cases added
    exact distinct
  | cons first rest ih =>
    cases made : relation schema nested m first.1 first.2 with
    | error e =>
      rw [addRelations, List.foldlM_cons] at added
      simp only [made] at added
      cases added
    | ok v =>
      rw [addRelations_cons made] at added
      exact ih (Assoc.keys_nodup_insert distinct) added

/-- **What an entry holds that is made of a row**: each field has the value of the relation of that
name if the row has columns for it, and otherwise what is loaded from the row itself. -/
theorem fields_of_entryWithin {depth : Nat} {row : Row} {e : Entry}
    (made : entryWithin schema config depth m row = .ok e) :
    ∃ less, depth = less + 1 ∧ (Assoc.keys e.fields).Nodup ∧ ∀ name,
      (∀ group, Assoc.get? name (Row.groups config row) = some group →
        ∃ v, relation schema (entryWithin schema config less) m name group = .ok v ∧
          e.get? name = some v) ∧
      (Assoc.get? name (Row.groups config row) = none →
        Option.Rel (Loads m name) (Assoc.get? name (Row.ownFields config row)) (e.get? name)) := by
  cases depth with
  | zero => cases made
  | succ less =>
    rw [entryWithin] at made
    obtain ⟨own, decoded, made⟩ := Result.exists_of_bind made
    obtain ⟨whole, added, made⟩ := Result.exists_of_bind made
    cases made
    have loads := loadsAll_of_decodeFields decoded
    have distinct : (Assoc.keys own).Nodup := loads.keys_eq ▸ Assoc.keys_nodup_ofList _
    have all : Entry.load m.name whole = ⟨m.name, whole, []⟩ := by
      rw [Entry.load, Assoc.ofList_of_nodup (nodup_of_addRelations distinct added)]
    rw [all]
    refine ⟨less, rfl, nodup_of_addRelations distinct added, fun name => ?_⟩
    obtain ⟨related, kept⟩ := get?_of_addRelations (Row.distinct_groups row).1 added name
    refine ⟨related, fun absent => ?_⟩
    show Option.Rel _ _ (Assoc.get? name whole)
    rw [kept absent]
    exact loads.rel_get? name

/-- A field of an entry that is made of a row is a relation or is loaded from a column. -/
theorem cases_of_get?_entryWithin {depth : Nat} {row : Row} {e : Entry}
    (made : entryWithin schema config depth m row = .ok e) {name : String} {v : Value}
    (found : e.get? name = some v) :
    (∃ less group, depth = less + 1 ∧ (name, group) ∈ Row.groups config row ∧
      relation schema (entryWithin schema config less) m name group = .ok v) ∨
    ∃ raw, (name, raw) ∈ Row.ownFields config row ∧ Loads m name raw v := by
  obtain ⟨less, deep, -, fields⟩ := fields_of_entryWithin made
  obtain ⟨related, own⟩ := fields name
  cases grouped : Assoc.get? name (Row.groups config row) with
  | some group =>
    obtain ⟨w, holds, there⟩ := related group grouped
    cases found.symm.trans there
    exact .inl ⟨less, group, deep, Assoc.mem_of_get? grouped, holds⟩
  | none =>
    have loads := own grouped
    rw [found] at loads
    generalize column : Assoc.get? name (Row.ownFields config row) = raw at loads
    cases loads with
    | some loads => exact .inr ⟨_, Assoc.mem_of_get? column, loads⟩

/-- What holds of ordinary values and of the values of a row holds of the entry that is made of it,
at every depth. -/
theorem everywhere_of_entryWithin {P : Value → Prop} (ordinary : ∀ v, v.IsOrdinary → P v)
    {depth : Nat} {row : Row} {e : Entry} (columns : ∀ column ∈ row, column.2.Everywhere P)
    (made : entryWithin schema config depth m row = .ok e) : (Value.entry e).Everywhere P := by
  induction depth generalizing m row e with
  | zero => cases made
  | succ depth ih =>
    obtain ⟨-, -, nodup, -⟩ := fields_of_entryWithin made
    refine Value.everywhere_entry.2
      ⟨ordinary _ (Value.isOrdinary_entry nodup), fun field mem => ?_⟩
    rcases cases_of_get?_entryWithin made (Assoc.get?_of_mem nodup mem) with
      ⟨less, group, deep, grouped, related⟩ | ⟨raw, own, loads⟩
    · cases deep
      obtain ⟨target, -, holds⟩ := cases_of_relation related
      have list : ∀ items, P (.list items) := fun items =>
        ordinary _ (Value.isOrdinary_of_bare rfl (by simp))
      split at holds
      · obtain ⟨inner, nested, holds⟩ := holds
        have entry := ih (fun column held => by
          obtain ⟨name, there, -⟩ := Row.exists_column_of_groups grouped held
          exact columns (name, column.2) there) nested
        rw [holds]
        split
        · exact Value.everywhere_list.2 ⟨list _, List.forall_mem_singleton.2 entry⟩
        · exact entry
      · rw [holds]
        split
        · exact Value.everywhere_list.2 ⟨list _, List.forall_mem_nil _⟩
        · exact ordinary _ (Value.isOrdinary_of_bare rfl (by simp))
    · obtain ⟨name, there, -⟩ := Row.exists_column_of_ownFields own
      unfold Loads at loads
      split at loads
      · exact Blob.everywhere_of_decodeColumn ordinary (columns _ there) loads
      · rw [loads]
        exact columns _ there

/-- What is made of a row with distinct names in its values has distinct names at every depth. -/
theorem distinctNames_of_entryWithin {depth : Nat} {row : Row} {e : Entry}
    (distinct : ∀ column ∈ row, column.2.DistinctNames)
    (made : entryWithin schema config depth m row = .ok e) : (Value.entry e).DistinctNames :=
  everywhere_of_entryWithin (fun _ ordinary => ordinary.distinct) distinct made

end Materialize

end RecordMapper
