import RecordMapper.Proofs.Materialize.Rows

/-!
How deep the aliases of a row nest.

`Row.under` is the row of the columns under one alias, and `Row.get?_groups` finds it among the
groups. An alias takes at least one character off a column name as long as the separator is not
empty, so the longest column name bounds the nesting (`Row.longestName_under_lt`), whatever the
relations of the schema are and even if they lead back to where they started.

`Materialize.entryAbove` makes entries with a budget and with anything at its bottom. A budget that
is larger than the longest column name never reaches the bottom (`Materialize.entryAbove_eq_entry`):
materialization ends.
-/

namespace RecordMapper

variable {schema : Schema} {config : Config} {m : Model}

/-! ### Columns under an alias -/

/-- A column under the alias, without it. -/
def Column.under? (config : Config) (a : String) (column : String × Value) :
    Option (String × Value) :=
  match slot config column.1 with
  | .joined b rest => if b = a then some (rest, column.2) else none
  | _ => none

/-- An alias that is taken off leaves a shorter column name, unless the separator is empty. -/
theorem Column.length_lt_of_slot_joined (separated : config.aliasSeparator ≠ "")
    {name a rest : String} (joined : slot config name = .joined a rest) :
    rest.length < name.length := by
  have separator : 0 < config.aliasSeparator.toList.length :=
    List.length_pos_iff.2 fun empty => separated (String.toList_eq_nil_iff.1 empty)
  unfold slot at joined
  split at joined
  · cases joined
  · rename_i a' rest' split
    have whole : rest' = rest := by
      split at joined
      · split at joined <;> cases joined
      · cases joined
        rfl
    obtain ⟨⟨front, back⟩, parts, same⟩ := Option.map_eq_some_iff.1 split
    cases same
    have lengths := congrArg List.length (eq_append_of_splitFrom? parts)
    simp only [List.length_append] at lengths
    rw [← whole, ← String.length_toList, ← String.length_toList, String.toList_ofList]
    omega

namespace Row

/-- The columns under an alias, without it. -/
def under (config : Config) (a : String) (row : Row) : Row :=
  Assoc.ofList (row.filterMap (Column.under? config a))

/-- Some column of the row stands under the alias. -/
def HasAlias (config : Config) (row : Row) (a : String) : Prop :=
  ∃ column ∈ row, ∃ rest, Column.slot config column.1 = .joined a rest

theorem get?_foldl_addColumn (a : String) (row : Row) (groups : List (String × Row)) :
    Assoc.get? a (row.foldl (addColumn config) groups) =
      if row.filterMap (Column.under? config a) = [] then Assoc.get? a groups
      else some (Assoc.insertAll ((Assoc.get? a groups).getD [])
        (row.filterMap (Column.under? config a))) := by
  induction row generalizing groups with
  | nil => rfl
  | cons column rest ih =>
    rw [List.foldl_cons, ih, List.filterMap_cons]
    unfold addColumn Column.under?
    cases slot : Column.slot config column.1 with
    | own name => rfl
    | dropped => rfl
    | joined b left =>
      simp only [addJoined, Assoc.get?_insert]
      by_cases same : b = a
      · subst same
        simp only [reduceIte]
        split
        · rename_i none
          rw [none]
          rfl
        · rfl
      · simp only [if_neg same]

/-- The group of an alias holds the columns under it. -/
theorem get?_groups (a : String) (row : Row) :
    Assoc.get? a (groups config row) =
      if row.filterMap (Column.under? config a) = [] then none else some (under config a row) :=
  get?_foldl_addColumn a row []

theorem under?_ne_none_iff {a : String} {column : String × Value} :
    Column.under? config a column ≠ none ↔
      ∃ rest, Column.slot config column.1 = .joined a rest := by
  unfold Column.under?
  cases Column.slot config column.1 with
  | own name => simp
  | dropped => simp
  | joined b rest => by_cases same : b = a <;> simp [same]

theorem hasAlias_iff {a : String} {row : Row} :
    row.HasAlias config a ↔ row.filterMap (Column.under? config a) ≠ [] := by
  simp only [HasAlias, ← under?_ne_none_iff, ne_eq, List.filterMap_eq_nil_iff]
  push Not
  rfl

theorem get?_groups_of_hasAlias {a : String} {row : Row} (used : row.HasAlias config a) :
    Assoc.get? a (groups config row) = some (under config a row) := by
  rw [get?_groups, if_neg (hasAlias_iff.1 used)]

theorem get?_groups_eq_none {a : String} {row : Row} (unused : ¬ row.HasAlias config a) :
    Assoc.get? a (groups config row) = none := by
  rw [get?_groups, if_pos (not_not.1 fun some => unused (hasAlias_iff.2 some))]

theorem eq_under_of_mem_groups {a : String} {group row : Row}
    (mem : (a, group) ∈ groups config row) : row.HasAlias config a ∧ group = under config a row := by
  have found := Assoc.get?_of_mem (distinct_groups row).1 mem
  by_cases used : row.HasAlias config a
  · rw [get?_groups_of_hasAlias used] at found
    exact ⟨used, (Option.some.inj found).symm⟩
  · rw [get?_groups_eq_none used] at found
    cases found

/-- **Aliases make names shorter**: the columns under an alias have shorter names than the row. -/
theorem longestName_under_lt (separated : config.aliasSeparator ≠ "") {a : String} {row : Row}
    (used : row.HasAlias config a) : longestName (under config a row) < longestName row := by
  have shorter : ∀ column ∈ under config a row, column.1.length + 1 ≤ longestName row := by
    intro column held
    have grouped := Assoc.mem_of_get? (get?_groups_of_hasAlias used)
    obtain ⟨name, there, joined⟩ := exists_column_of_groups grouped held
    have longer := Column.length_lt_of_slot_joined separated joined
    have bounded : name.length ≤ longestName row :=
      Materialize.longestName_le_iff.1 (Nat.le_refl _) _ there
    omega
  obtain ⟨column, mem, rest, joined⟩ := used
  have positive := Column.length_lt_of_slot_joined separated joined
  have bounded := Materialize.longestName_le_iff.1 (Nat.le_refl (longestName row)) column mem
  have le : longestName (under config a row) ≤ longestName row - 1 :=
    Materialize.longestName_le_iff.2 fun column held => by
      have := shorter column held
      omega
  omega

end Row

/-! ### Budgets -/

namespace Materialize

variable {bottom bottom' nested nested' : Model → Row → Result Entry}

theorem relation_congr {a : String} {group : Row}
    (agree : ∀ target, nested target group = nested' target group) :
    relation schema nested m a group = relation schema nested' m a group := by
  unfold relation
  simp only [agree]

theorem addRelations_congr {groups : List (String × Row)} (fields : Row)
    (agree : ∀ a group, (a, group) ∈ groups → ∀ target, nested target group = nested' target group) :
    addRelations schema nested m fields groups = addRelations schema nested' m fields groups := by
  induction groups generalizing fields with
  | nil => rfl
  | cons first rest ih =>
    have others := fun fields => ih fields fun a group mem => agree a group (.tail _ mem)
    unfold addRelations at others ⊢
    rw [List.foldlM_cons, List.foldlM_cons]
    simp only [relation_congr (agree first.1 first.2 (.head _)), others]

/-- Makes an entry of a row with a budget: `bottom` makes those that are nested as deep as that. -/
def entryAbove (schema : Schema) (config : Config) (bottom : Model → Row → Result Entry) :
    (budget : Nat) → Model → Row → Result Entry
  | 0, m, row => bottom m row
  | budget + 1, m, row => do
    let fields ← decodeFields m (Row.ownFields config row)
    let fields ← addRelations schema (entryAbove schema config bottom budget) m fields
      (Row.groups config row)
    .ok (Entry.load m.name fields)

theorem entryWithin_eq (depth : Nat) :
    entryWithin schema config depth =
      entryAbove schema config (fun m _ => Error.throw (.schemaLookup (.field m.name ""))) depth := by
  induction depth with
  | zero => rfl
  | succ depth ih =>
    funext m row
    rw [entryWithin, entryAbove, ih]

/-- A row whose column names are shorter than two budgets is made into the same with both, whatever
is below. -/
theorem entryAbove_eq (separated : config.aliasSeparator ≠ "") {n : Nat} {row : Row}
    (short : row.longestName < n) {budget budget' : Nat} (enough : n ≤ budget)
    (enough' : n ≤ budget') (m : Model) :
    entryAbove schema config bottom budget m row = entryAbove schema config bottom' budget' m row := by
  induction n generalizing m row budget budget' with
  | zero => cases short
  | succ n ih =>
    obtain ⟨budget, rfl⟩ := Nat.exists_eq_succ_of_ne_zero (Nat.ne_zero_of_lt enough)
    obtain ⟨budget', rfl⟩ := Nat.exists_eq_succ_of_ne_zero (Nat.ne_zero_of_lt enough')
    have agree : ∀ a group, (a, group) ∈ Row.groups config row → ∀ target,
        entryAbove schema config bottom budget target group =
          entryAbove schema config bottom' budget' target group := by
      intro a group mem target
      obtain ⟨used, rfl⟩ := Row.eq_under_of_mem_groups mem
      have shorter := Row.longestName_under_lt separated used
      exact ih (by omega) (Nat.le_of_succ_le_succ enough) (Nat.le_of_succ_le_succ enough') target
    rw [entryAbove, entryAbove]
    simp only [addRelations_congr _ agree]

/-- **Materialization ends**: with a budget larger than the longest column name, what is at the
bottom has no part in the result. -/
theorem entryAbove_eq_entry (separated : config.aliasSeparator ≠ "") {row : Row} {budget : Nat}
    (enough : row.longestName < budget) (m : Model) :
    entryAbove schema config bottom budget m row = entry schema config m row := by
  rw [entry, entryWithin_eq]
  exact entryAbove_eq separated (Nat.lt_succ_self _) enough (Nat.le_refl _) m

end Materialize

end RecordMapper
