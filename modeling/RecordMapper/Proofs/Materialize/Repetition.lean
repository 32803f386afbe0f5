import RecordMapper.Proofs.Materialize.Grouping

/-!
Rows that are repeated.

An entry absorbs another one if merging it changes no field (`Entry.Absorbs`); then merging it
changes nothing at all (`Entry.mergeLists_of_absorbs`). After a merge, the merged entry is absorbed
(`Entry.absorbs_mergeLists`), and it stays absorbed whatever is merged next
(`Entry.Absorbs.mergeLists`): a list never gives up an item, and a field that is no list never
becomes one. So the entry under a key absorbs what is made of each row under it, and rows that are
repeated leave a result as it is (`Materializer.entries_repeated`). Items are compared as data, so
that this needs items that equal themselves.
-/

namespace RecordMapper

namespace Entry

/-! ### Lists -/

theorem distinctItems_eq_nil_iff {items : List Value} : distinctItems items = [] ↔ items = [] := by
  cases items <;> simp [distinctItems, List.eraseDupsBy_cons]

/-- Nothing is appended to a list that has an equal item for each of the items. -/
theorem appendNew_eq_self_iff {existing items : List Value} :
    appendNew existing items = existing
      ↔ ∀ item ∈ items, existing.any (·.equals item) = true := by
  rw [appendNew_eq, List.append_right_eq_self, distinctItems_eq_nil_iff, List.filter_eq_nil_iff]
  simp

/-- A list that was appended holds an equal item for each of its items. -/
theorem appendNew_appendNew {existing items : List Value}
    (reflexive : ∀ item ∈ items, item.equals item = true) :
    appendNew (appendNew existing items) items = appendNew existing items := by
  refine appendNew_eq_self_iff.2 fun item mem => ?_
  obtain ⟨held, there, same⟩ := exists_equal_of_mem_items existing mem
  refine List.any_eq_true.2 ⟨held, there, ?_⟩
  rcases same with rfl | equal
  · exact reflexive held mem
  · exact equal

/-- Items that a list has equal ones for have equal ones in every longer list. -/
theorem appendNew_eq_self_of_subset {existing all items : List Value} (kept : existing ⊆ all)
    (absorbed : appendNew existing items = existing) : appendNew all items = all := by
  refine appendNew_eq_self_iff.2 fun item mem => ?_
  obtain ⟨held, there, equal⟩ := List.any_eq_true.1 (appendNew_eq_self_iff.1 absorbed item mem)
  exact List.any_eq_true.2 ⟨held, kept there, equal⟩

/-! ### Fields -/

/-- If the field is a list, its items equal themselves. -/
def Reflexive (field : Option Value) : Prop :=
  ∀ items, field = some (.list items) → ∀ item ∈ items, item.equals item = true

theorem mergeValue_self {field : Option Value} (reflexive : Reflexive field) :
    mergeValue field field = field := by
  by_cases isList : ∃ items, field = some (.list items)
  · obtain ⟨items, rfl⟩ := isList
    have absorbed : appendNew items items = items := appendNew_eq_self_iff.2 fun item mem =>
      List.any_eq_true.2 ⟨item, mem, reflexive items rfl item mem⟩
    rw [mergeValue, absorbed]
  · exact mergeValue_of_not_list (fun items same => isList ⟨items, same⟩) field

/-- What was merged into a field is absorbed by it. -/
theorem mergeValue_mergeValue_self (held : Option Value) {field : Option Value}
    (reflexive : Reflexive field) :
    mergeValue (mergeValue held field) field = mergeValue held field := by
  by_cases isList : ∃ items, field = some (.list items)
  · obtain ⟨items, rfl⟩ := isList
    rcases held with _ | held
    · exact mergeValue_self reflexive
    · cases held with
      | list existing =>
        rw [mergeValue, mergeValue, appendNew_appendNew (reflexive items rfl)]
      | _ => rfl
  · exact mergeValue_of_not_list (fun items same => isList ⟨items, same⟩) _

/-- What a field absorbs, it absorbs after every merge. -/
theorem mergeValue_mergeValue_of_absorbed {held field : Option Value}
    (absorbed : mergeValue held field = held) (other : Option Value) :
    mergeValue (mergeValue held other) field = mergeValue held other := by
  by_cases isList : ∃ items, field = some (.list items)
  · obtain ⟨items, rfl⟩ := isList
    rcases held with _ | held
    · cases absorbed
    · cases held with
      | list existing =>
        have absorbed : appendNew existing items = existing := by simpa [mergeValue] using absorbed
        by_cases more : ∃ new, other = some (.list new)
        · obtain ⟨new, rfl⟩ := more
          rw [mergeValue, mergeValue,
            appendNew_eq_self_of_subset (subset_appendNew existing new) absorbed]
        · rw [mergeValue_of_not_list fun new same => more ⟨new, same⟩, mergeValue, absorbed]
      | _ => rfl
  · exact mergeValue_of_not_list (fun items same => isList ⟨items, same⟩) _

/-- A field that absorbs a value is left as it is. -/
theorem mergeField_of_absorbed {fields : List (String × Value)} {name : String} {v : Value}
    (absorbed : mergeValue (Assoc.get? name fields) (some v) = Assoc.get? name fields) :
    mergeField fields name v = fields := by
  cases v with
  | list items =>
    rw [mergeField]
    cases found : Assoc.get? name fields with
    | none =>
      rw [found] at absorbed
      cases absorbed
    | some held =>
      rw [found] at absorbed
      cases held with
      | list existing =>
        have absorbed : appendNew existing items = existing := by simpa [mergeValue] using absorbed
        simp only [absorbed]
        exact Assoc.insert_of_get? found
      | _ => rfl
  | _ => rfl

/-! ### Entries -/

/-- Merging the other entry changes no field. -/
def Absorbs (held e : Entry) : Prop :=
  ∀ name, mergeValue (held.get? name) (e.get? name) = held.get? name

/-- What can be merged again: no name occurs twice, and the items of its lists equal themselves. -/
structure Mergeable (e : Entry) : Prop where
  distinct : (Assoc.keys e.fields).Nodup
  reflexive : ∀ name, Reflexive (e.get? name)

/-- An entry in which names are distinct and floats are numbers can be merged again. -/
theorem mergeable_of_ordinary {e : Entry} (ordinary : (Value.entry e).Everywhere Value.IsOrdinary) :
    e.Mergeable := by
  obtain ⟨own, fields⟩ := Value.everywhere_entry.1 ordinary
  refine ⟨own.distinct, fun name items found item mem => ?_⟩
  have list := Value.everywhere_list.1 (fields _ (Assoc.mem_of_get? found))
  exact item.equals_self (list.2 item mem)

/-- An entry that absorbs another one is not changed by it. -/
theorem mergeLists_of_absorbs {held e : Entry} (distinct : (Assoc.keys e.fields).Nodup)
    (absorbs : held.Absorbs e) : held.mergeLists e = held := by
  obtain ⟨model, fields, dirty⟩ := held
  have each : ∀ others : List (String × Value), others ⊆ e.fields →
      others.foldl (fun fields field => mergeField fields field.1 field.2) fields = fields := by
    intro others
    induction others with
    | nil => exact fun _ => rfl
    | cons field rest ih =>
      intro sub
      have first := absorbs field.1
      rw [show e.get? field.1 = some field.2 from
        Assoc.get?_of_mem distinct (sub (List.mem_cons_self ..))] at first
      rw [List.foldl_cons, mergeField_of_absorbed first]
      exact ih fun _ mem => sub (List.mem_cons_of_mem _ mem)
  exact congrArg (Entry.mk model · dirty) (each e.fields fun _ mem => mem)

theorem absorbs_self {e : Entry} (mergeable : e.Mergeable) : e.Absorbs e :=
  fun name => mergeValue_self (mergeable.reflexive name)

theorem absorbs_mergeLists (held : Entry) {e : Entry} (mergeable : e.Mergeable) :
    (held.mergeLists e).Absorbs e := fun name => by
  rw [get?_mergeLists held mergeable.distinct]
  exact mergeValue_mergeValue_self _ (mergeable.reflexive name)

theorem Absorbs.mergeLists {held e other : Entry} (absorbs : held.Absorbs e)
    (distinct : (Assoc.keys other.fields).Nodup) : (held.mergeLists other).Absorbs e :=
  fun name => by
    rw [get?_mergeLists held distinct]
    exact mergeValue_mergeValue_of_absorbed (absorbs name) _

/-- What was merged is absorbed, whatever is merged after it. -/
theorem absorbs_foldl_mergeLists {first : Entry} {others : List Entry}
    (distinct : ∀ other ∈ others, (Assoc.keys other.fields).Nodup) {e : Entry}
    (mergeable : e.Mergeable) (merged : first.Absorbs e ∨ e ∈ others) :
    (others.foldl Entry.mergeLists first).Absorbs e := by
  induction others generalizing first with
  | nil => exact merged.resolve_right List.not_mem_nil
  | cons other rest ih =>
    obtain ⟨here, later⟩ := List.forall_mem_cons.1 distinct
    refine ih later ?_
    rcases merged with absorbs | mem
    · exact .inl (absorbs.mergeLists here)
    · rcases List.mem_cons.1 mem with rfl | mem
      · exact .inl (absorbs_mergeLists first mergeable)
      · exact .inr mem

end Entry

/-! ### Results -/

theorem Entries.insertAt_of_absorbs {entries : Entries} {key : Key} {held e : Entry}
    (found : entries.get? key = some held) (distinct : (Assoc.keys e.fields).Nodup)
    (absorbs : held.Absorbs e) : entries.insertAt key e = entries := by
  have there : Assoc.contains key entries.items = true := Option.isSome_iff_exists.2 ⟨held, found⟩
  have kept := Assoc.modify_of_get? (f := fun held => held.mergeLists e) found
    (Entry.mergeLists_of_absorbs distinct absorbs)
  rw [insertAt, if_pos there, kept]

namespace Materializer

variable {p : Materializer} {rows more : List Row} {result : Entries}

/-- The row is made into an entry that the one under its key absorbs. -/
def Absorbs (p : Materializer) (result : Entries) (row : Row) : Prop :=
  ∃ key e held, p.key? row = some key ∧ p.entry row = .ok e ∧ e.Mergeable ∧
    result.get? key = some held ∧ held.Absorbs e

/-- **Every row with a key is absorbed by the result that it is in.** -/
theorem absorbs_of_mem (made : p.entries rows = .ok result) {row : Row} (mem : row ∈ rows)
    (ordinary : ∀ column ∈ row, column.2.Everywhere Value.IsOrdinary) {key : Key}
    (keyed : p.key? row = some key) : p.Absorbs result row := by
  have own : ∀ n, key ≠ .position n := fun n same => key?_ne_position row n (same ▸ keyed)
  have filed : row ∈ p.rowsUnder key rows := by
    rw [rowsUnder_key own]
    exact List.mem_filter.2 ⟨mem, by simpa using keyed⟩
  obtain ⟨held, e, found, ofRow⟩ := exists_get?_of_mem_rowsUnder made filed
  have mergeable : e.Mergeable := Entry.mergeable_of_ordinary
    (Materialize.everywhere_of_entryWithin (fun _ ordinary => ordinary) ordinary ofRow)
  refine ⟨key, e, held, keyed, ofRow, mergeable, found, ?_⟩
  obtain ⟨es, makes, merged⟩ := get?_entries made key
  rw [found] at merged
  cases es with
  | nil => cases merged
  | cons first others =>
    cases merged
    refine Entry.absorbs_foldl_mergeLists (fun other there => ?_) mergeable ?_
    · obtain ⟨row, -, ofOther⟩ := makes.exists_row (List.mem_cons_of_mem _ there)
      obtain ⟨-, -, distinct, -⟩ := Materialize.fields_of_entryWithin ofOther
      exact distinct
    · rcases List.mem_cons.1 (makes.mem filed ofRow) with rfl | there
      · exact .inl (Entry.absorbs_self mergeable)
      · exact .inr there

/-- Rows that a result absorbs are added without a change. -/
theorem addRows_of_absorbs (absorbs : ∀ row ∈ more, p.Absorbs result row) (count : Nat) :
    p.addRows count result more = .ok result := by
  induction more generalizing count with
  | nil => rfl
  | cons row rest ih =>
    obtain ⟨first, later⟩ := List.forall_mem_cons.1 absorbs
    obtain ⟨key, e, held, keyed, ofRow, mergeable, found, absorbed⟩ := first
    have kept : result.insert (p.key? row) e = result := by
      rw [keyed]
      exact Entries.insertAt_of_absorbs found mergeable.distinct absorbed
    rw [addRows, ofRow]
    show p.addRows (count + 1) (result.insert (p.key? row) e) rest = _
    rw [kept, ih later]

theorem addRows_append {count : Nat} {entries : Entries}
    (made : p.addRows count entries rows = .ok result) (more : List Row) :
    p.addRows count entries (rows ++ more) = p.addRows (count + rows.length) result more := by
  induction rows generalizing count entries with
  | nil =>
    cases made
    rfl
  | cons row rest ih =>
    rw [addRows] at made
    obtain ⟨e, ofRow, made⟩ := Result.exists_of_bind made
    rw [List.cons_append, addRows, ofRow, List.length_cons, Nat.add_comm rest.length 1,
      ← Nat.add_assoc]
    exact ih made

/-- **Repeating rows changes nothing**: where every row has a key, names are distinct in every value
and floats are numbers, rows that are in the list already leave the result as it was, however often
and in whatever order they come again. -/
theorem entries_repeated (p : Materializer) (rows : List Row)
    (ordinary : ∀ row ∈ rows, ∀ column ∈ row, column.2.Everywhere Value.IsOrdinary)
    (keyed : ∀ row ∈ rows, p.key? row ≠ none) {result : Entries}
    (made : p.entries rows = .ok result) :
    p.entries (rows ++ rows) = .ok result ∧
      ∀ more ⊆ rows, p.entries (rows ++ more) = .ok result := by
  have again : ∀ more ⊆ rows, p.entries (rows ++ more) = .ok result := by
    intro more sub
    rw [entries, addRows_append made]
    refine addRows_of_absorbs (fun row mem => ?_) _
    obtain ⟨key, own⟩ := Option.ne_none_iff_exists'.1 (keyed row (sub mem))
    exact absorbs_of_mem made (sub mem) (ordinary row (sub mem)) own
  exact ⟨again rows fun _ mem => mem, again⟩

/-- A row without a book stands between those of two books of an author: all three come again, and
the last one twice. -/
theorem entries_repeated_titles :
    ∃ result, Library.authors.entries [Library.titleRow 5, [("id", .int 1), ("books:id", .null)],
        Library.titleRow 6] = .ok result ∧
      Library.authors.entries [Library.titleRow 5, [("id", .int 1), ("books:id", .null)],
        Library.titleRow 6, Library.titleRow 6, [("id", .int 1), ("books:id", .null)],
        Library.titleRow 5, Library.titleRow 6] = .ok result := by
  let childless : Row := [("id", .int 1), ("books:id", .null)]
  have made : ∀ row ∈ [Library.titleRow 5, childless, Library.titleRow 6],
      ∃ e, Library.authors.entry row = .ok e := by
    simp only [List.forall_mem_cons]
    exact ⟨⟨_, rfl⟩, ⟨_, rfl⟩, ⟨_, rfl⟩, List.forall_mem_nil _⟩
  obtain ⟨result, all⟩ := exists_addRows made 0 {}
  have int : ∀ n, (Value.int n).Everywhere Value.IsOrdinary :=
    fun _ => Value.isOrdinary_of_bare rfl (by simp)
  have title : ∀ id, ∀ column ∈ Library.titleRow id, column.2.Everywhere Value.IsOrdinary := by
    intro id
    simp only [Library.titleRow, List.forall_mem_cons]
    exact ⟨int 1, Value.isOrdinary_of_bare rfl (by simp), int id, List.forall_mem_nil _⟩
  have ordinary : ∀ row ∈ [Library.titleRow 5, childless, Library.titleRow 6],
      ∀ column ∈ row, column.2.Everywhere Value.IsOrdinary := by
    simp only [List.forall_mem_cons, childless]
    exact ⟨title 5, ⟨int 1, Value.isOrdinary_of_bare rfl (by simp), List.forall_mem_nil _⟩, title 6,
      List.forall_mem_nil _⟩
  have keyed : ∀ row ∈ [Library.titleRow 5, childless, Library.titleRow 6],
      Library.authors.key? row ≠ none := by
    simp only [List.forall_mem_cons]
    exact ⟨Option.some_ne_none _, Option.some_ne_none _, Option.some_ne_none _, List.forall_mem_nil _⟩
  refine ⟨result, all, (entries_repeated Library.authors _ ordinary keyed all).2
    [Library.titleRow 6, childless, Library.titleRow 5, Library.titleRow 6] ?_⟩
  simp

end Materializer

end RecordMapper
