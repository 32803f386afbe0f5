import Mathlib.Data.List.Nodup
import Mathlib.Data.List.Perm.Subperm
import RecordMapper.Blob
import RecordMapper.Entry
import RecordMapper.Proofs.Number.NaN
import RecordMapper.Proofs.Value.Everywhere

/-!
Values in which names are distinct, and floats are numbers.

A decoded document has distinct names at every depth, since a later member of an object takes the
place of an earlier one, and its floats are numbers; so what holds of such values and of the columns
of a row holds of what is read from a column (`Blob.everywhere_of_decodeColumn`). Equality asks for
every field of the first value in the second; where names are distinct, as many fields are the same
fields, so that every field of the second value has an equal one in the first
(`Entry.exists_get?_of_equals`), and where floats are numbers, too, a value equals itself
(`Value.equals_self`).
-/

namespace RecordMapper

/-! ### Item by item and field by field -/

section Everywhere

variable {P : Value → Prop}

theorem everywhereItems_iff {items : List Value} :
    EverywhereItems P items ↔ ∀ v ∈ items, v.Everywhere P := by
  induction items with
  | nil => simp [EverywhereItems]
  | cons v rest ih => rw [EverywhereItems, ih, List.forall_mem_cons]

theorem everywhereFields_iff {fields : List (String × Value)} :
    EverywhereFields P fields ↔ ∀ field ∈ fields, field.2.Everywhere P := by
  induction fields with
  | nil => simp [EverywhereFields]
  | cons field rest ih => rw [EverywhereFields, ih, List.forall_mem_cons]

end Everywhere

namespace Value

section Everywhere

variable {P : Value → Prop}

theorem everywhere_list {items : List Value} :
    (Value.list items).Everywhere P ↔ P (.list items) ∧ ∀ v ∈ items, v.Everywhere P :=
  and_congr_right' everywhereItems_iff

theorem everywhere_record {fields : List (String × Value)} :
    (Value.record fields).Everywhere P
      ↔ P (.record fields) ∧ ∀ field ∈ fields, field.2.Everywhere P :=
  and_congr_right' everywhereFields_iff

theorem everywhere_entry {e : Entry} :
    (Value.entry e).Everywhere P ↔ P (.entry e) ∧ ∀ field ∈ e.fields, field.2.Everywhere P := by
  obtain ⟨model, fields, dirty⟩ := e
  exact and_congr_right' everywhereFields_iff

end Everywhere

theorem distinctNames_list {items : List Value} :
    (Value.list items).DistinctNames ↔ ∀ v ∈ items, v.DistinctNames :=
  everywhere_list.trans (and_iff_right (List.nodup_nil (α := String)))

theorem distinctNames_entry {e : Entry} :
    (Value.entry e).DistinctNames
      ↔ (Assoc.keys e.fields).Nodup ∧ ∀ field ∈ e.fields, field.2.DistinctNames :=
  everywhere_entry

theorem DistinctNames.of_get? {e : Entry} (distinct : (Value.entry e).DistinctNames) {name : String}
    {v : Value} (found : e.get? name = some v) : v.DistinctNames :=
  (distinctNames_entry.1 distinct).2 _ (Assoc.mem_of_get? found)

end Value

/-! ### Decoded documents -/

/-- Taken by itself, the value has no two fields of one name, and is no float but a number. -/
structure Value.IsOrdinary (v : Value) : Prop where
  distinct : (Assoc.keys v.ownFields).Nodup
  number : ∀ x, v = .float x → x.isNaN = false

/-- What has no fields and is no float is ordinary. -/
theorem Value.isOrdinary_of_bare {v : Value} (bare : v.ownFields = [])
    (notFloat : ∀ x, v ≠ .float x) : v.IsOrdinary where
  distinct := by
    rw [bare]
    exact List.nodup_nil
  number x same := absurd same (notFloat x)

theorem Value.isOrdinary_record {fields : List (String × Value)}
    (distinct : (Assoc.keys fields).Nodup) : (Value.record fields).IsOrdinary :=
  ⟨distinct, fun _ same => by cases same⟩

theorem Value.isOrdinary_entry {e : Entry} (distinct : (Assoc.keys e.fields).Nodup) :
    (Value.entry e).IsOrdinary :=
  ⟨distinct, fun _ same => by cases same⟩

namespace Blob

variable {P : Value → Prop}

mutual

/-- What holds of ordinary values holds of the value of a document at every depth. -/
theorem everywhere_of_value? (ordinary : ∀ v, v.IsOrdinary → P v) (d : Document) {v : Value}
    (means : value? d = some v) : v.Everywhere P := by
  cases d with
  | null =>
    cases means
    exact ordinary _ (Value.isOrdinary_of_bare rfl (by simp))
  | bool b =>
    cases means
    exact ordinary _ (Value.isOrdinary_of_bare rfl (by simp))
  | number n =>
    rcases Numeral.cases_of_value? means with ⟨k, rfl⟩ | ⟨x, rfl, number⟩
    · exact ordinary _ (Value.isOrdinary_of_bare rfl (by simp))
    · exact ordinary _ ⟨List.nodup_nil, fun y same => by cases same; exact number⟩
  | string parts =>
    obtain ⟨t, -, rfl⟩ := Option.map_eq_some_iff.1 means
    exact ordinary _ (Value.isOrdinary_of_bare rfl (by simp))
  | array items =>
    obtain ⟨vs, all, rfl⟩ := Option.map_eq_some_iff.1 means
    exact Value.everywhere_list.2 ⟨ordinary _ (Value.isOrdinary_of_bare rfl (by simp)),
      everywhere_of_values? ordinary items all⟩
  | object members =>
    obtain ⟨fields, all, rfl⟩ := Option.map_eq_some_iff.1 means
    refine Value.everywhere_record.2
      ⟨ordinary _ (Value.isOrdinary_record (Assoc.keys_nodup_ofList _)), fun field mem => ?_⟩
    exact everywhere_of_fields? ordinary members all field (Assoc.mem_ofList mem)

theorem everywhere_of_values? (ordinary : ∀ v, v.IsOrdinary → P v) (items : List Document)
    {vs : List Value} (mean : values? items = some vs) : ∀ v ∈ vs, v.Everywhere P := by
  cases items with
  | nil => cases mean; exact List.forall_mem_nil _
  | cons d rest =>
    obtain ⟨v, first, mean⟩ := Option.bind_eq_some_iff.1 mean
    obtain ⟨others, remaining, mean⟩ := Option.bind_eq_some_iff.1 mean
    cases mean
    exact List.forall_mem_cons.2
      ⟨everywhere_of_value? ordinary d first, everywhere_of_values? ordinary rest remaining⟩

theorem everywhere_of_fields? (ordinary : ∀ v, v.IsOrdinary → P v)
    (members : List (List StringPart × Document)) {fields : List (String × Value)}
    (mean : fields? members = some fields) :
    ∀ field ∈ fields, field.2.Everywhere P := by
  cases members with
  | nil => cases mean; exact List.forall_mem_nil _
  | cons member rest =>
    obtain ⟨key, d⟩ := member
    obtain ⟨name, -, mean⟩ := Option.bind_eq_some_iff.1 mean
    obtain ⟨v, first, mean⟩ := Option.bind_eq_some_iff.1 mean
    obtain ⟨others, remaining, mean⟩ := Option.bind_eq_some_iff.1 mean
    cases mean
    exact List.forall_mem_cons.2
      ⟨everywhere_of_value? ordinary d first, everywhere_of_fields? ordinary rest remaining⟩

end

/-- What holds of ordinary values and of a column holds of what is read from the column. -/
theorem everywhere_of_decodeColumn (ordinary : ∀ v, v.IsOrdinary → P v) {raw v : Value}
    (holds : raw.Everywhere P) (read : decodeColumn raw = .ok v) : v.Everywhere P := by
  unfold decodeColumn at read
  split at read
  · cases read
    exact ordinary _ (Value.isOrdinary_of_bare rfl (by simp))
  · split at read
    · rename_i text
      unfold decode at read
      simp only at read
      split at read
      · rename_i found
        cases read
        obtain ⟨d, -, found⟩ := Option.bind_eq_some_iff.1 found
        split at found
        · exact everywhere_of_value? ordinary d found
        · cases found
      · cases read
    · cases read
      exact holds
    · cases read
      exact holds
    · cases read

end Blob

/-! ### Equality -/

theorem equalFields_iff {fields others : List (String × Value)} :
    equalFields fields others = true ↔
      ∀ field ∈ fields, ∃ v, Assoc.get? field.1 others = some v ∧ field.2.equals v = true := by
  induction fields with
  | nil => simp [equalFields]
  | cons field rest ih =>
    obtain ⟨name, a⟩ := field
    rw [equalFields, Bool.and_eq_true, ih, List.forall_mem_cons]
    refine and_congr_left' ?_
    cases Assoc.get? name others with
    | none => simp
    | some v => simp

/-- Fields with distinct names equal themselves if their values do. -/
theorem equalFields_self {fields : List (String × Value)} (distinct : (Assoc.keys fields).Nodup)
    (equal : ∀ field ∈ fields, field.2.equals field.2 = true) : equalFields fields fields = true :=
  equalFields_iff.2 fun field mem => ⟨field.2, Assoc.get?_of_mem distinct mem, equal field mem⟩

mutual

/-- A value in which names are distinct and floats are numbers equals itself. -/
theorem Value.equals_self (v : Value) (ordinary : v.Everywhere Value.IsOrdinary) :
    v.equals v = true := by
  cases v with
  | float x =>
    rw [Value.equals]
    exact beq_self_of_isNaN_eq_false (Value.IsOrdinary.number ordinary x rfl)
  | list items =>
    rw [Value.equals]
    exact equalItems_self items ordinary.2
  | record fields =>
    rw [Value.equals, beq_self_eq_true, Bool.true_and]
    exact equalFields_self ordinary.1.distinct (equals_self_of_fields fields ordinary.2)
  | entry e =>
    obtain ⟨model, fields, dirty⟩ := e
    have equal : equalFields fields fields = true :=
      equalFields_self ordinary.1.distinct (equals_self_of_fields fields ordinary.2)
    simp [Value.equals, Entry.equals, equal]
  | _ => simp [Value.equals]

theorem equalItems_self (items : List Value) (ordinary : EverywhereItems Value.IsOrdinary items) :
    equalItems items items = true := by
  cases items with
  | nil => simp [equalItems]
  | cons v rest =>
    rw [equalItems, Value.equals_self v ordinary.1, equalItems_self rest ordinary.2]
    rfl

theorem equals_self_of_fields (fields : List (String × Value))
    (ordinary : EverywhereFields Value.IsOrdinary fields) :
    ∀ field ∈ fields, field.2.equals field.2 = true := by
  cases fields with
  | nil => exact List.forall_mem_nil _
  | cons field rest =>
    exact List.forall_mem_cons.2
      ⟨Value.equals_self field.2 ordinary.1, equals_self_of_fields rest ordinary.2⟩

end

/-- Items that are equal are so in order. -/
theorem exists_equal_of_equalItems {items others : List Value}
    (equal : equalItems items others = true) {y : Value} (mem : y ∈ others) :
    ∃ x ∈ items, x.equals y = true := by
  induction items generalizing others with
  | nil =>
    cases others with
    | nil => cases mem
    | cons z rest => simp [equalItems] at equal
  | cons x items ih =>
    cases others with
    | nil => cases mem
    | cons z rest =>
      rw [equalItems, Bool.and_eq_true] at equal
      rcases List.mem_cons.1 mem with rfl | mem
      · exact ⟨x, List.mem_cons_self .., equal.1⟩
      · obtain ⟨w, there, same⟩ := ih equal.2 mem
        exact ⟨w, List.mem_cons_of_mem _ there, same⟩

/-- An entry with distinct names has a field for every field of an entry that it equals. -/
theorem Entry.exists_get?_of_equals {e other : Entry} (distinct : (Assoc.keys e.fields).Nodup)
    (equal : e.equals other = true) {name : String} {w : Value}
    (found : other.get? name = some w) : ∃ v, e.get? name = some v ∧ v.equals w = true := by
  obtain ⟨model, fields, dirty⟩ := e
  simp only [Entry.equals, Bool.and_eq_true, beq_iff_eq] at equal
  obtain ⟨⟨-, lengths, equal⟩, -⟩ := equal
  rw [equalFields_iff] at equal
  have included : Assoc.keys fields ⊆ Assoc.keys other.fields := by
    intro key mem
    obtain ⟨field, held, rfl⟩ := List.mem_map.1 mem
    obtain ⟨v, there, -⟩ := equal field held
    exact List.mem_map.2 ⟨_, Assoc.mem_of_get? there, rfl⟩
  -- as many distinct names leave no other name
  have same : (Assoc.keys fields).Perm (Assoc.keys other.fields) :=
    (distinct.subperm included).perm_of_length_le (by simp [Assoc.keys, lengths])
  have named : name ∈ Assoc.keys fields :=
    same.mem_iff.2 (List.mem_map.2 ⟨_, Assoc.mem_of_get? found, rfl⟩)
  obtain ⟨⟨key, v⟩, mem, rfl : key = name⟩ := List.mem_map.1 named
  obtain ⟨w', there, equals⟩ := equal _ mem
  cases found.symm.trans there
  exact ⟨v, Assoc.get?_of_mem distinct mem, equals⟩

end RecordMapper
