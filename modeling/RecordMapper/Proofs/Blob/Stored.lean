import RecordMapper.Blob
import RecordMapper.Proofs.Value.Everywhere

/-!
What a serialized column keeps of a value.

`Value.stored` is the value that comes back: at every depth, records and entries lose their null
fields and entries become records; the items of lists stay, null or not. Nothing is lost twice
(`Value.stored_stored`).
-/

namespace RecordMapper

mutual

/-- What is kept of a value. -/
def Value.stored : Value → Value
  | .null => .null
  | .bool b => .bool b
  | .int n => .int n
  | .float x => .float x
  | .string s => .string s
  | .list items => .list (storedItems items)
  | .record fields => .record (storedFields fields)
  | .entry e => .record e.storedFields

/-- What is kept of the fields of an entry. -/
def Entry.storedFields : Entry → List (String × Value)
  | ⟨_, fields, _⟩ => RecordMapper.storedFields fields

/-- What is kept of the items of a list. -/
def storedItems : List Value → List Value
  | [] => []
  | v :: rest => v.stored :: storedItems rest

/-- What is kept of fields: the ones that are not null. -/
def storedFields : List (String × Value) → List (String × Value)
  | [] => []
  | (name, v) :: rest =>
    if v.isNull then storedFields rest else (name, v.stored) :: storedFields rest

end

/-- Nothing becomes null in a column, and null does not become anything else. -/
@[simp] theorem Value.isNull_stored (v : Value) : v.stored.isNull = v.isNull := by
  cases v <;> rfl

/-- The names that are kept stand in their order. -/
theorem keys_storedFields_sublist (fields : List (String × Value)) :
    (Assoc.keys (storedFields fields)).Sublist (Assoc.keys fields) := by
  induction fields with
  | nil => exact .slnil
  | cons field rest ih =>
    obtain ⟨name, v⟩ := field
    rw [storedFields]
    split
    · exact ih.cons name
    · exact ih.cons_cons name

mutual

/-- What a column keeps is kept again. -/
theorem Value.stored_stored (v : Value) : v.stored.stored = v.stored := by
  cases v with
  | list items => rw [Value.stored, Value.stored, storedItems_storedItems items]
  | record fields => rw [Value.stored, Value.stored, storedFields_storedFields fields]
  | entry e =>
    obtain ⟨model, fields, dirty⟩ := e
    rw [Value.stored, Value.stored, Entry.storedFields, storedFields_storedFields fields]
  | null => rfl
  | bool b => rfl
  | int n => rfl
  | float x => rfl
  | string s => rfl

theorem storedItems_storedItems (items : List Value) :
    storedItems (storedItems items) = storedItems items := by
  cases items with
  | nil => rfl
  | cons v rest =>
    rw [storedItems, storedItems, Value.stored_stored v, storedItems_storedItems rest]

theorem storedFields_storedFields (fields : List (String × Value)) :
    storedFields (storedFields fields) = storedFields fields := by
  cases fields with
  | nil => rfl
  | cons field rest =>
    obtain ⟨name, v⟩ := field
    have others := storedFields_storedFields rest
    by_cases null : v.isNull
    · rw [storedFields, if_pos null, others]
    · rw [storedFields, if_neg null, storedFields, v.isNull_stored, if_neg null,
        Value.stored_stored v, others]

end

/-! ### What a column keeps has the properties of the value -/

section Everywhere

variable {P : Value → Prop}

mutual

/-- A property that no value loses in a column is not lost in any part of one. -/
theorem Value.everywhere_stored (kept : ∀ w, P w → P w.stored) (v : Value)
    (all : v.Everywhere P) : v.stored.Everywhere P := by
  cases v with
  | null => exact all
  | bool b => exact all
  | int n => exact all
  | float x => exact all
  | string s => exact all
  | list items => exact ⟨kept _ all.1, everywhere_storedItems kept items all.2⟩
  | record fields => exact ⟨kept _ all.1, everywhere_storedFields kept fields all.2⟩
  | entry e =>
    obtain ⟨model, fields, dirty⟩ := e
    exact ⟨kept _ all.1, everywhere_storedFields kept fields all.2⟩

theorem everywhere_storedItems (kept : ∀ w, P w → P w.stored) (items : List Value)
    (all : EverywhereItems P items) :
    EverywhereItems P (storedItems items) := by
  cases items with
  | nil => trivial
  | cons v rest =>
    exact ⟨Value.everywhere_stored kept v all.1, everywhere_storedItems kept rest all.2⟩

theorem everywhere_storedFields (kept : ∀ w, P w → P w.stored)
    (fields : List (String × Value)) (all : EverywhereFields P fields) :
    EverywhereFields P (storedFields fields) := by
  cases fields with
  | nil => trivial
  | cons field rest =>
    obtain ⟨name, v⟩ := field
    rw [storedFields]
    split
    · exact everywhere_storedFields kept rest all.2
    · exact ⟨Value.everywhere_stored kept v all.1, everywhere_storedFields kept rest all.2⟩

end

end Everywhere

theorem Value.FloatFree.stored {v : Value} (floatFree : v.FloatFree) : v.stored.FloatFree := by
  refine Value.everywhere_stored ?_ v floatFree
  intro w other
  cases w with
  | entry e => exact nofun
  | _ => exact other

end RecordMapper
