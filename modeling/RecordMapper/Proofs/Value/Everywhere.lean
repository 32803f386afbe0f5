import RecordMapper.Value.Basic

/-!
What holds of a value and of all the values in it.

`Value.Everywhere` takes a property of values through lists, records and entries. Two of these are
named: a value that holds no floating-point number, and one in which no record and no entry has two
fields of one name. The second is an invariant of every field list that is built by insertion.
`Value.depth` counts how deep lists, records and entries nest.
-/

namespace RecordMapper

/-! ### Properties of all parts -/

mutual

/-- The property holds of the value and of every value in it. -/
def Value.Everywhere (P : Value → Prop) : Value → Prop
  | .null => P .null
  | .bool b => P (.bool b)
  | .int n => P (.int n)
  | .float x => P (.float x)
  | .string s => P (.string s)
  | .list items => P (.list items) ∧ EverywhereItems P items
  | .record fields => P (.record fields) ∧ EverywhereFields P fields
  | .entry e => P (.entry e) ∧ e.Everywhere P

/-- The property holds of every value in the fields of the entry. -/
def Entry.Everywhere (P : Value → Prop) : Entry → Prop
  | ⟨_, fields, _⟩ => EverywhereFields P fields

/-- The property holds of every value in the items. -/
def EverywhereItems (P : Value → Prop) : List Value → Prop
  | [] => True
  | v :: rest => v.Everywhere P ∧ EverywhereItems P rest

/-- The property holds of every value in the fields. -/
def EverywhereFields (P : Value → Prop) : List (String × Value) → Prop
  | [] => True
  | (_, v) :: rest => v.Everywhere P ∧ EverywhereFields P rest

end

/-- The fields of a record or an entry; other values have none. -/
def Value.ownFields : Value → List (String × Value)
  | .record fields => fields
  | .entry e => e.fields
  | _ => []

/-- There is no floating-point number in the value. -/
def Value.FloatFree (v : Value) : Prop :=
  v.Everywhere fun w => w.kind ≠ .float

/-- No record and no entry in the value has two fields of one name. -/
def Value.DistinctNames (v : Value) : Prop :=
  v.Everywhere fun w => (Assoc.keys w.ownFields).Nodup

/-! ### Depth -/

mutual

/-- How deep lists, records and entries nest. -/
def Value.depth : Value → Nat
  | .list items => depthOfItems items + 1
  | .record fields => depthOfFields fields + 1
  | .entry e => e.depth
  | .null => 0
  | .bool _ => 0
  | .int _ => 0
  | .float _ => 0
  | .string _ => 0

/-- The depth of an entry, which counts itself. -/
def Entry.depth : Entry → Nat
  | ⟨_, fields, _⟩ => depthOfFields fields + 1

/-- The greatest depth of the items. -/
def depthOfItems : List Value → Nat
  | [] => 0
  | v :: rest => max v.depth (depthOfItems rest)

/-- The greatest depth of the fields. -/
def depthOfFields : List (String × Value) → Nat
  | [] => 0
  | (_, v) :: rest => max v.depth (depthOfFields rest)

end

end RecordMapper
