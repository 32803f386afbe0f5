import RecordMapper.Value.Basic

/-!
Operations on entries: reading and changing fields, and merging.

Setting a field marks it as changed until `clearDirty`; merging another entry into one appends the
items of its lists and marks nothing.
-/

namespace RecordMapper.Entry

/-- An entry with no loaded fields. -/
def new (model : String) : Entry :=
  ⟨model, [], []⟩

/-- An entry with the given fields loaded and none changed. -/
def load (model : String) (fields : List (String × Value)) : Entry :=
  ⟨model, Assoc.ofList fields, []⟩

/-! ### Reading -/

/-- The value of a loaded field. -/
def get? (e : Entry) (name : String) : Option Value :=
  Assoc.get? name e.fields

/-- The nested entry of a relation field. -/
def relation? (e : Entry) (name : String) : Option Entry :=
  (e.get? name).bind Value.entry?

/-- The field has a value, null included. -/
def isLoaded (e : Entry) (name : String) : Bool :=
  Assoc.contains name e.fields

/-- The field was set since the entry was last clean. -/
def isDirty (e : Entry) (name : String) : Bool :=
  e.dirty.contains name

/-- The changed fields with their values, in the order in which they were set. -/
def dirtyFields (e : Entry) : List (String × Value) :=
  e.dirty.filterMap fun name => (e.get? name).map fun value => (name, value)

/-- The names of the loaded fields in order. -/
def fieldNames (e : Entry) : List String :=
  Assoc.keys e.fields

/-! ### Changing -/

/-- Sets a field and marks it as changed. -/
def set (e : Entry) (name : String) (value : Value) : Entry :=
  { e with
    fields := Assoc.insert name value e.fields
    dirty := if e.dirty.contains name then e.dirty else e.dirty ++ [name] }

/-- Takes a field out, so that it is neither loaded nor changed. -/
def unset (e : Entry) (name : String) : Entry :=
  { e with fields := Assoc.erase name e.fields, dirty := e.dirty.erase name }

/-- Forgets which fields were changed. -/
def clearDirty (e : Entry) : Entry :=
  { e with dirty := [] }

/-! ### Merging -/

/-- Appends the items that the list does not hold yet, one after the other. -/
def appendNew (existing items : List Value) : List Value :=
  items.foldl (fun held item => if held.any (·.equals item) then held else held ++ [item]) existing

/-- Merges one field of another entry: a list is appended to the list of that name, or becomes a
new field; a field that holds something else stays as it is, and other values are left out. -/
def mergeField (fields : List (String × Value)) (name : String) : Value → List (String × Value)
  | .list items =>
    match Assoc.get? name fields with
    | some (.list existing) => Assoc.insert name (.list (appendNew existing items)) fields
    | some _ => fields
    | none => Assoc.insert name (.list items) fields
  | _ => fields

/-- Appends the list items of another entry to the lists of this one. Several rows of a result
describe one entry with different joined children. -/
def mergeLists (e other : Entry) : Entry :=
  { e with fields := other.fields.foldl (fun fields (name, v) => mergeField fields name v) e.fields }

end RecordMapper.Entry
