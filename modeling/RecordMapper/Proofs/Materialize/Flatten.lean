import Mathlib.Data.List.Forall2
import RecordMapper.Proofs.Materialize.Columns

/-!
Entries as rows.

`Entry.columns` lays an entry out as the row that a query with all its relations joined would
return: a plain field is a column, a nested entry gives its columns with the alias of the relation
in front, and a relation without a target gives the primary key column of the target as null.
`Entry.WellFormed` says which entries a row can describe at all. `Entry.LoadedAs` compares an entry
with the one that it was laid out from: nothing is changed in it, and its fields are those of the
other at every depth, in any order.
-/

namespace RecordMapper

/-! ### Laying out -/

mutual

/-- The columns of an entry of a model. -/
def Entry.columns (schema : Schema) (config : Config) (m : Model) : Entry → Row
  | ⟨_, fields, _⟩ => fieldColumns schema config m fields

/-- The columns of the fields of an entry. -/
def fieldColumns (schema : Schema) (config : Config) (m : Model) : List (String × Value) → Row
  | [] => []
  | (name, v) :: rest =>
    (match schema.relationTarget m name with
      | .ok target =>
        (v.relatedColumns schema config target).map fun (column, x) =>
          (config.prefixed name column, x)
      | .error _ => [(name, v)])
    ++ fieldColumns schema config m rest

/-- The columns of the value of a relation, without the alias. -/
def Value.relatedColumns (schema : Schema) (config : Config) (target : Model) : Value → Row
  | .entry e => e.columns schema config target
  | .list items => itemColumns schema config target items
  | _ => [(target.primaryKey, .null)]

/-- The columns of the items of a relation with many targets, of which a row holds one. -/
def itemColumns (schema : Schema) (config : Config) (target : Model) : List Value → Row
  | [] => [(target.primaryKey, .null)]
  | v :: _ => v.relatedColumns schema config target

end

/-! ### Entries that rows describe -/

/-- The model relates this field to another model. -/
def Model.isRelation (m : Model) (name : String) : Bool :=
  (m.field? name).any fun f => f.type.isRelation

/-- The model relates this field to any number of others. -/
def Model.isMany (m : Model) (name : String) : Bool :=
  (m.field? name).any fun f => f.type.isMany

/-- The field is a column of its own: its name does not hold the separator, and the model declares
it neither as serialized nor as a relation. -/
structure Model.IsPlain (config : Config) (m : Model) (name : String) : Prop where
  unseparated : config.Unseparated name
  not_serialized : m.isSerialized name = false
  not_relation : m.isRelation name = false

/-- The field relates the model to the target, under an alias that columns can carry. -/
structure Model.Relates (schema : Schema) (config : Config) (m : Model) (name : String)
    (target : Model) : Prop where
  target : schema.relationTarget m name = .ok target
  not_self : name ≠ config.selfAlias
  isAlias : config.IsAlias name

/-- The columns of the entry show that there is one: the primary key is among its plain fields, and
some column is not empty. -/
structure Entry.IsJoined (schema : Schema) (config : Config) (m : Model) (e : Entry) : Prop where
  primaryKey : m.primaryKey ∈ Assoc.keys e.fields
  primaryKey_plain : m.IsPlain config m.primaryKey
  nonempty : ∃ column ∈ e.columns schema config m, column.2.isEmpty = false

mutual

/-- The entry is one of the model, each of its fields is plain or holds what the relation may, and
so do the entries nested in it. -/
def Entry.WellFormed (schema : Schema) (config : Config) (m : Model) : Entry → Prop
  | ⟨model, fields, _⟩ =>
    model = m.name ∧ (Assoc.keys fields).Nodup ∧ WellFormedFields schema config m fields

/-- Each of the fields is plain or holds what the relation may. -/
def WellFormedFields (schema : Schema) (config : Config) (m : Model) :
    List (String × Value) → Prop
  | [] => True
  | (name, v) :: rest =>
    (m.IsPlain config name ∨
      ∃ target, m.Relates schema config name target ∧
        v.FitsRelation schema config (m.isMany name) target)
    ∧ WellFormedFields schema config m rest

/-- A relation to one target holds null or an entry of it, and a relation to many targets a list
that one row can describe. -/
def Value.FitsRelation (schema : Schema) (config : Config) (many : Bool) (target : Model) :
    Value → Prop
  | .null => many = false
  | .entry e =>
    many = false ∧ e.WellFormed schema config target ∧ e.IsJoined schema config target
  | .list items => many = true ∧ FitItems schema config target items
  | _ => False

/-- There is at most one item, which is an entry of the target. -/
def FitItems (schema : Schema) (config : Config) (target : Model) : List Value → Prop
  | [] => True
  | v :: rest =>
    rest = [] ∧ v.isNull = false ∧ v.FitsRelation schema config false target

end

/-! ### Entries that were laid out -/

/-- The first value is the second one as it is loaded: entries in it are unchanged, and have the
fields of the others in any order. -/
inductive Value.LoadedAs : Value → Value → Prop
  | same (v : Value) : v.LoadedAs v
  | list {items others : List Value} (all : List.Forall₂ Value.LoadedAs items others) :
    (Value.list items).LoadedAs (.list others)
  | entry {model : String} {fields others : List (String × Value)} {dirty : List String}
    (all : ∀ name, Option.Rel Value.LoadedAs (Assoc.get? name fields) (Assoc.get? name others)) :
    (Value.entry ⟨model, fields, []⟩).LoadedAs (.entry ⟨model, others, dirty⟩)

/-- The first entry is the second one as it is loaded: of the same model, unchanged, and with the
same fields at every depth, in any order. -/
structure Entry.LoadedAs (e other : Entry) : Prop where
  model : e.model = other.model
  unchanged : e.dirty = []
  fields : ∀ name, Option.Rel Value.LoadedAs (e.get? name) (other.get? name)

theorem Entry.LoadedAs.value {e other : Entry} (loaded : e.LoadedAs other) :
    (Value.entry e).LoadedAs (.entry other) := by
  obtain ⟨model, fields, dirty⟩ := e
  obtain ⟨otherModel, others, otherDirty⟩ := other
  obtain ⟨sameModel, unchanged, all⟩ := loaded
  simp only at sameModel unchanged
  subst sameModel unchanged
  exact .entry all

end RecordMapper
