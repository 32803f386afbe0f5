import RecordMapper.Error

/-!
Schemas: the models that an application maps to tables.

A model has fields, of which one is its primary key; a field holds data of a type or relates the
model to another one. A schema holds models under their names in the order in which they were
registered. `Schema.verify` checks that every primary key is a field and every relation points at a
registered model.
-/

namespace RecordMapper

/-! ### Fields -/

/-- What a field holds. -/
inductive FieldType where
  | primitive (type : DataType)
  /-- The model stores the key of one target, in the field that is named. -/
  | belongsTo (target foreignKey : String)
  /-- At most one target stores the key of the model. -/
  | hasOne (target : String)
  /-- Any number of targets store the key of the model. -/
  | hasMany (target : String)
  deriving DecidableEq, Repr

namespace FieldType

/-- The model that a relation points at. -/
def target? : FieldType → Option String
  | primitive _ => none
  | belongsTo target _ => some target
  | hasOne target => some target
  | hasMany target => some target

/-- The field relates the model to another one. -/
def isRelation (type : FieldType) : Bool :=
  type.target?.isSome

/-- The field relates the model to any number of others. -/
def isMany : FieldType → Bool
  | hasMany _ => true
  | _ => false

/-- The field is stored as an encoded document. -/
def isSerialized : FieldType → Bool
  | primitive .serialized => true
  | _ => false

/-- Whether a field of the type may be null unless something else is said: relations to one target
and serialized data may. -/
def nullableByDefault : FieldType → Bool
  | primitive _ => false
  | hasMany _ => false
  | _ => true

end FieldType

/-- A field of a model. -/
structure Field where
  name : String
  type : FieldType
  nullable : Bool
  deriving DecidableEq, Repr

namespace Field

/-- A field of a type, with its default nullability. -/
def ofType (name : String) (type : FieldType) : Field :=
  ⟨name, type, type.nullableByDefault⟩

/-- A field stored as an encoded document, which may be null. -/
def serialized (name : String) : Field :=
  ⟨name, .primitive .serialized, true⟩

end Field

/-! ### Models -/

/-- A model. -/
structure Model where
  name : String
  /-- The table, if it is not left to the driver. -/
  table : Option String := none
  fields : List Field := []
  /-- The name of the field that identifies an entry. -/
  primaryKey : String := "id"
  deriving DecidableEq, Repr

namespace Model

/-- The first field of this name. -/
def field? (m : Model) (name : String) : Option Field :=
  m.fields.find? fun f => f.name == name

/-- The field of this name, or an error. -/
def field (m : Model) (name : String) : Result Field :=
  match m.field? name with
  | some f => .ok f
  | none => Error.throw (.schemaLookup (.field m.name name))

/-- The model stores this field as an encoded document. -/
def isSerialized (m : Model) (name : String) : Bool :=
  (m.field? name).any fun f => f.type.isSerialized

/-- The name of the model that a relation field points at. -/
def relationTarget (m : Model) (name : String) : Result String := do
  let f ← m.field name
  match f.type.target? with
  | some target => .ok target
  | none => Error.throw (.schemaLookup (.relation m.name name))

end Model

/-! ### Schemas -/

/-- The registered models under their names. -/
structure Schema where
  models : List (String × Model) := []

namespace Schema

/-- Registers a model in the place of one of the same name. -/
def register (s : Schema) (m : Model) : Schema :=
  ⟨Assoc.insert m.name m s.models⟩

/-- A schema with models registered one after the other. -/
def ofModels (models : List Model) : Schema :=
  models.foldl register {}

/-- The model of this name, or an error. -/
def model (s : Schema) (name : String) : Result Model :=
  match Assoc.get? name s.models with
  | some m => .ok m
  | none => Error.throw (.schemaLookup (.model name))

/-- The model that a relation field points at. -/
def relationTarget (s : Schema) (m : Model) (name : String) : Result Model := do
  let target ← m.relationTarget name
  Error.within (.adhoc ("resolving relation `" ++ m.name ++ "::" ++ name ++ "`")) (s.model target)

/-- Checks one model: its primary key and the targets of its relations. -/
def verifyModel (s : Schema) (m : Model) : Result Unit := do
  let _ ← m.field m.primaryKey
  m.fields.forM fun f =>
    match f.type.target? with
    | none => .ok ()
    | some target =>
      Error.within (.adhoc ("relation target `" ++ target ++ "`"))
        ((s.relationTarget m f.name).map fun _ => ())

/-- Checks that every primary key is a field and every relation points at a registered model. -/
def verify (s : Schema) : Result Unit :=
  s.models.forM fun (_, m) => s.verifyModel m

end Schema

end RecordMapper
