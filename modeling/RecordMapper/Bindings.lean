import RecordMapper.Value.Printing

/-!
Values bound to the placeholders of a query.

A placeholder is a name between percent signs. `Bindings.substitute` puts the literal text of each
bound value in the place of its placeholder, one binding after the other in the order in which they
were added.
-/

namespace RecordMapper

/-- Names with the values bound to them. -/
structure Bindings where
  values : List (String × Value) := []

namespace Bindings

/-- Binds names one after the other. -/
def ofList (pairs : List (String × Value)) : Bindings :=
  ⟨Assoc.ofList pairs⟩

/-- Binds a value to a name. -/
def insert (b : Bindings) (name : String) (value : Value) : Bindings :=
  ⟨Assoc.insert name value b.values⟩

/-- The value bound to a name. -/
def get? (b : Bindings) (name : String) : Option Value :=
  Assoc.get? name b.values

/-- Nothing is bound. -/
def isEmpty (b : Bindings) : Bool :=
  b.values.isEmpty

/-- The placeholder of a name. -/
def placeholder (name : String) : Text :=
  '%' :: (name.toList ++ ['%'])

/-- The text with the literal of each bound value in the place of its placeholders. -/
def substitute (b : Bindings) (t : Text) : Text :=
  b.values.foldl (fun t (name, value) => t.replace (placeholder name) value.literal) t

end Bindings

end RecordMapper
