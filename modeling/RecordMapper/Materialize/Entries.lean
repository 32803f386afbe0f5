import RecordMapper.Value.Loading
import RecordMapper.Value.Printing

/-!
Materialized entries under their keys.

An `Entries` holds entries in the order in which their keys first occurred. An entry inserted
without a key gets the next position as its key; one inserted under a key that is present is merged
into the entry there.
-/

namespace RecordMapper

/-- The key of an entry. -/
inductive Key where
  /-- The position among the entries that came without a key. -/
  | position (n : Nat)
  | int (n : Int64)
  | string (s : String)
  deriving DecidableEq, Repr

namespace Key

/-- The key for the value of an index column; null gives none. -/
def ofValue? : Value → Option Key
  | .null => none
  | .int n => some (.int n)
  | .string s => some (.string s)
  | v => some (.string (String.ofList v.literal))

/-- The text of a key. -/
def print : Key → Text
  | .position n => '#' :: Integer.digits n
  | .int n => Integer.print n.toInt
  | .string s => s.toList

end Key

instance : ToString Key := ⟨fun key => String.ofList key.print⟩

/-- Entries under their keys, and the position for the next one without a key. -/
structure Entries where
  items : List (Key × Entry) := []
  nextPosition : Nat := 0

namespace Entries

/-- Adds an entry under a key, merged into the entry that is there. -/
def insertAt (entries : Entries) (key : Key) (e : Entry) : Entries :=
  { entries with
    items :=
      if Assoc.contains key entries.items then
        Assoc.modify key (fun held => held.mergeLists e) entries.items
      else Assoc.insert key e entries.items }

/-- Adds an entry, without a key at the next position. -/
def insert (entries : Entries) (key : Option Key) (e : Entry) : Entries :=
  match key with
  | some key => entries.insertAt key e
  | none =>
    { entries with nextPosition := entries.nextPosition + 1 }.insertAt
      (.position entries.nextPosition) e

/-- The entry under a key. -/
def get? (entries : Entries) (key : Key) : Option Entry :=
  Assoc.get? key entries.items

/-- The keys in order. -/
def keys (entries : Entries) : List Key :=
  Assoc.keys entries.items

/-- The entries in order. -/
def toList (entries : Entries) : List Entry :=
  entries.items.map Prod.snd

/-- The first entry. -/
def first? (entries : Entries) : Option Entry :=
  entries.toList.head?

/-- The number of entries. -/
def size (entries : Entries) : Nat :=
  entries.items.length

/-- There are no entries. -/
def isEmpty (entries : Entries) : Bool :=
  entries.items.isEmpty

/-- Loads every entry in order. -/
def load {α : Type} (entries : Entries) (loader : Loader α) : Result (List α) :=
  entries.toList.mapM loader.load

end Entries

end RecordMapper
