import RecordMapper.Number.Layout
import RecordMapper.Value.Basic

/-!
Values as text.

`Value.print` shows a value: a string in quotes with quotes and backslashes escaped, lists in
brackets, records and entries in braces. `Value.literal` is the text that takes the place of a
placeholder: the bare text of a string, `1` and `0` for truth values, `NULL` for null, and the items
of a list separated by commas.
-/

namespace RecordMapper

/-- The contents of a string literal, with a backslash before each quote and backslash. -/
def escapeQuoted (t : Text) : Text :=
  t.flatMap fun c => if c = '"' ∨ c = '\\' then ['\\', c] else [c]

/-- A string literal. -/
def printQuoted (s : String) : Text :=
  '"' :: (escapeQuoted s.toList ++ ['"'])

mutual

/-- The text that shows a value. -/
def Value.print : Value → Text
  | .null => ['N', 'U', 'L', 'L']
  | .bool true => ['t', 'r', 'u', 'e']
  | .bool false => ['f', 'a', 'l', 's', 'e']
  | .int n => Integer.print n.toInt
  | .float x => Layout.plain.print x
  | .string s => printQuoted s
  | .list items => '[' :: (Text.join [',', ' '] (printItems items) ++ [']'])
  | .record fields => '\x7b' :: (Text.join [',', ' '] (printFields fields) ++ ['\x7d'])
  | .entry e => Entry.print e

/-- The text that shows an entry. -/
def Entry.print : Entry → Text
  | ⟨model, fields, _⟩ =>
    model.toList ++ [' ', '\x7b']
      ++ Text.join [','] ((printFields fields).map fun field => ' ' :: field) ++ [' ', '\x7d']

/-- The texts of the items of a list. -/
def printItems : List Value → List Text
  | [] => []
  | v :: rest => v.print :: printItems rest

/-- The texts of named fields. -/
def printFields : List (String × Value) → List Text
  | [] => []
  | (name, v) :: rest => (name.toList ++ ':' :: ' ' :: v.print) :: printFields rest

end

mutual

/-- The text that takes the place of a placeholder bound to the value. -/
def Value.literal : Value → Text
  | .null => ['N', 'U', 'L', 'L']
  | .bool true => ['1']
  | .bool false => ['0']
  | .int n => Integer.print n.toInt
  | .float x => Layout.plain.print x
  | .string s => s.toList
  | .list items => Text.join [',', ' '] (literalItems items)
  | .record fields => (Value.record fields).print
  | .entry e => e.print

/-- The literals of the items of a list. -/
def literalItems : List Value → List Text
  | [] => []
  | v :: rest => v.literal :: literalItems rest

end

instance : ToString Value := ⟨fun v => String.ofList v.print⟩
instance : ToString Entry := ⟨fun e => String.ofList e.print⟩

end RecordMapper
