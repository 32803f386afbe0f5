import RecordMapper.Proofs.Blob.Stored
import RecordMapper.Proofs.Document.RoundTrip
import RecordMapper.Proofs.Number.Integer

/-!
Values are read back from serialized columns.

Writing a value without floating-point numbers means printing a document (`encodeText_eq`), and that
document means what the column keeps of the value (`value?_document`). Between the two stands the
round trip of documents. The document nests as deep as the value, and is the same for what the
column keeps.

Together they say that a value that does not nest too deep can be written, that reading gives what
is kept of it, and that this is written the same way.
-/

namespace RecordMapper

/-! ### Numbers and strings -/

/-- The number as it is written for an integer. -/
def Numeral.ofInt (n : Int) : Numeral :=
  ⟨n < 0, Integer.digits n.natAbs, none, none⟩

theorem Numeral.print_ofInt (n : Int) : (ofInt n).print = Integer.print n := by
  simp [ofInt, print, printUnsigned, printFraction, printExponent, Integer.print]

theorem Numeral.wellFormed_ofInt (n : Int) : (ofInt n).WellFormed where
  whole := ⟨Integer.digits_ne_nil _, fun _ => Integer.isDigit_of_mem_digits⟩
  no_leading_zero := Integer.digits_canonical
  fraction := by rintro _ ⟨⟩
  exponent := by rintro _ ⟨⟩

/-- The number that is written for an integer denotes it. -/
theorem Numeral.value?_ofInt (n : Int64) : (ofInt n.toInt).value? = some (.int n) := by
  have read : (ofInt n.toInt).int? = some n := by
    simp only [int?, ofInt, Integer.ofDigits_digits, decide_eq_true_eq]
    split
    · rename_i negative
      have nonzero : n.toInt.natAbs ≠ 0 := by omega
      have value : -(n.toInt.natAbs : Int) = n.toInt := by omega
      rw [if_neg nonzero, value, Integer.ofInt?_toInt]
    · have value : (n.toInt.natAbs : Int) = n.toInt := by omega
      rw [value, Integer.ofInt?_toInt]
  rw [value?, read]

/-- A character as it is written: control characters without a letter of their own by their code. -/
def StringPart.ofChar (c : Char) : StringPart :=
  if c.toNat < 0x20 ∧ c ∉ lettered then .unit c.toNat else .char c

theorem StringPart.wellFormed_ofChar (c : Char) : (ofChar c).WellFormed := by
  unfold ofChar
  split
  · rename_i control
    show c.toNat < 0x10000
    omega
  · rename_i written
    show 0x20 ≤ c.toNat ∨ c ∈ lettered
    by_cases mem : c ∈ lettered
    · exact .inr mem
    · exact .inl (Nat.le_of_not_lt fun below => written ⟨below, mem⟩)

theorem StringPart.print_ofChar (c : Char) : (ofChar c).print = Blob.escapeChar c := by
  unfold ofChar
  split
  · rename_i control
    obtain ⟨below, other⟩ := control
    have quote : c ≠ '"' := by rintro rfl; revert below; decide
    have backslash : c ≠ '\\' := by rintro rfl; revert below; decide
    simp only [lettered, List.mem_cons, List.not_mem_nil, or_false, not_or] at other
    have zero : c.toNat / 4096 = 0 ∧ c.toNat / 256 % 16 = 0 ∧ c.toNat / 16 % 16 = c.toNat / 16 := by
      omega
    simp only [print, Blob.escapeChar, quote, backslash, other, below, if_true, if_false, zero]
    rfl
  · rfl

theorem Document.text?_ofChar (t : Text) : text? (t.map StringPart.ofChar) = some t := by
  induction t with
  | nil => rfl
  | cons c t ih =>
    rw [List.map_cons, StringPart.ofChar]
    split
    · rename_i control
      have unit : c.toNat < 0xD800 ∨ 0xDFFF < c.toNat := by omega
      rw [text?.eq_def]
      simp only [if_pos unit, ih, Option.map_some, Char.ofNat_toNat]
    · rw [text?, ih, Option.map_some]

namespace Blob

/-- The parts of a string as it is written. -/
def stringParts (s : String) : List StringPart :=
  s.toList.map StringPart.ofChar

theorem printString_stringParts (s : String) :
    Document.printString (stringParts s) = encodeString s := by
  simp [Document.printString, stringParts, encodeString, List.flatMap_map, StringPart.print_ofChar]

theorem wellFormed_stringParts (s : String) : ∀ p ∈ stringParts s, p.WellFormed := by
  intro p mem
  obtain ⟨c, -, rfl⟩ := List.mem_map.1 mem
  exact StringPart.wellFormed_ofChar c

theorem text?_stringParts (s : String) : Document.text? (stringParts s) = some s.toList :=
  Document.text?_ofChar s.toList

/-! ### The document of a value -/

mutual

/-- The document that is written for a value without floating-point numbers. -/
def document : Value → Document
  | .null => .null
  | .bool b => .bool b
  | .int n => .number (Numeral.ofInt n.toInt)
  | .float _ => .null
  | .string s => .string (stringParts s)
  | .list items => .array (documents items)
  | .record fields => .object (members fields)
  | .entry e => .object (entryMembers e)

/-- The members for the fields of an entry. -/
def entryMembers : Entry → List (List StringPart × Document)
  | ⟨_, fields, _⟩ => members fields

/-- The documents of the items of a list. -/
def documents : List Value → List Document
  | [] => []
  | v :: rest => document v :: documents rest

/-- The members for fields, without the null ones. -/
def members : List (String × Value) → List (List StringPart × Document)
  | [] => []
  | (name, v) :: rest =>
    if v.isNull then members rest else (stringParts name, document v) :: members rest

end

mutual

/-- The document of a value is well-formed. -/
theorem wellFormed_document (v : Value) : (document v).WellFormed := by
  cases v with
  | null => trivial
  | bool b => trivial
  | int n => exact Numeral.wellFormed_ofInt n.toInt
  | float x => trivial
  | string s => exact wellFormed_stringParts s
  | list items => exact wellFormed_documents items
  | record fields => exact wellFormed_members fields
  | entry e =>
    obtain ⟨model, fields, dirty⟩ := e
    exact wellFormed_members fields

theorem wellFormed_documents (items : List Value) :
    Document.WellFormedItems (documents items) := by
  cases items with
  | nil => trivial
  | cons v rest => exact ⟨wellFormed_document v, wellFormed_documents rest⟩

theorem wellFormed_members (fields : List (String × Value)) :
    Document.WellFormedMembers (members fields) := by
  cases fields with
  | nil => trivial
  | cons field rest =>
    obtain ⟨name, v⟩ := field
    rw [members]
    split
    · exact wellFormed_members rest
    · exact ⟨wellFormed_stringParts name, wellFormed_document v, wellFormed_members rest⟩

end

mutual

/-- The document of a value nests as deep as the value does. -/
theorem depth_document (v : Value) : (document v).depth = v.depth := by
  cases v with
  | list items => rw [document, Document.depth, Value.depth, depth_documents items]
  | record fields => rw [document, Document.depth, Value.depth, depth_members fields]
  | entry e =>
    obtain ⟨model, fields, dirty⟩ := e
    rw [document, entryMembers, Document.depth, Value.depth, Entry.depth, depth_members fields]
  | null => rfl
  | bool b => rfl
  | int n => rfl
  | float x => rfl
  | string s => rfl

theorem depth_documents (items : List Value) :
    Document.depthOfItems (documents items) = depthOfItems items := by
  cases items with
  | nil => rfl
  | cons v rest =>
    rw [documents, Document.depthOfItems, depthOfItems, depth_document v, depth_documents rest]

theorem depth_members (fields : List (String × Value)) :
    Document.depthOfMembers (members fields) = depthOfFields fields := by
  cases fields with
  | nil => rfl
  | cons field rest =>
    obtain ⟨name, v⟩ := field
    rw [members, depthOfFields]
    split
    · -- a null field counts for nothing
      rename_i null
      cases v with
      | null => rw [Value.depth, Nat.zero_max, depth_members rest]
      | _ => cases null
    · rw [Document.depthOfMembers, depth_document v, depth_members rest]

end

mutual

/-- What a column keeps of a value has the same document. -/
theorem document_stored (v : Value) : document v.stored = document v := by
  cases v with
  | list items => rw [Value.stored, document, document, documents_storedItems items]
  | record fields => rw [Value.stored, document, document, members_storedFields fields]
  | entry e =>
    obtain ⟨model, fields, dirty⟩ := e
    rw [Value.stored, Entry.storedFields, document, document, entryMembers,
      members_storedFields fields]
  | null => rfl
  | bool b => rfl
  | int n => rfl
  | float x => rfl
  | string s => rfl

theorem documents_storedItems (items : List Value) :
    documents (storedItems items) = documents items := by
  cases items with
  | nil => rfl
  | cons v rest =>
    rw [storedItems, documents, documents, document_stored v, documents_storedItems rest]

theorem members_storedFields (fields : List (String × Value)) :
    members (storedFields fields) = members fields := by
  cases fields with
  | nil => rfl
  | cons field rest =>
    obtain ⟨name, v⟩ := field
    have others := members_storedFields rest
    rw [storedFields, members]
    split
    · exact others
    · rename_i null
      rw [members, v.isNull_stored, if_neg null, document_stored v, others]

end

/-! ### Writing prints the document -/

mutual

/-- A value without floating-point numbers is written as its document. -/
theorem encodeText_eq (v : Value) (floatFree : v.FloatFree) :
    encodeText v = .ok (document v).print := by
  cases v with
  | null => rfl
  | bool b => cases b <;> rfl
  | int n => rw [encodeText, document, Document.print, Numeral.print_ofInt]
  | float x => exact absurd rfl floatFree
  | string s => rw [encodeText, document, Document.print, printString_stringParts]
  | list items =>
    rw [encodeText, encodeItems_eq items floatFree.2, document, Document.print]
    rfl
  | record fields =>
    rw [encodeText, encodeFields_eq fields floatFree.2, document, Document.print]
    rfl
  | entry e =>
    obtain ⟨model, fields, dirty⟩ := e
    rw [encodeText, encodeEntryText, encodeFields_eq fields floatFree.2, document, entryMembers,
      Document.print]
    rfl

theorem encodeItems_eq (items : List Value)
    (floatFree : EverywhereItems (fun w => w.kind ≠ .float) items) :
    encodeItems items = .ok (Document.printItems (documents items)) := by
  cases items with
  | nil => rfl
  | cons v rest =>
    rw [encodeItems, encodeText_eq v floatFree.1, encodeItems_eq rest floatFree.2, documents,
      Document.printItems]
    rfl

theorem encodeFields_eq (fields : List (String × Value))
    (floatFree : EverywhereFields (fun w => w.kind ≠ .float) fields) :
    encodeFields fields = .ok (Document.printMembers (members fields)) := by
  cases fields with
  | nil => rfl
  | cons field rest =>
    obtain ⟨name, v⟩ := field
    have others := encodeFields_eq rest floatFree.2
    rw [encodeFields, members]
    split
    · exact others
    · rw [encodeText_eq v floatFree.1, others, Document.printMembers, printString_stringParts]
      rfl

end

/-! ### The document means what is kept -/

mutual

/-- The document of a value means what the column keeps of it. -/
theorem value?_document (v : Value) (floatFree : v.FloatFree) (distinct : v.DistinctNames) :
    value? (document v) = some v.stored := by
  cases v with
  | null => rfl
  | bool b => rfl
  | int n => exact Numeral.value?_ofInt n
  | float x => exact absurd rfl floatFree
  | string s =>
    rw [document, value?, text?_stringParts, Option.map_some, String.ofList_toList, Value.stored]
  | list items =>
    rw [document, value?, values?_documents items floatFree.2 distinct.2, Option.map_some,
      Value.stored]
  | record fields =>
    have kept := (keys_storedFields_sublist fields).nodup distinct.1
    rw [document, value?, fields?_members fields floatFree.2 distinct.2, Option.map_some,
      Assoc.ofList_of_nodup kept, Value.stored]
  | entry e =>
    obtain ⟨model, fields, dirty⟩ := e
    have kept := (keys_storedFields_sublist fields).nodup distinct.1
    rw [document, entryMembers, value?, fields?_members fields floatFree.2 distinct.2,
      Option.map_some, Assoc.ofList_of_nodup kept, Value.stored, Entry.storedFields]

theorem values?_documents (items : List Value)
    (floatFree : EverywhereItems (fun w => w.kind ≠ .float) items)
    (distinct : EverywhereItems (fun w => (Assoc.keys w.ownFields).Nodup) items) :
    values? (documents items) = some (storedItems items) := by
  cases items with
  | nil => rfl
  | cons v rest =>
    rw [documents, values?, value?_document v floatFree.1 distinct.1,
      values?_documents rest floatFree.2 distinct.2, storedItems]
    rfl

theorem fields?_members (fields : List (String × Value))
    (floatFree : EverywhereFields (fun w => w.kind ≠ .float) fields)
    (distinct : EverywhereFields (fun w => (Assoc.keys w.ownFields).Nodup) fields) :
    fields? (members fields) = some (storedFields fields) := by
  cases fields with
  | nil => rfl
  | cons field rest =>
    obtain ⟨name, v⟩ := field
    have others := fields?_members rest floatFree.2 distinct.2
    rw [members, storedFields]
    split
    · exact others
    · rw [fields?, text?_stringParts, value?_document v floatFree.1 distinct.1, others]
      simp

end

/-! ### The round trip -/

/-- A value without floating-point numbers can be written. -/
theorem encode_eq {v : Value} (floatFree : v.FloatFree) :
    encode v = .ok (String.ofList (document v).print) := by
  rw [encode, encodeText_eq v floatFree]
  rfl

/-- The text of a value that does not nest too deep is read as what is kept of the value. -/
theorem decode_print {v : Value} (floatFree : v.FloatFree) (distinct : v.DistinctNames)
    (shallow : v.depth ≤ maxDepth) : decode (String.ofList (document v).print) = .ok v.stored := by
  have nests : (document v).depth ≤ maxDepth := by
    rwa [depth_document]
  simp only [decode, String.toList_ofList, Document.read?_print (wellFormed_document v),
    Option.bind_eq_bind, Option.bind_some, if_pos nests, value?_document v floatFree distinct]

/-- **A column gives back what it keeps of a value.** A value without floating-point numbers whose
lists, records and entries nest at most 127 levels can be written. Reading the text gives the value
without the null fields of its records and entries, with its entries as records, and that is
written as the same text. -/
theorem decode_encode (v : Value) (floatFree : v.FloatFree) (distinct : v.DistinctNames)
    (shallow : v.depth ≤ 127) :
    ∃ text, encode v = .ok text ∧ decode text = .ok v.stored ∧ encode v.stored = .ok text := by
  have again : encode v.stored = .ok (String.ofList (document v).print) := by
    rw [encode_eq floatFree.stored, document_stored]
  exact ⟨_, encode_eq floatFree, decode_print floatFree distinct shallow, again⟩

/-- A list of an entry, null and a record: null fields inside are dropped, the item stays. -/
theorem decode_encode_nested :
    let v : Value := .list
      [.entry ⟨"post", [("title", .string "\"\\\n\x01"), ("body", .null),
          ("rank", .int Int64.minValue)], []⟩,
        .null, .record [("note", .null), ("tags", .list [.bool true])]]
    let kept : Value := .list
      [.record [("title", .string "\"\\\n\x01"), ("rank", .int Int64.minValue)], .null,
        .record [("tags", .list [.bool true])]]
    v.FloatFree ∧ v.DistinctNames ∧ v.depth ≤ 127 ∧
      ∃ text, encode v = .ok text ∧ decode text = .ok kept ∧ encode kept = .ok text := by
  intro v kept
  have floatFree : v.FloatFree := by
    simp [v, Value.FloatFree, Value.Everywhere, Entry.Everywhere, EverywhereItems, EverywhereFields,
      Value.kind]
  have distinct : v.DistinctNames := by
    simp [v, Value.DistinctNames, Value.Everywhere, Entry.Everywhere, EverywhereItems,
      EverywhereFields, Value.ownFields, Assoc.keys]
  have shallow : v.depth ≤ 127 := by
    decide
  exact ⟨floatFree, distinct, shallow, decode_encode v floatFree distinct shallow⟩

end Blob

end RecordMapper
