import RecordMapper.Proofs.Blob.RoundTrip

/-!
Values are read back from columns as a driver returns them.

A column is read in two ways: one that counts as empty is null, and any other text is decoded. A
text that counts as empty has no characters, and then no value is written as it, or it is the text
`0`. What a text is decoded to tells which value was written, so that `0` is the text of the integer
zero alone. **Every other value is read back from its column as it is decoded**
(`Blob.decodeColumn_encode`), and zero is read back as null.
-/

namespace RecordMapper

/-- Only an integer is kept as an integer. -/
theorem Value.eq_of_stored_eq_int {v : Value} {n : Int64} (stored : v.stored = .int n) :
    v = .int n := by
  cases v with
  | int m => exact stored
  | _ => cases stored

namespace Blob

variable {v : Value}

/-- The text of a value counts as empty only if the value is zero. -/
theorem eq_zero_of_isEmpty (floatFree : v.FloatFree) (distinct : v.DistinctNames)
    (shallow : v.depth ≤ maxDepth)
    (empty : (Value.string (String.ofList (document v).print)).isEmpty = true) : v = .int 0 := by
  have read := decode_print floatFree distinct shallow
  rw [Value.isEmpty, Bool.or_eq_true, beq_iff_eq, beq_iff_eq] at empty
  rcases empty with none | zero
  · have refused : decode "" = Error.throw (.deserialization .malformed) := rfl
    rw [none, refused] at read
    cases read
  · have value : decode "0" = .ok (.int 0) := rfl
    rw [zero, value] at read
    exact Value.eq_of_stored_eq_int (Except.ok.inj read).symm

/-- **A column is read back as it is decoded, unless it holds the integer zero.** A value without
floating-point numbers whose lists, records and entries nest at most 127 levels can be written. The
column with the text gives the value without the null fields of its records and entries, with its
entries as records, as reading the text itself does; the text of zero counts as empty, so that this
column is null. -/
theorem decodeColumn_encode (v : Value) (floatFree : v.FloatFree) (distinct : v.DistinctNames)
    (shallow : v.depth ≤ 127) :
    ∃ text, encode v = .ok text ∧ decode text = .ok v.stored
      ∧ (v ≠ .int 0 → decodeColumn (.string text) = .ok v.stored)
      ∧ (v = .int 0 → decodeColumn (.string text) = .ok .null) := by
  refine ⟨_, encode_eq floatFree, decode_print floatFree distinct shallow, fun other => ?_, ?_⟩
  · have nonempty := mt (eq_zero_of_isEmpty floatFree distinct shallow) other
    rw [decodeColumn, if_neg nonempty]
    exact decode_print floatFree distinct shallow
  · rintro rfl
    rfl

/-- The text `0` is read back as a string, from a text with quotes. -/
theorem decodeColumn_encode_string :
    let v : Value := .string "0"
    v.FloatFree ∧ v.DistinctNames ∧ v.depth ≤ 127 ∧ v ≠ .int 0 ∧
      ∃ text, encode v = .ok text ∧ decodeColumn (.string text) = .ok v := by
  intro v
  have floatFree : v.FloatFree := nofun
  have distinct : v.DistinctNames := List.nodup_nil
  have shallow : v.depth ≤ 127 := Nat.zero_le 127
  have other : v ≠ .int 0 := nofun
  obtain ⟨text, written, -, read, -⟩ := decodeColumn_encode v floatFree distinct shallow
  exact ⟨floatFree, distinct, shallow, other, text, written, read other⟩

/-- Zero is not read back from its column, although its text is decoded to it. -/
theorem decodeColumn_encode_zero :
    encode (.int 0) = .ok "0" ∧ decode "0" = .ok (Value.int 0).stored
      ∧ decodeColumn (.string "0") ≠ .ok (Value.int 0).stored := by
  refine ⟨rfl, rfl, fun read => ?_⟩
  have null : decodeColumn (.string "0") = .ok .null := rfl
  rw [null] at read
  cases read

end Blob

end RecordMapper
