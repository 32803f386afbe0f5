import RecordMapper.Proofs.Materialize.Grouping
import RecordMapper.Proofs.Value.Literal

/-!
Which rows of a result are kept apart.

Rows are merged by their keys, and the key of a value that is neither an integer nor a text is its
literal. So two rows contribute to one entry if and only if their index values have one literal and
neither or both are integers (`Materializer.entries_apart`): **rows with different index values are
kept apart if one of these is an integer, or both are of one kind** in the sense of `Value.Told`.
Values of different kinds may be written alike, and then one row takes the place of the other
(`Materializer.entries_lost`).
-/

namespace RecordMapper

/-! ### Keys of values -/

/-- Any value other than null has a key: an integer itself, and another value its literal. -/
theorem Key.ofValue?_eq {v : Value} (nonnull : v ≠ .null) :
    ofValue? v = some (v.int?.elim (.string (String.ofList v.literal)) .int) := by
  cases v with
  | null => contradiction
  | string s =>
    rw [Value.literal, String.ofList_toList]
    rfl
  | _ => rfl

/-- Two values have one key if and only if they have one literal and neither or both are integers. -/
theorem Key.ofValue?_inj {v w : Value} (nonnull : v ≠ .null) (nonnull' : w ≠ .null) :
    ofValue? v = ofValue? w ↔ v.int? = w.int? ∧ v.literal = w.literal := by
  have literal : ∀ {v : Value} {n}, v.int? = some n → v.literal = Integer.print n.toInt := by
    intro v n isInt
    cases v <;> cases isInt
    rw [Value.literal]
  rw [ofValue?_eq nonnull, ofValue?_eq nonnull', Option.some.injEq]
  cases isInt : v.int? with
  | some m =>
    cases isInt' : w.int? with
    | some n =>
      rw [literal isInt, literal isInt', Option.elim_some, Option.elim_some, Key.int.injEq,
        Option.some.injEq]
      exact ⟨fun same => ⟨same, same ▸ rfl⟩, And.left⟩
    | none => simp
  | none =>
    cases isInt' : w.int? with
    | some n => simp
    | none => simp [String.ofList_inj]

namespace Materializer

variable {p : Materializer} {rows : List Row} {result : Entries}

/-- The value of the index column of a row, which may stand under the self alias. -/
def indexValue? (p : Materializer) (row : Row) : Option Value :=
  p.indexBy.bind fun field =>
    (Assoc.get? field row).or
      (Assoc.get? (p.config.selfAlias ++ p.config.aliasSeparator ++ field) row)

theorem key?_eq (row : Row) : p.key? row = (p.indexValue? row).bind Key.ofValue? := by
  unfold key? indexValue?
  rw [Option.bind_assoc]

/-- The row at place `i` contributes to the entry at place `n` of the result: it is filed under the
key of the entry, which is merged from the rows filed under it. -/
def Contributes (p : Materializer) (rows : List Row) (result : Entries) (i n : Nat) : Prop :=
  ∃ key e, (p.keysOf rows)[i]? = some key ∧ result.items[n]? = some (key, e) ∧
    p.Merges (p.rowsUnder key rows) e

theorem getElem?_keysOf {i : Nat} {row : Row} (there : rows[i]? = some row) {key : Key}
    (keyed : p.key? row = some key) : (p.keysOf rows)[i]? = some key := by
  rw [keysOf, List.getElem?_mapIdx, there, Option.map_some, keyed, Option.getD_some]

/-- Each row contributes to an entry, the one under its key. -/
theorem exists_contributes (made : p.entries rows = .ok result) {i : Nat} {key : Key}
    (filed : (p.keysOf rows)[i]? = some key) : ∃ n, p.Contributes rows result i n := by
  have there : key ∈ result.keys := by
    rw [keys_entries made, List.mem_eraseDups]
    exact List.mem_of_getElem? filed
  obtain ⟨⟨k, e⟩, item, rfl⟩ := List.mem_map.1 there
  obtain ⟨n, found⟩ := List.getElem?_of_mem item
  refine ⟨n, k, e, filed, found, merges_of_get? made ?_⟩
  exact Assoc.get?_of_mem (nodup_keys_entries made) item

/-- Rows contribute to one entry if they are filed under one key. -/
theorem Contributes.eq_iff (made : p.entries rows = .ok result) {i j m n : Nat}
    (first : p.Contributes rows result i m) (second : p.Contributes rows result j n) :
    m = n ↔ (p.keysOf rows)[i]? = (p.keysOf rows)[j]? := by
  obtain ⟨key, e, filed, item, -⟩ := first
  obtain ⟨key', e', filed', item', -⟩ := second
  rw [filed, filed', Option.some.injEq]
  constructor
  · rintro rfl
    rw [item] at item'
    exact congrArg Prod.fst (Option.some.inj item')
  · rintro rfl
    have keyAt : ∀ {n : Nat} {e}, result.items[n]? = some (key, e) → result.keys[n]? = some key := by
      intro n e item
      rw [Entries.keys, Assoc.keys, List.getElem?_map, item, Option.map_some]
    obtain ⟨bound, -⟩ := List.getElem?_eq_some_iff.1 (keyAt item)
    exact (List.getElem?_inj bound (nodup_keys_entries made)).1
      ((keyAt item).trans (keyAt item').symm)

/-- **Rows with different index values are kept apart** if one of these is an integer, or both are
values of one kind. Two rows with index values other than null contribute to one entry if and only if
their values have one literal and neither or both are integers. -/
theorem entries_apart (made : p.entries rows = .ok result) {i j : Nat} {row other : Row}
    (here : rows[i]? = some row) (there : rows[j]? = some other) {v w : Value}
    (value : p.indexValue? row = some v) (value' : p.indexValue? other = some w)
    (nonnull : v ≠ .null) (nonnull' : w ≠ .null) :
    (∃ m, p.Contributes rows result i m) ∧ (∃ n, p.Contributes rows result j n) ∧
      ∀ m n, p.Contributes rows result i m → p.Contributes rows result j n →
        (v.int? ≠ w.int? ∨ v.Told w → v.equals w = false → m ≠ n) ∧
          (m = n ↔ v.int? = w.int? ∧ v.literal = w.literal) := by
  have filed : ∀ {i : Nat} {row v}, rows[i]? = some row → p.indexValue? row = some v → v ≠ .null →
      (p.keysOf rows)[i]? = Key.ofValue? v := by
    intro i row v here value nonnull
    have keyed : p.key? row = Key.ofValue? v := by rw [key?_eq, value, Option.bind_some]
    rw [Key.ofValue?_eq nonnull] at keyed ⊢
    exact getElem?_keysOf here keyed
  have first := filed here value nonnull
  have second := filed there value' nonnull'
  refine ⟨?_, ?_, fun m n contributes contributes' => ?_⟩
  · exact exists_contributes made (first.trans (Key.ofValue?_eq nonnull))
  · exact exists_contributes made (second.trans (Key.ofValue?_eq nonnull'))
  · have one : m = n ↔ v.int? = w.int? ∧ v.literal = w.literal := by
      rw [contributes.eq_iff made contributes', first, second, Key.ofValue?_inj nonnull nonnull']
    refine ⟨fun told different same => ?_, one⟩
    obtain ⟨ints, literals⟩ := one.1 same
    rcases told with apart | told
    · exact apart ints
    · exact Bool.false_ne_true (different.symm.trans (told.equals_of_literal literals))

/-- Rows of authors under two lists. -/
def rowsOfLists : List Row :=
  [[("id", .list [.int 1, .int 2])], [("id", .list [.int 1, .int 3])]]

/-- Two lists of integers that differ in one item have entries of their own. -/
theorem entries_apart_lists :
    ∃ result m n, Library.authors.entries rowsOfLists = .ok result ∧
      Library.authors.Contributes rowsOfLists result 0 m ∧
      Library.authors.Contributes rowsOfLists result 1 n ∧ m ≠ n := by
  have told : (Value.list [.int 1, .int 2]).Told (.list [.int 1, .int 3]) := by
    refine .list (by decide) fun i v w here there => ?_
    match i with
    | 0 =>
      cases here
      cases there
      exact .int 1 1
    | 1 =>
      cases here
      cases there
      exact .int 2 3
    | i + 2 => cases here
  have different : (Value.list [.int 1, .int 2]).equals (.list [.int 1, .int 3]) = false := by
    simp [Value.equals, equalItems]
  have made : Library.authors.entries rowsOfLists = .ok _ := rfl
  have here : rowsOfLists[0]? = some _ := rfl
  have there : rowsOfLists[1]? = some _ := rfl
  obtain ⟨⟨m, first⟩, ⟨n, second⟩, apart⟩ :=
    entries_apart made here there rfl rfl (by simp) (by simp)
  exact ⟨_, m, n, made, first, second, (apart m n first second).1 (.inr told) different⟩

/-- Two authors, one under a truth value and one under the text that it is written as. -/
def rowsOfKinds : List Row :=
  [[("id", .bool true), ("name", .string "Ann")], [("id", .string "1"), ("name", .string "Bob")]]

/-- The index values of two rows are different, but the rows contribute to one entry, and the name of
the second author is lost. -/
theorem entries_lost :
    rowsOfKinds.map Library.authors.indexValue? = [some (.bool true), some (.string "1")] ∧
    (Value.bool true).equals (.string "1") = false ∧
    ∃ result, Library.authors.entries rowsOfKinds = .ok result ∧
      result.items = [(.string "1",
        ⟨"Author", [("id", .bool true), ("name", .string "Ann")], []⟩)] ∧
      ¬ ∃ m n, m ≠ n ∧ Library.authors.Contributes rowsOfKinds result 0 m ∧
        Library.authors.Contributes rowsOfKinds result 1 n := by
  refine ⟨rfl, by simp [Value.equals], _, rfl, rfl, ?_⟩
  rintro ⟨m, n, apart, ⟨key, e, -, here, -⟩, ⟨key', e', -, there, -⟩⟩
  -- there is one entry, at the first place
  have only : ∀ {n f}, [(Key.string "1",
      (⟨"Author", [("id", .bool true), ("name", .string "Ann")], []⟩ : Entry))][n]? = some f →
      n = 0 := by
    intro n f found
    obtain ⟨bound, -⟩ := List.getElem?_eq_some_iff.1 found
    exact Nat.lt_one_iff.1 bound
  exact apart ((only here).trans (only there).symm)

end Materializer

end RecordMapper
