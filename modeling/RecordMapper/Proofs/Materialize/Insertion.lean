import RecordMapper.Proofs.Materialize.Grouping

/-!
Entries that are inserted one after the other, with keys or without.

An entry without a key takes the next position, which counts the entries that came without one
before it. So the keys of a collection are those that were given and the positions below that count
(`Entries.mem_keys_ofInsertions`), and the next position is new unless it was given as a key itself.
**Unless it was, an entry without a key is appended** (`Entries.insert_appends`). If it was, the
entry is merged into the one that came with the key (`Entries.insert_merges_at_given_position`).

An entry under a key that is there changes the entry under that key and nothing else, and no key is
ever taken twice.
-/

namespace RecordMapper.Entries

/-- The entries after insertions in this order, each with a key or without one. -/
def ofInsertions (insertions : List (Option Key × Entry)) : Entries :=
  insertions.foldl (fun entries (key, e) => entries.insert key e) {}

/-- The key of the next entry without one: its position is the number of those before it. -/
def nextKey (insertions : List (Option Key × Entry)) : Key :=
  .position (insertions.countP fun insertion => insertion.1.isNone)

/-- The key was given with one of the entries. -/
def IsGiven (key : Key) (insertions : List (Option Key × Entry)) : Prop :=
  ∃ e, (some key, e) ∈ insertions

theorem ofInsertions_concat (insertions : List (Option Key × Entry)) (key : Option Key)
    (e : Entry) :
    ofInsertions (insertions ++ [(key, e)]) = (ofInsertions insertions).insert key e := by
  rw [ofInsertions, List.foldl_concat]
  rfl

/-! ### The keys of a collection -/

theorem position_nextPosition (insertions : List (Option Key × Entry)) :
    .position (ofInsertions insertions).nextPosition = nextKey insertions := by
  rw [nextKey]
  induction insertions using List.reverseRecOn with
  | nil => rfl
  | append_singleton insertions last ih =>
    obtain ⟨key, e⟩ := last
    rw [ofInsertions_concat, nextPosition_insert, List.countP_append, List.countP_singleton,
      ← Key.position.inj ih]

theorem mem_keys_insert {entries : Entries} {key : Option Key} {e : Entry} {k : Key} :
    k ∈ (entries.insert key e).keys
      ↔ k ∈ entries.keys ∨ k = key.getD (.position entries.nextPosition) := by
  rw [keys_insert]
  split
  · rename_i there
    obtain ⟨held, mem, same⟩ := List.any_eq_true.1 there
    obtain rfl := eq_of_beq same
    exact (or_iff_left_of_imp fun same => same ▸ mem).symm
  · rw [List.mem_append, List.mem_singleton]

/-- **The keys of a collection** are those that were given and the positions of the entries that
came without one. -/
theorem mem_keys_ofInsertions {insertions : List (Option Key × Entry)} {key : Key} :
    key ∈ (ofInsertions insertions).keys ↔ IsGiven key insertions
      ∨ ∃ n < insertions.countP fun insertion => insertion.1.isNone, key = .position n := by
  induction insertions using List.reverseRecOn with
  | nil => simp [ofInsertions, keys, Assoc.keys, IsGiven]
  | append_singleton insertions last ih =>
    obtain ⟨given, e⟩ := last
    rw [ofInsertions_concat, mem_keys_insert, ih, position_nextPosition, List.countP_append,
      List.countP_singleton]
    cases given with
    | some k =>
      have added : IsGiven key (insertions ++ [(some k, e)])
          ↔ IsGiven key insertions ∨ key = k := by
        simp [IsGiven, exists_or, eq_comm]
      rw [added]
      simp [or_right_comm]
    | none =>
      have added : IsGiven key (insertions ++ [(none, e)]) ↔ IsGiven key insertions := by
        simp [IsGiven]
      rw [added, or_assoc]
      refine or_congr_right ?_
      show (∃ n < _, key = .position n) ∨ key = nextKey insertions
        ↔ ∃ n < insertions.countP _ + 1, key = .position n
      simp only [Nat.lt_succ_iff_lt_or_eq, or_and_right, exists_or, exists_eq_left, nextKey]

/-- The next position is taken if and only if it was given as a key. -/
theorem nextKey_mem_keys_iff {insertions : List (Option Key × Entry)} :
    nextKey insertions ∈ (ofInsertions insertions).keys
      ↔ IsGiven (nextKey insertions) insertions := by
  rw [mem_keys_ofInsertions]
  refine or_iff_left ?_
  rintro ⟨n, before, same⟩
  exact Nat.ne_of_gt before (Key.position.inj same)

theorem nodup_keys_ofInsertions (insertions : List (Option Key × Entry)) :
    (ofInsertions insertions).keys.Nodup := by
  induction insertions using List.reverseRecOn with
  | nil => exact List.nodup_nil
  | append_singleton insertions last ih =>
    rw [ofInsertions_concat]
    exact nodup_keys_insert ih last.1 last.2

/-! ### One more entry -/

/-- The entry was put behind all others, under a new key. -/
structure Appends (entries : Entries) (key : Key) (e : Entry) (result : Entries) : Prop where
  new : key ∉ entries.keys
  items : result.items = entries.items ++ [(key, e)]
  size : result.size = entries.size + 1

/-- Nothing but the entry under the key was changed. -/
structure Keeps (entries : Entries) (key : Key) (result : Entries) : Prop where
  keys : result.keys = entries.keys
  size : result.size = entries.size
  others : ∀ k, k ≠ key → result.get? k = entries.get? k

theorem appends_insertAt {entries : Entries} {key : Key} (new : key ∉ entries.keys) (e : Entry) :
    entries.Appends key e (entries.insertAt key e) := by
  have missed : Assoc.contains key entries.items = false := by
    rw [Assoc.contains, Assoc.get?_eq_none_iff.2 new]
    rfl
  have items : (entries.insertAt key e).items = entries.items ++ [(key, e)] := by
    rw [insertAt, missed]
    exact Assoc.insert_of_not_mem new
  refine ⟨new, items, ?_⟩
  rw [size, items, List.length_append, List.length_singleton, size]

theorem keeps_insertAt {entries : Entries} {key : Key} (there : key ∈ entries.keys) (e : Entry) :
    entries.Keeps key (entries.insertAt key e) := by
  have found : entries.keys.any (key == ·) = true :=
    List.any_eq_true.2 ⟨key, there, beq_self_eq_true key⟩
  have same : (entries.insertAt key e).keys = entries.keys := by
    rw [keys_insertAt, if_pos found]
  refine ⟨same, ?_, fun k other => ?_⟩
  · have lengths := congrArg List.length same
    rwa [keys, keys, Assoc.keys, Assoc.keys, List.length_map, List.length_map] at lengths
  · rw [get?_insertAt, if_neg (Ne.symm other)]

/-- **An entry without a key is appended**, under the next position and with all others as they
were, if and only if that position was not given as a key; if it was, the entry is merged into the
one there. An entry under a key that is there changes no other entry, nor the order of the keys, and
all keys are distinct. -/
theorem insert_appends (insertions : List (Option Key × Entry)) (e : Entry) :
    ((ofInsertions insertions).Appends (nextKey insertions) e
        ((ofInsertions insertions).insert none e)
        ↔ ¬ IsGiven (nextKey insertions) insertions)
      ∧ (IsGiven (nextKey insertions) insertions →
        (ofInsertions insertions).Keeps (nextKey insertions)
          ((ofInsertions insertions).insert none e))
      ∧ (∀ key ∈ (ofInsertions insertions).keys,
        (ofInsertions insertions).Keeps key ((ofInsertions insertions).insert (some key) e))
      ∧ (ofInsertions insertions).keys.Nodup := by
  refine ⟨⟨fun appended given => ?_, fun other => ?_⟩, fun given => ?_, fun key there => ?_,
    nodup_keys_ofInsertions insertions⟩
  · exact appended.new (nextKey_mem_keys_iff.2 given)
  · obtain ⟨new, items, size⟩ := appends_insertAt (mt nextKey_mem_keys_iff.1 other) e
    rw [← position_nextPosition] at new items size ⊢
    exact ⟨new, items, size⟩
  · obtain ⟨keys, size, others⟩ := keeps_insertAt (nextKey_mem_keys_iff.2 given) e
    rw [← position_nextPosition] at keys size others ⊢
    exact ⟨keys, size, others⟩
  · exact keeps_insertAt there e

/-- An entry of a book with a title. -/
def titledBook (title : String) : Entry :=
  .load "Book" [("title", .string title)]

/-- A book without a key, one under a number and one under a position further on. -/
def shelf : List (Option Key × Entry) :=
  [(none, titledBook "A"), (some (.int 1), titledBook "B"), (some (.position 2), titledBook "C")]

/-- The next position is the second one: the third one, which was given, comes later. -/
theorem insert_appends_shelf :
    ¬ IsGiven (nextKey shelf) shelf
      ∧ (ofInsertions shelf).Appends (.position 1) (titledBook "D")
        ((ofInsertions shelf).insert none (titledBook "D"))
      ∧ .int 1 ∈ (ofInsertions shelf).keys
      ∧ (ofInsertions shelf).Keeps (.int 1)
        ((ofInsertions shelf).insert (some (.int 1)) (titledBook "D")) := by
  have other : ¬ IsGiven (nextKey shelf) shelf := by
    simp [IsGiven, nextKey, shelf]
  have there : .int 1 ∈ (ofInsertions shelf).keys :=
    mem_keys_ofInsertions.2 (.inl ⟨titledBook "B", by simp [shelf]⟩)
  obtain ⟨appends, -, keeps, -⟩ := insert_appends shelf (titledBook "D")
  exact ⟨other, appends.2 other, there, keeps _ there⟩

/-- The first position was given as a key, so the first book without a key is merged into the one
there, and its title is lost. -/
theorem insert_merges_at_given_position :
    let entries := ofInsertions [(some (.position 0), titledBook "A")]
    (entries.insert none (titledBook "B")).size = entries.size
      ∧ (entries.insert none (titledBook "B")).items = [(.position 0, titledBook "A")] :=
  ⟨rfl, rfl⟩

end RecordMapper.Entries
