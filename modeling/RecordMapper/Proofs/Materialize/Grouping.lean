import Mathlib.Data.Finset.Card
import Mathlib.Data.List.Dedup
import RecordMapper.Proofs.Materialize.Children

/-!
Whole results: which entries there are, where they stand, and what each of them holds.

`Materializer.keysOf` says without a run which key each row is filed under, `Materializer.rowsWith`
which rows have a key, and `Materializer.made` what is made of some rows. With them
`Materializer.Groups` describes the result of rows that do not fail: the keys stand in the order of
their first rows, a row without a key has an entry of its own at the next position, and the entry of
a key is merged from what is made of its rows. `Materializer.Merges` spells the merge out: what is
not a list is kept from the first row, and a list of children has the items of all rows, those left
out that equal one before them.

`Materializer.entries_grouped` says that materialization gives such a result, or the error of the
first row that fails.
-/

namespace RecordMapper

/-! ### Items that are put once -/

/-- A fold that puts what is unlike all that is held appends what is left of the items after
duplicates are taken out. -/
theorem foldl_putUnlike {α : Type} (like : α → α → Bool) (held items : List α) :
    items.foldl (fun held x => if held.any (like x) then held else held ++ [x]) held
      = held ++ (items.filter fun x => !held.any (like x)).eraseDupsBy like := by
  induction items generalizing held with
  | nil => simp
  | cons x rest ih =>
    rw [List.foldl_cons, ih, List.filter_cons]
    cases known : held.any (like x) with
    | true => simp
    | false => simp [List.eraseDupsBy_cons, List.filter_filter, Bool.and_comm]

theorem eraseDupsBy_of_pairwise {α : Type} {like : α → α → Bool} {items : List α}
    (unlike : items.Pairwise fun held x => like x held = false) :
    items.eraseDupsBy like = items := by
  induction unlike with
  | nil => rfl
  | cons first _ ih =>
    rw [List.eraseDupsBy_cons, List.filter_eq_self.2 (by simpa using first), ih]

/-- The items without those that equal one before them. -/
def distinctItems (items : List Value) : List Value :=
  items.eraseDupsBy fun item held => held.equals item

namespace Entry

theorem appendNew_eq (existing items : List Value) :
    appendNew existing items
      = existing ++ distinctItems (items.filter fun item => !existing.any (·.equals item)) :=
  foldl_putUnlike (fun item held : Value => held.equals item) existing items

theorem appendNew_append (existing items more : List Value) :
    appendNew existing (items ++ more) = appendNew (appendNew existing items) more :=
  List.foldl_append

theorem appendNew_nil (items : List Value) : appendNew [] items = distinctItems items := by
  simp [appendNew_eq]

/-- Items that are appended to different ones are taken with them. -/
theorem appendNew_eq_distinctItems {existing : List Value} (items : List Value)
    (different : existing.Pairwise fun held item => held.equals item = false) :
    appendNew existing items = distinctItems (existing ++ items) := by
  have first : appendNew [] existing = existing := by
    rw [appendNew_nil]
    exact eraseDupsBy_of_pairwise different
  rw [← appendNew_nil, appendNew_append, first]

/-- The lists among the fields. -/
def listsOf (fields : List (Option Value)) : List (List Value) :=
  fields.filterMap fun v => v.bind Value.list?

theorem listsOf_cons_of_not_list {field : Option Value}
    (notList : ∀ items, field ≠ some (.list items)) (rest : List (Option Value)) :
    listsOf (field :: rest) = listsOf rest := by
  rcases field with _ | v
  · rfl
  · cases v with
    | list items => exact absurd rfl (notList items)
    | _ => rfl

theorem mergeValue_of_not_list {field : Option Value}
    (notList : ∀ items, field ≠ some (.list items)) (held : Option Value) :
    mergeValue held field = held := by
  rcases field with _ | v
  · exact mergeValue_none held
  · cases v with
    | list items => exact absurd rfl (notList items)
    | _ => rcases held with _ | ⟨_ | _⟩ <;> rfl

/-- All lists that are merged into a list are appended to it. -/
theorem foldl_mergeValue_of_list (items : List Value) (others : List (Option Value)) :
    others.foldl mergeValue (some (.list items))
      = some (.list (appendNew items (listsOf others).flatten)) := by
  induction others generalizing items with
  | nil => rfl
  | cons other rest ih =>
    rw [List.foldl_cons]
    by_cases isList : ∃ new, other = some (.list new)
    · obtain ⟨new, rfl⟩ := isList
      have lists : listsOf (some (.list new) :: rest) = new :: listsOf rest := rfl
      rw [mergeValue, ih, lists, List.flatten_cons, appendNew_append]
    · have notList : ∀ new, other ≠ some (.list new) := fun new same => isList ⟨new, same⟩
      rw [mergeValue_of_not_list notList, ih, listsOf_cons_of_not_list notList]

/-- Without lists, nothing is merged into a field. -/
theorem foldl_mergeValue_of_no_lists {others : List (Option Value)} (unlisted : listsOf others = [])
    (held : Option Value) : others.foldl mergeValue held = held := by
  induction others with
  | nil => rfl
  | cons other rest ih =>
    have notList : ∀ items, other ≠ some (.list items) := by
      rintro items rfl
      cases unlisted
    rw [List.foldl_cons, mergeValue_of_not_list notList,
      ih (listsOf_cons_of_not_list notList rest ▸ unlisted)]

theorem mem_listsOf {fields : List (Option Value)} {items : List Value} :
    items ∈ listsOf fields ↔ some (.list items) ∈ fields := by
  rw [listsOf, List.mem_filterMap]
  constructor
  · rintro ⟨v, mem, list⟩
    obtain ⟨v, rfl, list⟩ := Option.bind_eq_some_iff.1 list
    cases v <;> cases list
    exact mem
  · exact fun mem => ⟨_, mem, rfl⟩

/-- A field that the first entry lacks, or has a list in, gets the lists of all entries. -/
theorem foldl_mergeValue_eq {first : Option Value} {others : List (Option Value)}
    (lists : ∀ v, first = some v → v.list?.isSome) {items : List Value} {later : List (List Value)}
    (all : listsOf (first :: others) = items :: later) :
    others.foldl mergeValue first = some (.list (appendNew items later.flatten)) := by
  rcases first with _ | v
  · induction others with
    | nil => cases all
    | cons other rest ih =>
      rw [List.foldl_cons]
      by_cases isList : ∃ new, other = some (.list new)
      · obtain ⟨new, rfl⟩ := isList
        cases all
        exact foldl_mergeValue_of_list _ rest
      · have notList : ∀ new, other ≠ some (.list new) := fun new same => isList ⟨new, same⟩
        have fewer : listsOf (none :: other :: rest) = listsOf (none :: rest) :=
          listsOf_cons_of_not_list notList rest
        rw [mergeValue_of_not_list notList, ih (fewer ▸ all)]
  · cases v with
    | list held =>
      cases all
      exact foldl_mergeValue_of_list _ others
    | _ => cases lists _ rfl

/-- Lists of at most one item each are merged to their items, each once. -/
theorem foldl_mergeValue_of_short {first : Option Value} {others : List (Option Value)}
    (lists : ∀ v, first = some v → v.list?.isSome)
    (short : ∀ items, some (.list items) ∈ first :: others → items.length ≤ 1) {items : List Value}
    (merged : others.foldl mergeValue first = some (.list items)) :
    items = distinctItems (listsOf (first :: others)).flatten := by
  cases listed : listsOf (first :: others) with
  | nil =>
    -- then the merged field is the first one, which is a list
    have unlisted : listsOf others = [] := List.filterMap_eq_nil_iff.2 fun v mem =>
      List.filterMap_eq_nil_iff.1 listed v (List.mem_cons_of_mem _ mem)
    rw [foldl_mergeValue_of_no_lists unlisted] at merged
    have mem : items ∈ listsOf (first :: others) :=
      mem_listsOf.2 (merged ▸ List.mem_cons_self ..)
    rw [listed] at mem
    cases mem
  | cons one later =>
    have mem : one ∈ listsOf (first :: others) := listed ▸ List.mem_cons_self ..
    have least : one.length ≤ 1 := short one (mem_listsOf.1 mem)
    rw [foldl_mergeValue_eq lists listed,
      appendNew_eq_distinctItems _ (pairwise_of_length_le_one least)] at merged
    cases merged
    rfl

end Entry

/-! ### Keys -/

namespace Entries

/-- A new key is the last one. -/
theorem keys_insertAt (entries : Entries) (key : Key) (e : Entry) :
    (entries.insertAt key e).keys
      = if entries.keys.any (key == ·) then entries.keys else entries.keys ++ [key] := by
  have known : Assoc.contains key entries.items = entries.keys.any (key == ·) := by
    rw [Bool.eq_iff_iff, Assoc.contains, Option.isSome_iff_ne_none, ne_eq, Assoc.get?_eq_none_iff,
      not_not]
    simp [keys]
  rw [insertAt, keys, known]
  by_cases there : entries.keys.any (key == ·) = true
  · rw [if_pos there, if_pos there, Assoc.keys_modify]
    rfl
  · have new : key ∉ Assoc.keys entries.items := by simpa [keys] using there
    rw [if_neg there, if_neg there, Assoc.insert_of_not_mem new]
    simp [Assoc.keys, keys]

/-- An entry without a key has the next position as its key. -/
theorem keys_insert (entries : Entries) (key : Option Key) (e : Entry) :
    (entries.insert key e).keys
      = if entries.keys.any (key.getD (.position entries.nextPosition) == ·) then entries.keys
        else entries.keys ++ [key.getD (.position entries.nextPosition)] := by
  cases key with
  | none => exact keys_insertAt _ (.position entries.nextPosition) e
  | some key => exact keys_insertAt entries key e

/-- No key is taken twice. -/
theorem nodup_keys_insert {entries : Entries} (nodup : entries.keys.Nodup) (key : Option Key)
    (e : Entry) : (entries.insert key e).keys.Nodup := by
  rw [keys_insert]
  split
  · exact nodup
  · rename_i new
    refine List.nodup_append.2 ⟨nodup, List.nodup_singleton _, ?_⟩
    intro k there other last same
    rw [List.mem_singleton.1 last] at same
    exact new (List.any_eq_true.2 ⟨k, there, by simp [same]⟩)

theorem nextPosition_insert (entries : Entries) (key : Option Key) (e : Entry) :
    (entries.insert key e).nextPosition
      = entries.nextPosition + if key.isNone then 1 else 0 := by
  cases key <;> rfl

end Entries

/-- The key of a value is no position. -/
theorem Key.ofValue?_ne_position (v : Value) (n : Nat) : ofValue? v ≠ some (.position n) := by
  cases v <;> simp [ofValue?]

namespace Materializer

variable {p : Materializer} {rows : List Row} {result : Entries}

/-- The rows with this key; `none` stands for those without one. -/
def rowsWith (p : Materializer) (key : Option Key) (rows : List Row) : List Row :=
  rows.filter fun row => p.key? row = key

/-- The keys that rows are filed under: a row without a key has as its position the number of such
rows before it. -/
def keysOf (p : Materializer) (rows : List Row) : List Key :=
  rows.mapIdx fun i row =>
    (p.key? row).getD (.position (p.rowsWith none (rows.take i)).length)

theorem key?_ne_position (row : Row) (n : Nat) : p.key? row ≠ some (.position n) := by
  intro same
  obtain ⟨field, -, same⟩ := Option.bind_eq_some_iff.1 same
  obtain ⟨v, -, same⟩ := Option.bind_eq_some_iff.1 same
  exact Key.ofValue?_ne_position v n same

theorem filings_cons (next : Nat) (row : Row) (rest : List Row) :
    p.filings next (row :: rest)
      = ((p.key? row).getD (.position next), row)
        :: p.filings (next + if (p.key? row).isNone then 1 else 0) rest := by
  rw [filings]
  cases p.key? row <;> rfl

theorem rowsWith_cons (key : Option Key) (row : Row) (rest : List Row) :
    p.rowsWith key (row :: rest)
      = if p.key? row = key then row :: p.rowsWith key rest else p.rowsWith key rest := by
  simp [rowsWith, List.filter_cons]

theorem map_fst_filings (next : Nat) (rows : List Row) :
    (p.filings next rows).map Prod.fst
      = rows.mapIdx fun i row =>
          (p.key? row).getD (.position (next + (p.rowsWith none (rows.take i)).length)) := by
  induction rows generalizing next with
  | nil => rfl
  | cons row rest ih =>
    rw [filings_cons, List.map_cons, List.mapIdx_cons, ih]
    congr 1
    congr
    funext i other
    rw [List.take_succ_cons, rowsWith_cons]
    cases p.key? row <;> simp [Nat.add_assoc, Nat.add_comm 1]

theorem keysOf_eq (rows : List Row) : p.keysOf rows = (p.filings 0 rows).map Prod.fst := by
  simp [map_fst_filings, keysOf]

/-- The rows under a key that rows have are the rows with it. -/
theorem rowsUnder_key {key : Key} (own : ∀ n, key ≠ .position n) (rows : List Row) :
    p.rowsUnder key rows = p.rowsWith (some key) rows := by
  have run : ∀ (rows : List Row) (next : Nat), ((p.filings next rows).filterMap fun f =>
      if f.1 = key then some f.2 else none) = p.rowsWith (some key) rows := by
    intro rows
    induction rows with
    | nil => exact fun _ => rfl
    | cons row rest ih =>
      intro next
      rw [filings_cons, List.filterMap_cons, ih, rowsWith_cons]
      cases p.key? row with
      | none => simp [Ne.symm (own next)]
      | some k => by_cases same : k = key <;> simp [same]
  exact run rows 0

/-- A row without a key is alone under its position. -/
theorem rowsUnder_position (n : Nat) (rows : List Row) :
    p.rowsUnder (.position n) rows = ((p.rowsWith none rows)[n]?).toList := by
  have other : ∀ {row : Row} {k : Key}, p.key? row = some k → k ≠ .position n :=
    fun key same => key?_ne_position _ n (same ▸ key)
  -- no position is given twice
  have below : ∀ (rows : List Row) (next : Nat), n < next →
      ((p.filings next rows).filterMap fun f =>
        if f.1 = .position n then some f.2 else none) = [] := by
    intro rows
    induction rows with
    | nil => exact fun _ _ => rfl
    | cons row rest ih =>
      intro next before
      rw [filings_cons, List.filterMap_cons, ih _ (Nat.lt_add_right _ before)]
      cases key : p.key? row with
      | some k => simp [other key]
      | none => simp [Nat.ne_of_gt before]
  have run : ∀ (rows : List Row) (next m : Nat), next + m = n →
      ((p.filings next rows).filterMap fun f => if f.1 = .position n then some f.2 else none)
        = ((p.rowsWith none rows)[m]?).toList := by
    intro rows
    induction rows with
    | nil => exact fun _ _ _ => rfl
    | cons row rest ih =>
      intro next m place
      rw [filings_cons, List.filterMap_cons, rowsWith_cons]
      cases key : p.key? row with
      | some k => simp [other key, ih next m place]
      | none =>
        cases m with
        | zero =>
          obtain rfl : next = n := place
          simp [below rest (next + 1) (Nat.lt_succ_self next)]
        | succ m =>
          have apart : next ≠ n := by omega
          simp [apart, ih (next + 1) m (by omega)]
  exact run rows 0 n (Nat.zero_add n)

/-! ### Runs -/

/-- A row that fails after others that do not ends the run, with its index as context. -/
theorem addRows_of_fails {front : List Row} (made : ∀ row ∈ front, ∃ e, p.entry row = .ok e)
    {row : Row} {error : Error} (fails : p.entry row = .error error) (rest : List Row) (count : Nat)
    (entries : Entries) :
    p.addRows count entries (front ++ row :: rest)
      = .error (error.addContext (.adhoc ("materializing row " ++ toString (count + front.length)
          ++ " of `" ++ p.model.name ++ "`"))) := by
  induction front generalizing count entries with
  | nil =>
    rw [List.nil_append, addRows, fails]
    rfl
  | cons first front ih =>
    obtain ⟨e, ofFirst⟩ := made first (List.mem_cons_self ..)
    have step := ih (fun row mem => made row (List.mem_cons_of_mem _ mem)) (count + 1)
      (entries.insert (p.key? first) e)
    rw [List.cons_append, addRows, ofFirst, List.length_cons, Nat.add_comm front.length 1,
      ← Nat.add_assoc]
    exact step

/-- Rows of which none fails are made into entries. -/
theorem exists_addRows (made : ∀ row ∈ rows, ∃ e, p.entry row = .ok e) (count : Nat)
    (entries : Entries) : ∃ result, p.addRows count entries rows = .ok result := by
  induction rows generalizing count entries with
  | nil => exact ⟨entries, rfl⟩
  | cons row rest ih =>
    obtain ⟨e, ofRow⟩ := made row (List.mem_cons_self ..)
    rw [addRows, ofRow]
    exact ih (fun row mem => made row (List.mem_cons_of_mem _ mem)) _ _

/-- A run puts the keys of its rows behind those that are there, each once. -/
theorem keys_addRows {count : Nat} {entries : Entries}
    (made : p.addRows count entries rows = .ok result) :
    result.keys = ((p.filings entries.nextPosition rows).map Prod.fst).foldl
      (fun keys key => if keys.any (key == ·) then keys else keys ++ [key]) entries.keys := by
  induction rows generalizing count entries with
  | nil =>
    cases made
    rfl
  | cons row rest ih =>
    obtain ⟨e, -, made⟩ := Result.exists_of_bind made
    rw [ih made, Entries.keys_insert, Entries.nextPosition_insert, filings_cons, List.map_cons,
      List.foldl_cons]

/-- The keys of a result are those of its rows, in the order in which they first occur. -/
theorem keys_entries (made : p.entries rows = .ok result) :
    result.keys = (p.keysOf rows).eraseDups := by
  have run := keys_addRows made
  rw [foldl_putUnlike (fun key other : Key => key == other)] at run
  rw [run, keysOf_eq]
  show [] ++ _ = _
  simp [Entries.keys, Assoc.keys, List.eraseDups]

theorem mem_keys_entries (made : p.entries rows = .ok result) {key : Key} :
    key ∈ result.keys ↔ p.rowsUnder key rows ≠ [] := by
  rw [keys_entries made, List.mem_eraseDups, keysOf_eq, rowsUnder, ne_eq, List.filterMap_eq_nil_iff]
  simp

theorem nodup_keys_addRows {count : Nat} {entries : Entries} (nodup : entries.keys.Nodup)
    (made : p.addRows count entries rows = .ok result) : result.keys.Nodup := by
  induction rows generalizing count entries with
  | nil =>
    cases made
    exact nodup
  | cons row rest ih =>
    obtain ⟨e, -, made⟩ := Result.exists_of_bind made
    exact ih (Entries.nodup_keys_insert nodup _ e) made

theorem nodup_keys_entries (made : p.entries rows = .ok result) : result.keys.Nodup := by
  have start : (Entries.keys {}).Nodup := List.nodup_nil
  exact nodup_keys_addRows start made

/-- The number of entries is that of the different keys and of the rows without one. -/
theorem size_entries (made : p.entries rows = .ok result) :
    result.size = (rows.filterMap p.key?).toFinset.card + (p.rowsWith none rows).length := by
  have nodup := nodup_keys_entries made
  have keys : result.keys.toFinset = (rows.filterMap p.key?).toFinset
      ∪ (Finset.range (p.rowsWith none rows).length).image Key.position := by
    ext key
    rw [List.mem_toFinset, mem_keys_entries made, Finset.mem_union, List.mem_toFinset,
      Finset.mem_image]
    by_cases positional : ∃ n, key = .position n
    · obtain ⟨n, rfl⟩ := positional
      have unkeyed : Key.position n ∉ rows.filterMap p.key? := by
        simp [List.mem_filterMap, key?_ne_position]
      simp [rowsUnder_position, unkeyed]
    · have own : ∀ n, key ≠ .position n := fun n same => positional ⟨n, same⟩
      have other : ∀ n, Key.position n ≠ key := fun n => Ne.symm (own n)
      simp [rowsUnder_key own, rowsWith, other]
  have size : result.size = result.keys.length := (List.length_map ..).symm
  rw [size, ← List.toFinset_card_of_nodup nodup, keys, Finset.card_union_of_disjoint,
    Finset.card_image_of_injective _ fun _ _ same => Key.position.inj same, Finset.card_range]
  refine Finset.disjoint_left.2 fun key keyed positional => ?_
  obtain ⟨n, -, rfl⟩ := Finset.mem_image.1 positional
  obtain ⟨row, -, same⟩ := List.mem_filterMap.1 (List.mem_toFinset.1 keyed)
  exact key?_ne_position row n same

/-! ### Entries of groups -/

/-- What is made of the rows that do not fail. -/
def made (p : Materializer) (rows : List Row) : List Entry :=
  rows.filterMap fun row => (p.entry row).toOption

theorem Makes.made_eq {key : Key} {es : List Entry} (makes : p.Makes key rows es) :
    p.made (p.rowsUnder key rows) = es := by
  have mapped : p.made (p.rowsUnder key rows)
      = ((p.rowsUnder key rows).map p.entry).filterMap Except.toOption := by
    rw [List.filterMap_map]
    rfl
  rw [mapped, makes, List.filterMap_map]
  exact List.filterMap_some

/-- The entry is merged from what is made of the rows. -/
structure Merges (p : Materializer) (rows : List Row) (e : Entry) : Prop where
  /-- The others are merged into the first, in order. -/
  whole : ∃ first others, p.made rows = first :: others ∧ e = others.foldl Entry.mergeLists first
  /-- What is not a list is kept from the first. -/
  kept : ∀ first, (p.made rows).head? = some first → ∀ name v, first.get? name = some v →
    v.list? = none → e.get? name = some v
  /-- A list, or a field that the first lacks, takes the items of the lists of all, without those
  that equal one before them; only within the first list items may be equal. -/
  appended : ∀ first, (p.made rows).head? = some first → ∀ name,
    (∀ v, first.get? name = some v → v.list?.isSome) → ∀ items later,
      Entry.listsOf ((p.made rows).map (·.get? name)) = items :: later →
        e.get? name = some (.list
          (items ++ distinctItems (later.flatten.filter fun item => !items.any (·.equals item))))
  /-- A list of children has those of all rows, without those that equal one before them. -/
  children : ∀ a, p.model.isMany a = true →
    (∀ row ∈ rows, a ∉ Assoc.keys (Row.ownFields p.config row)) → ∀ items,
      e.get? a = some (.list items) →
        items = distinctItems (Entry.listsOf ((p.made rows).map (·.get? a))).flatten

/-- The entry under a key is merged from what is made of the rows under it. -/
theorem merges_of_get? (made : p.entries rows = .ok result) {key : Key} {e : Entry}
    (found : result.get? key = some e) : p.Merges (p.rowsUnder key rows) e := by
  obtain ⟨es, makes, merged⟩ := get?_entries made key
  rw [found] at merged
  cases es with
  | nil => cases merged
  | cons first others =>
    cases merged
    have all := makes.made_eq
    have fields : ∀ name, (others.foldl Entry.mergeLists first).get? name
        = (others.map (·.get? name)).foldl Entry.mergeValue (first.get? name) := by
      intro name
      refine Entry.get?_foldl_mergeLists first (fun other mem => ?_) name
      obtain ⟨row, -, ofRow⟩ := makes.exists_row (List.mem_cons_of_mem _ mem)
      obtain ⟨-, -, distinct, -⟩ := Materialize.fields_of_entryWithin ofRow
      exact distinct
    refine ⟨⟨first, others, all, rfl⟩, ?_, ?_, ?_⟩
    · intro head same name v there notList
      rw [all, List.head?_cons, Option.some.injEq] at same
      rw [fields, same, there]
      exact Entry.foldl_mergeValue_of_not_list
        (fun items isList => by rw [isList] at notList; cases notList) _
    · intro head same name lists items later listed
      rw [all, List.head?_cons, Option.some.injEq] at same
      rw [all, List.map_cons] at listed
      rw [fields, Entry.foldl_mergeValue_eq (same ▸ lists) listed, Entry.appendNew_eq]
    · intro a many unowned items there
      have short : ∀ o ∈ first :: others, ∀ v, o.get? a = some v →
          ∃ one, v = .list one ∧ one.length ≤ 1 := by
        intro o mem v held
        obtain ⟨row, filed, ofRow⟩ := makes.exists_row mem
        exact exists_short_list_of_entry ofRow many (unowned row filed) held
      rw [fields] at there
      rw [all, List.map_cons]
      refine Entry.foldl_mergeValue_of_short (fun v held => ?_) (fun one mem => ?_) there
      · obtain ⟨one, rfl, -⟩ := short first (List.mem_cons_self ..) v held
        rfl
      · have mapped : some (.list one) ∈ (first :: others).map (·.get? a) := mem
        obtain ⟨o, made, held⟩ := List.mem_map.1 mapped
        obtain ⟨_, same, least⟩ := short o made _ held
        cases same
        exact least

/-- The entries are those of the groups of rows with one key, and of the rows without a key. -/
structure Groups (p : Materializer) (rows : List Row) (result : Entries) : Prop where
  /-- The keys of the rows, each where it first occurs. -/
  keys : result.keys = (p.keysOf rows).eraseDups
  /-- One entry for each key and for each row without one. -/
  size : result.size = (rows.filterMap p.key?).toFinset.card + (p.rowsWith none rows).length
  /-- The rows without a key have the entries at the positions. -/
  positional : ∀ n, result.get? (.position n) = (p.made (p.rowsWith none rows))[n]?
  /-- The rows with a key are merged into the entry under it. -/
  keyed : ∀ row ∈ rows, ∀ key, p.key? row = some key →
    ∃ e, result.get? key = some e ∧ p.Merges (p.rowsWith (some key) rows) e

theorem getElem?_made (all : ∀ row ∈ rows, ∃ e, p.entry row = .ok e) (n : Nat) :
    (p.made rows)[n]? = rows[n]?.bind fun row => (p.entry row).toOption := by
  induction rows generalizing n with
  | nil => rfl
  | cons row rest ih =>
    obtain ⟨e, ofRow⟩ := all row (List.mem_cons_self ..)
    have first : p.made (row :: rest) = e :: p.made rest := by
      rw [made, List.filterMap_cons, ofRow]
      rfl
    rw [first]
    cases n with
    | zero => simp [ofRow, Except.toOption]
    | succ n => simpa using ih (fun row mem => all row (List.mem_cons_of_mem _ mem)) n

/-- The entry at a position is that of the row there, among the rows without a key. -/
theorem get?_position (made : p.entries rows = .ok result)
    (all : ∀ row ∈ rows, ∃ e, p.entry row = .ok e) (n : Nat) :
    result.get? (.position n) = (p.made (p.rowsWith none rows))[n]? := by
  obtain ⟨es, makes, merged⟩ := get?_entries made (.position n)
  have unkeyed : ∀ row ∈ p.rowsWith none rows, ∃ e, p.entry row = .ok e :=
    fun row mem => all row (List.mem_of_mem_filter mem)
  have es_eq := makes.made_eq
  rw [rowsUnder_position] at es_eq
  rw [merged, ← es_eq, getElem?_made unkeyed]
  cases (p.rowsWith none rows)[n]? with
  | none => rfl
  | some row =>
    cases ofRow : p.entry row <;> simp [Materializer.made, ofRow, Except.toOption, Entry.mergeAll]

theorem groups_of_entries (made : p.entries rows = .ok result)
    (all : ∀ row ∈ rows, ∃ e, p.entry row = .ok e) : p.Groups rows result where
  keys := keys_entries made
  size := size_entries made
  positional := get?_position made all
  keyed := by
    intro row mem key keyed
    have own : ∀ n, key ≠ .position n := fun n same => key?_ne_position row n (same ▸ keyed)
    have filed : row ∈ p.rowsUnder key rows := by
      rw [rowsUnder_key own]
      exact List.mem_filter.2 ⟨mem, by simpa using keyed⟩
    obtain ⟨e, -, found, -⟩ := exists_get?_of_mem_rowsUnder made filed
    have merges := merges_of_get? made found
    rw [rowsUnder_key own] at merges
    exact ⟨e, found, merges⟩

/-- **What materialization does to a whole result**: if a row fails after others that do not, the
run fails with the error of that row, and its index as context. If no row fails, neither does the
run, and its entries are those of the groups of rows with one key and of the rows without a key. -/
theorem entries_grouped (p : Materializer) (rows : List Row) :
    (∀ front row rest error, rows = front ++ row :: rest →
      (∀ earlier ∈ front, ∃ e, p.entry earlier = .ok e) → p.entry row = .error error →
        p.entries rows = .error (error.addContext (.adhoc
          ("materializing row " ++ toString front.length ++ " of `" ++ p.model.name ++ "`")))) ∧
    ((∀ row ∈ rows, ∃ e, p.entry row = .ok e) →
      ∃ result, p.entries rows = .ok result ∧ p.Groups rows result) := by
  constructor
  · rintro front row rest error rfl before fails
    rw [entries, addRows_of_fails before fails, Nat.zero_add]
  · intro all
    obtain ⟨result, made⟩ := exists_addRows all 0 {}
    exact ⟨result, made, groups_of_entries made all⟩

/-- A row without a key stands between two with one key, and the row of a shelf fails. -/
theorem entries_grouped_keyless :
    (∃ result, Library.authors.entries [Library.titleRow 5, [("name", .string "Ann")],
        Library.titleRow 6] = .ok result ∧
      result.keys = [.int 1, .position 0] ∧ result.size = 2 ∧
      result.get? (.position 0) = some ⟨"Author", [("name", .string "Ann")], []⟩ ∧
      ∃ e, result.get? (.int 1) = some e ∧
        Library.authors.Merges [Library.titleRow 5, Library.titleRow 6] e) ∧
    ∃ error, Library.authors.entry [("shelf:id", .int 3)] = .error error ∧
      Library.authors.entries [Library.titleRow 5, [("shelf:id", .int 3)], Library.titleRow 6]
        = .error (error.addContext (.adhoc "materializing row 1 of `Author`")) := by
  constructor
  · have all : ∀ row ∈ [Library.titleRow 5, [("name", .string "Ann")], Library.titleRow 6],
        ∃ e, Library.authors.entry row = .ok e := by
      simp only [List.forall_mem_cons]
      exact ⟨⟨_, rfl⟩, ⟨_, rfl⟩, ⟨_, rfl⟩, List.forall_mem_nil _⟩
    obtain ⟨result, made, groups⟩ := (entries_grouped Library.authors _).2 all
    obtain ⟨e, found, merges⟩ := groups.keyed _ (List.mem_cons_self ..) (.int 1) rfl
    exact ⟨result, made, groups.keys, groups.size, groups.positional 0, e, found, merges⟩
  · refine ⟨_, rfl, (entries_grouped Library.authors _).1 [Library.titleRow 5] _ _ _ rfl ?_ rfl⟩
    exact List.forall_mem_singleton.2 ⟨_, rfl⟩

end Materializer

end RecordMapper
