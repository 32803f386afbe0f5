import RecordMapper.Proofs.Materialize.Rows

/-!
What merging rows does to the entry under a key.

`Materializer.rowsUnder` lists the rows that are filed under a key. The entry there is the one made
of the first of them, with the entries made of the others merged into it (`get?_entries`), and each
of its fields is merged by itself (`fields_of_get?`): a list takes the items of later lists that it
does not hold yet, and any other value stays as it is. So what the first row gives is kept
(`foldl_mergeValue_grows`), what is in a field comes from one of the rows
(`exists_mem_of_foldl_mergeValue`), and where all rows give lists, each item is there or equals one
that is (`exists_equal_of_foldl_mergeValue`).
-/

namespace RecordMapper

/-! ### Items that are appended -/

theorem pairwise_of_length_le_one {α : Type} {R : α → α → Prop} {items : List α}
    (short : items.length ≤ 1) : items.Pairwise R := by
  rcases items with _ | ⟨x, _ | ⟨y, rest⟩⟩
  · exact .nil
  · exact List.pairwise_singleton ..
  · simp at short

namespace Entry

theorem appendNew_cons (existing items : List Value) (item : Value) :
    appendNew existing (item :: items)
      = appendNew (if existing.any (·.equals item) then existing else existing ++ [item]) items :=
  rfl

/-- Nothing is taken out of a list. -/
theorem subset_appendNew (existing items : List Value) : existing ⊆ appendNew existing items := by
  induction items generalizing existing with
  | nil => exact fun _ mem => mem
  | cons item rest ih =>
    rw [appendNew_cons]
    split
    · exact ih existing
    · exact fun _ mem => ih _ (List.mem_append_left _ mem)

/-- Nothing but the items is put into a list. -/
theorem mem_or_mem_of_mem_appendNew {existing items : List Value} {x : Value}
    (mem : x ∈ appendNew existing items) : x ∈ existing ∨ x ∈ items := by
  induction items generalizing existing with
  | nil => exact .inl mem
  | cons item rest ih =>
    rw [appendNew_cons] at mem
    split at mem
    · exact (ih mem).imp_right (List.mem_cons_of_mem _)
    · rcases ih mem with mem | mem
      · rcases List.mem_append.1 mem with mem | mem
        · exact .inl mem
        · exact .inr (List.mem_singleton.1 mem ▸ List.mem_cons_self ..)
      · exact .inr (List.mem_cons_of_mem _ mem)

/-- An item is in the list afterwards, or equals one that is. -/
theorem exists_equal_of_mem_items (existing : List Value) {items : List Value} {item : Value}
    (mem : item ∈ items) :
    ∃ held ∈ appendNew existing items, held = item ∨ held.equals item = true := by
  induction items generalizing existing with
  | nil => cases mem
  | cons first rest ih =>
    rw [appendNew_cons]
    rcases List.mem_cons.1 mem with rfl | mem
    · split
      · rename_i equal
        obtain ⟨held, there, equal⟩ := List.any_eq_true.1 equal
        exact ⟨held, subset_appendNew _ _ there, .inr equal⟩
      · have last := List.mem_append_right existing (List.mem_singleton_self item)
        exact ⟨item, subset_appendNew _ _ last, .inl rfl⟩
    · exact ih _ mem

/-- Items that are held to be different from those before them stay so in a list. -/
theorem pairwise_appendNew {R : Value → Value → Prop} {existing items : List Value}
    (pairwise : existing.Pairwise R)
    (apart : ∀ held ∈ existing, ∀ item ∈ items, held.equals item = false → R held item)
    (within : items.Pairwise fun held item => held.equals item = false → R held item) :
    (appendNew existing items).Pairwise R := by
  induction items generalizing existing with
  | nil => exact pairwise
  | cons item rest ih =>
    obtain ⟨first, within⟩ := List.pairwise_cons.1 within
    have later : ∀ held ∈ existing, ∀ item ∈ rest, held.equals item = false → R held item :=
      fun held there item mem => apart held there item (List.mem_cons_of_mem _ mem)
    rw [appendNew_cons]
    split
    · exact ih pairwise later within
    · rename_i new
      have different : ∀ held ∈ existing, held.equals item = false := by
        simpa using new
      refine ih (List.pairwise_append.2 ⟨pairwise, List.pairwise_singleton .., ?_⟩) ?_ within
      · intro held there x mem
        obtain rfl := List.mem_singleton.1 mem
        exact apart held there x (List.mem_cons_self ..) (different held there)
      · intro held there
        rcases List.mem_append.1 there with there | there
        · exact later held there
        · obtain rfl := List.mem_singleton.1 there
          exact first

/-! ### Fields one by one -/

/-- Merges a field of another entry, which it may not have, into a field. -/
def mergeValue : Option Value → Option Value → Option Value
  | some (.list existing), some (.list items) => some (.list (appendNew existing items))
  | none, some (.list items) => some (.list items)
  | held, _ => held

theorem get?_mergeField (fields : List (String × Value)) (name k : String) (v : Value) :
    Assoc.get? k (mergeField fields name v)
      = if name = k then mergeValue (Assoc.get? k fields) (some v) else Assoc.get? k fields := by
  by_cases same : name = k
  · subst same
    rw [if_pos rfl]
    unfold mergeField mergeValue
    cases v with
    | list items =>
      rcases found : Assoc.get? name fields with _ | held
      · simp [Assoc.get?_insert]
      · cases held <;> simp [Assoc.get?_insert, found]
    | _ => rcases Assoc.get? name fields with _ | held <;> simp
  · rw [if_neg same]
    unfold mergeField
    cases v with
    | list items =>
      rcases Assoc.get? name fields with _ | held
      · simp [Assoc.get?_insert, same]
      · cases held <;> simp [Assoc.get?_insert, same]
    | _ => rfl

theorem mergeValue_none (held : Option Value) : mergeValue held none = held := by
  rcases held with _ | held
  · rfl
  · cases held <;> rfl

/-- Merging works on each field by itself. -/
theorem get?_mergeLists (e : Entry) {other : Entry} (distinct : (Assoc.keys other.fields).Nodup)
    (name : String) :
    (e.mergeLists other).get? name = mergeValue (e.get? name) (other.get? name) := by
  obtain ⟨model, fields, dirty⟩ := e
  obtain ⟨otherModel, others, otherDirty⟩ := other
  show Assoc.get? name (others.foldl (fun fields f => mergeField fields f.1 f.2) fields)
    = mergeValue (Assoc.get? name fields) (Assoc.get? name others)
  induction others generalizing fields with
  | nil => exact (mergeValue_none _).symm
  | cons field rest ih =>
    have distinct : field.1 ∉ Assoc.keys rest ∧ (Assoc.keys rest).Nodup :=
      List.nodup_cons.1 distinct
    rw [List.foldl_cons, ih _ distinct.2, get?_mergeField, Assoc.get?]
    by_cases same : field.1 = name
    · subst same
      rw [if_pos rfl, if_pos rfl, Assoc.get?_eq_none_iff.2 distinct.1, mergeValue_none]
    · rw [if_neg same, if_neg same]

/-- The first entry with the others merged into it. -/
def mergeAll : List Entry → Option Entry
  | [] => none
  | e :: rest => some (rest.foldl mergeLists e)

theorem get?_foldl_mergeLists (e : Entry) {others : List Entry}
    (distinct : ∀ other ∈ others, (Assoc.keys other.fields).Nodup) (name : String) :
    (others.foldl mergeLists e).get? name
      = (others.map (·.get? name)).foldl mergeValue (e.get? name) := by
  induction others generalizing e with
  | nil => rfl
  | cons other rest ih =>
    rw [List.foldl_cons, List.map_cons, List.foldl_cons,
      ih _ fun o mem => distinct o (List.mem_cons_of_mem _ mem),
      get?_mergeLists e (distinct other (List.mem_cons_self ..))]

end Entry

/-! ### Fields merged in a run -/

/-- The items of a list; any other value is the only item. -/
def Value.items : Value → List Value
  | .list items => items
  | v => [v]

/-- The second value is the first one, with more items if it is a list. -/
inductive Value.Grows : Value → Value → Prop
  | same (v : Value) : v.Grows v
  | list {items all : List Value} (kept : items ⊆ all) : (Value.list items).Grows (.list all)

theorem Value.Grows.mem_items {v w x : Value} (grows : v.Grows w) (mem : x ∈ v.items) :
    x ∈ w.items := by
  cases grows with
  | same => exact mem
  | list kept => exact kept mem

namespace Entry

/-- A list stays a list and keeps its items. -/
theorem foldl_mergeValue_list (items : List Value) (others : List (Option Value)) :
    ∃ all, others.foldl mergeValue (some (.list items)) = some (.list all) ∧ items ⊆ all := by
  induction others generalizing items with
  | nil => exact ⟨items, rfl, fun _ mem => mem⟩
  | cons other rest ih =>
    rw [List.foldl_cons]
    unfold mergeValue
    split
    · rename_i existing new same
      cases same
      obtain ⟨all, merged, kept⟩ := ih (appendNew items new)
      exact ⟨all, merged, fun _ mem => kept (subset_appendNew _ _ mem)⟩
    · rename_i none
      cases none
    · exact ih items

/-- What is not a list stays as it is. -/
theorem foldl_mergeValue_of_not_list {v : Value} (notList : ∀ items, v ≠ .list items)
    (others : List (Option Value)) : others.foldl mergeValue (some v) = some v := by
  induction others with
  | nil => rfl
  | cons other rest ih =>
    have step : mergeValue (some v) other = some v := by
      cases v with
      | list items => exact absurd rfl (notList items)
      | _ => rfl
    rw [List.foldl_cons, step, ih]

/-- A field keeps what it has. -/
theorem foldl_mergeValue_grows (v : Value) (others : List (Option Value)) :
    ∃ merged, others.foldl mergeValue (some v) = some merged ∧ v.Grows merged := by
  by_cases isList : ∃ items, v = .list items
  · obtain ⟨items, rfl⟩ := isList
    obtain ⟨all, merged, kept⟩ := foldl_mergeValue_list items others
    exact ⟨_, merged, .list kept⟩
  · exact ⟨v, foldl_mergeValue_of_not_list (fun items same => isList ⟨items, same⟩) others,
      .same v⟩

/-- What a field has comes from one of those that were merged. -/
theorem exists_mem_of_foldl_mergeValue {first : Option Value} {others : List (Option Value)}
    {merged x : Value} (result : others.foldl mergeValue first = some merged)
    (mem : x ∈ merged.items) : ∃ v, some v ∈ first :: others ∧ x ∈ v.items := by
  induction others generalizing first with
  | nil => exact ⟨merged, List.mem_singleton.2 result.symm, mem⟩
  | cons other rest ih =>
    obtain ⟨v, there, mem⟩ := ih result
    rcases List.mem_cons.1 there with step | there
    · unfold mergeValue at step
      split at step
      · cases step
        rcases mem_or_mem_of_mem_appendNew mem with mem | mem
        · exact ⟨_, List.mem_cons_self .., mem⟩
        · exact ⟨_, List.mem_cons_of_mem _ (List.mem_cons_self ..), mem⟩
      · cases step
        exact ⟨_, List.mem_cons_of_mem _ (List.mem_cons_self ..), mem⟩
      · exact ⟨v, step ▸ List.mem_cons_self .., mem⟩
    · exact ⟨v, List.mem_cons_of_mem _ (List.mem_cons_of_mem _ there), mem⟩

/-- Where there are only lists, every item is in the list that they are merged to, or equals one
that is. -/
theorem exists_equal_of_foldl_mergeValue {first : Option Value} {others : List (Option Value)}
    (lists : ∀ v, some v ∈ first :: others → ∃ items, v = .list items) {items : List Value}
    (there : some (.list items) ∈ first :: others) {x : Value} (mem : x ∈ items) :
    ∃ all, others.foldl mergeValue first = some (.list all) ∧
      ∃ held ∈ all, held = x ∨ held.equals x = true := by
  induction others generalizing first items x with
  | nil =>
    obtain rfl := List.mem_singleton.1 there
    exact ⟨items, rfl, x, mem, .inl rfl⟩
  | cons other rest ih =>
    have merged : ∀ v, some v ∈ mergeValue first other :: rest → ∃ items, v = .list items := by
      intro v there
      rcases List.mem_cons.1 there with step | there
      · unfold mergeValue at step
        split at step
        · cases step; exact ⟨_, rfl⟩
        · cases step; exact ⟨_, rfl⟩
        · exact lists v (step ▸ List.mem_cons_self ..)
      · exact lists v (List.mem_cons_of_mem _ (List.mem_cons_of_mem _ there))
    rw [List.foldl_cons]
    rcases List.mem_cons.1 there with rfl | there
    · -- the first list is the beginning of the merged one
      obtain ⟨all, result, kept⟩ := foldl_mergeValue_list items (other :: rest)
      exact ⟨all, result, x, kept mem, .inl rfl⟩
    rcases List.mem_cons.1 there with rfl | there
    · -- the item is appended, or one that equals it is held
      rcases first with _ | v
      · obtain ⟨all, result, kept⟩ := foldl_mergeValue_list items rest
        exact ⟨all, result, x, kept mem, .inl rfl⟩
      · obtain ⟨existing, rfl⟩ := lists v (List.mem_cons_self ..)
        obtain ⟨held, appended, equal⟩ := exists_equal_of_mem_items existing mem
        obtain ⟨all, result, kept⟩ := foldl_mergeValue_list (appendNew existing items) rest
        exact ⟨all, result, held, kept appended, equal⟩
    · exact ih merged (List.mem_cons_of_mem _ there) mem

end Entry

/-! ### Rows under a key -/

namespace Entries

/-- An entry as it stands after it is merged into the one that was there. -/
def merged : Option Entry → Entry → Entry
  | none, e => e
  | some held, e => held.mergeLists e

theorem get?_insertAt (entries : Entries) (key k : Key) (e : Entry) :
    (entries.insertAt key e).get? k
      = if key = k then some (merged (entries.get? k) e) else entries.get? k := by
  unfold insertAt get? Assoc.contains
  by_cases same : key = k
  · subst same
    cases found : Assoc.get? key entries.items with
    | none => simp [Assoc.get?_insert, merged]
    | some held => simp [Assoc.get?_modify, merged, found]
  · cases found : Assoc.get? key entries.items with
    | none => simp [Assoc.get?_insert, same]
    | some held => simp [Assoc.get?_modify, same]

end Entries

namespace Materializer

variable {p : Materializer}

/-- The rows with the keys that their entries are filed under; a row without a key has the next
position. -/
def filings (p : Materializer) : (next : Nat) → List Row → List (Key × Row)
  | _, [] => []
  | next, row :: rest =>
    match p.key? row with
    | some key => (key, row) :: filings p next rest
    | none => (.position next, row) :: filings p (next + 1) rest

/-- The rows that are filed under a key, in order. -/
def rowsUnder (p : Materializer) (key : Key) (rows : List Row) : List Row :=
  (p.filings 0 rows).filterMap fun f => if f.1 = key then some f.2 else none

/-- The rows under a key are made into these entries. -/
def Makes (p : Materializer) (key : Key) (rows : List Row) (es : List Entry) : Prop :=
  (p.rowsUnder key rows).map p.entry = es.map .ok

theorem Makes.exists_row {key : Key} {rows : List Row} {es : List Entry}
    (makes : p.Makes key rows es) {e : Entry} (mem : e ∈ es) :
    ∃ row ∈ p.rowsUnder key rows, p.entry row = .ok e := by
  have ok : (.ok e : Result Entry) ∈ es.map .ok := List.mem_map_of_mem mem
  rw [← makes] at ok
  exact List.mem_map.1 ok

theorem Makes.mem {key : Key} {rows : List Row} {es : List Entry} (makes : p.Makes key rows es)
    {row : Row} (filed : row ∈ p.rowsUnder key rows) {e : Entry} (ofRow : p.entry row = .ok e) :
    e ∈ es := by
  have made : p.entry row ∈ (p.rowsUnder key rows).map p.entry := List.mem_map_of_mem filed
  rw [makes, ofRow] at made
  obtain ⟨other, mem, same⟩ := List.mem_map.1 made
  cases same
  exact mem

theorem Makes.first {key : Key} {rows : List Row} {e : Entry} {es : List Entry}
    (makes : p.Makes key rows (e :: es)) {row : Row}
    (first : (p.rowsUnder key rows).head? = some row) : p.entry row = .ok e := by
  have heads := congrArg List.head? makes
  rw [List.head?_map, first] at heads
  exact Option.some.inj heads

/-- One row changes the entry under its key, and no other. -/
theorem get?_addRow (entries : Entries) (row : Row) (e : Entry) (rest : List Row) :
    ∃ key, p.filings entries.nextPosition (row :: rest)
        = (key, row) :: p.filings (entries.insert (p.key? row) e).nextPosition rest ∧
      ∀ k, (entries.insert (p.key? row) e).get? k
        = if key = k then some (Entries.merged (entries.get? k) e) else entries.get? k := by
  rw [filings]
  cases p.key? row with
  | some key => exact ⟨key, rfl, fun k => Entries.get?_insertAt entries key k e⟩
  | none =>
    exact ⟨_, rfl, fun k => Entries.get?_insertAt _ (.position entries.nextPosition) k e⟩

theorem get?_addRows {count : Nat} {entries result : Entries} {rows : List Row}
    (made : p.addRows count entries rows = .ok result) (key : Key) :
    ∃ es : List Entry,
      ((p.filings entries.nextPosition rows).filterMap fun f =>
          if f.1 = key then some f.2 else none).map p.entry = es.map .ok ∧
        result.get? key
          = es.foldl (fun held e => some (Entries.merged held e)) (entries.get? key) := by
  induction rows generalizing count entries with
  | nil =>
    cases made
    exact ⟨[], rfl, rfl⟩
  | cons row rest ih =>
    obtain ⟨e, first, made⟩ := Result.exists_of_bind made
    have ofRow : p.entry row = .ok e := by
      cases h : p.entry row with
      | error error => rw [h] at first; cases first
      | ok e' => rw [h] at first; cases first; rfl
    obtain ⟨es, all, result⟩ := ih made
    obtain ⟨k, filed, step⟩ := get?_addRow (p := p) entries row e rest
    rw [step] at result
    rw [filed, List.filterMap_cons]
    by_cases same : k = key
    · subst same
      simp only [if_true] at result ⊢
      exact ⟨e :: es, by rw [List.map_cons, List.map_cons, ofRow, all], result⟩
    · simp only [same, if_false] at result ⊢
      exact ⟨es, all, result⟩

/-- **The entry under a key is made of the rows under it**: of the first one, with the others merged
into it. -/
theorem get?_entries {rows : List Row} {result : Entries} (made : p.entries rows = .ok result)
    (key : Key) :
    ∃ es, p.Makes key rows es ∧ result.get? key = Entry.mergeAll es := by
  obtain ⟨es, all, result⟩ := get?_addRows made key
  refine ⟨es, all, ?_⟩
  rw [result]
  have held : ∀ (es : List Entry) (e : Entry),
      es.foldl (fun held e => some (Entries.merged held e)) (some e)
        = some (es.foldl Entry.mergeLists e) := by
    intro es
    induction es with
    | nil => exact fun _ => rfl
    | cons first rest ih => exact fun e => ih _
  cases es with
  | nil => rfl
  | cons e rest => exact held rest e

theorem mem_of_mem_rowsUnder {rows : List Row} {key : Key} {row : Row}
    (filed : row ∈ p.rowsUnder key rows) : row ∈ rows := by
  have all : ∀ (next : Nat) (rows : List Row), ∀ f ∈ p.filings next rows, f.2 ∈ rows := by
    intro next rows
    induction rows generalizing next with
    | nil => exact List.forall_mem_nil _
    | cons first rest ih =>
      rw [filings]
      split <;> exact fun f mem => (List.mem_cons.1 mem).elim
        (fun same => same ▸ List.mem_cons_self ..) fun mem => List.mem_cons_of_mem _ (ih _ f mem)
  obtain ⟨⟨k, other⟩, mem, same⟩ := List.mem_filterMap.1 filed
  simp only at same
  split at same
  · cases same
    exact all 0 rows _ mem
  · cases same

/-- Every row is made into an entry, and there is an entry under its key. -/
theorem exists_get?_of_mem_rowsUnder {rows : List Row} {result : Entries}
    (made : p.entries rows = .ok result) {key : Key} {row : Row}
    (filed : row ∈ p.rowsUnder key rows) :
    ∃ e own, result.get? key = some e ∧ p.entry row = .ok own := by
  obtain ⟨es, makes, merged⟩ := get?_entries made key
  have mem : p.entry row ∈ (p.rowsUnder key rows).map p.entry := List.mem_map_of_mem filed
  rw [makes] at mem
  obtain ⟨own, there, ofRow⟩ := List.mem_map.1 mem
  cases es with
  | nil => cases there
  | cons first rest => exact ⟨_, own, merged, ofRow.symm⟩

/-- The entries that are merged under a key, and what its fields are merged to. -/
theorem fields_of_get? {rows : List Row} {result : Entries} (made : p.entries rows = .ok result)
    {key : Key} {e : Entry} (found : result.get? key = some e) :
    ∃ first rest, p.Makes key rows (first :: rest) ∧ ∀ name,
      e.get? name = (rest.map (·.get? name)).foldl Entry.mergeValue (first.get? name) := by
  obtain ⟨es, makes, merged⟩ := get?_entries made key
  rw [found] at merged
  cases es with
  | nil => cases merged
  | cons first rest =>
    cases merged
    refine ⟨first, rest, makes, fun name => Entry.get?_foldl_mergeLists first ?_ name⟩
    intro other mem
    obtain ⟨row, -, ofRow⟩ := makes.exists_row (List.mem_cons_of_mem _ mem)
    obtain ⟨-, -, distinct, -⟩ := Materialize.fields_of_entryWithin ofRow
    exact distinct

end Materializer

end RecordMapper
