import RecordMapper.Proofs.Materialize.Merging

/-!
Which joined children a result keeps, and how often.

`Row.Joins` follows the columns of a row along a chain of relations to a joined target, and
`Entry.Holds` follows the fields of an entry along the same chain. The entry made of one row holds
every child that the row joins. Merging reaches only the lists of the entry under the key: the
children of a row are kept if it is the first under its key, or if the chain starts with a relation
to many targets (`exists_item_of_joins`), and are lost below a relation to one target
(`entries_lose_child`).

No list in the entry made of one row holds more than one item, and a list that rows are merged into
holds one entry for each child as long as the rows describe the child alike (`pairwise_children`); a
child with different children in two rows is held twice (`entries_hold_child_twice`).
-/

namespace RecordMapper

variable {schema : Schema} {config : Config} {m : Model}

/-! ### Chains of relations -/

/-- The columns of a row under an alias stand for a target of the relation: its primary key column
is not empty. -/
structure Row.JoinedUnder (schema : Schema) (config : Config) (m : Model) (row : Row) (a : String)
    (target : Model) (group : Row) : Prop where
  resolved : schema.relationTarget m a = .ok target
  grouped : Assoc.get? a (Row.groups config row) = some group
  primaryKey : ∃ v, Assoc.get? target.primaryKey group = some v ∧ v.isEmpty = false

/-- A chain of aliases in a row, each with a joined target, that ends in a relation to many targets:
`front` are the aliases before the last, and `group` are the columns of the last target. -/
inductive Row.Joins (schema : Schema) (config : Config) :
    Model → Row → (front : List String) → (a : String) → Model → (group : Row) → Prop
  | last {m : Model} {row : Row} {a : String} {target : Model} {group : Row}
    (joined : Row.JoinedUnder schema config m row a target group) (many : m.isMany a = true) :
    Joins schema config m row [] a target group
  | through {m : Model} {row : Row} {b : String} {inner : Model} {columns : Row}
    {front : List String} {a : String} {target : Model} {group : Row}
    (joined : Row.JoinedUnder schema config m row b inner columns)
    (rest : Joins schema config inner columns front a target group) :
    Joins schema config m row (b :: front) a target group

/-- Along the chain of fields, the entry holds the item in a list. -/
def Entry.Holds : Entry → (front : List String) → (a : String) → (item : Entry) → Prop
  | e, [], a, item => ∃ items, e.get? a = some (.list items) ∧ .entry item ∈ items
  | e, b :: front, a, item =>
    ∃ v inner, e.get? b = some v ∧ .entry inner ∈ v.items ∧ inner.Holds front a item

namespace Materialize

/-- A joined target is in the field of the relation. -/
theorem get?_of_joinedUnder {depth : Nat} {row group : Row} {e : Entry} {a : String}
    {target : Model} (made : entryWithin schema config depth m row = .ok e)
    (joined : Row.JoinedUnder schema config m row a target group) :
    ∃ less inner, entryWithin schema config less target group = .ok inner ∧
      e.get? a = some (if m.isMany a then .list [.entry inner] else .entry inner) := by
  obtain ⟨less, -, -, fields⟩ := fields_of_entryWithin made
  obtain ⟨v, related, found⟩ := (fields a).1 group joined.grouped
  obtain ⟨target', resolved, holds⟩ := cases_of_relation related
  cases joined.resolved.symm.trans resolved
  obtain ⟨key, column, nonempty⟩ := joined.primaryKey
  have isJoined : Row.isJoined target group = true := by
    rw [Row.isJoined, Assoc.contains, column, Option.isSome_some, Bool.true_and, List.any_eq_true]
    exact ⟨_, Assoc.mem_of_get? column, by simp [nonempty]⟩
  rw [if_pos isJoined] at holds
  obtain ⟨inner, nested, rfl⟩ := holds
  exact ⟨less, inner, nested, found⟩

/-- **The entry made of a row holds every child that the row joins.** -/
theorem holds_of_joins {depth : Nat} {row group : Row} {e : Entry} {front : List String}
    {a : String} {target : Model} (made : entryWithin schema config depth m row = .ok e)
    (joins : Row.Joins schema config m row front a target group) :
    ∃ less item, entryWithin schema config less target group = .ok item ∧
      e.Holds front a item := by
  induction joins generalizing depth e with
  | last joined many =>
    obtain ⟨less, item, nested, found⟩ := get?_of_joinedUnder made joined
    rw [if_pos many] at found
    exact ⟨less, item, nested, _, found, List.mem_singleton_self _⟩
  | through joined _ ih =>
    obtain ⟨less, inner, nested, found⟩ := get?_of_joinedUnder made joined
    obtain ⟨less, item, made, holds⟩ := ih nested
    refine ⟨less, item, made, _, inner, found, ?_, holds⟩
    split <;> exact List.mem_singleton_self _

/-- The primary key of an entry that is made of columns is that of the columns. -/
theorem get?_primaryKey (valid : config.validate = .ok ()) {depth : Nat} {group : Row}
    {item : Entry} (made : entryWithin schema config depth m group = .ok item)
    (distinct : (Assoc.keys group).Nodup) (plain : m.IsPlain config m.primaryKey)
    (unaliased : config.prefixed config.selfAlias m.primaryKey ∉ Assoc.keys group) {v : Value}
    (column : Assoc.get? m.primaryKey group = some v) : item.get? m.primaryKey = some v := by
  obtain ⟨less, -, -, fields⟩ := fields_of_entryWithin made
  obtain ⟨related, own⟩ := fields m.primaryKey
  have ungrouped : Assoc.get? m.primaryKey (Row.groups config group) = none := by
    cases grouped : Assoc.get? m.primaryKey (Row.groups config group) with
    | none => rfl
    | some columns =>
      obtain ⟨w, relation, -⟩ := related columns grouped
      obtain ⟨target, resolved, -⟩ := cases_of_relation relation
      obtain ⟨f, t, found, points, -⟩ := Schema.relationTarget_eq_ok_iff.1 resolved
      have declared := plain.not_relation
      simp [Model.isRelation, found, FieldType.isRelation, points] at declared
  have loads := own ungrouped
  rw [Row.get?_ownFields valid distinct plain.unseparated unaliased column] at loads
  generalize item.get? m.primaryKey = held at loads
  cases loads with
  | some loads =>
    rw [Loads, if_neg (by simp [plain.not_serialized])] at loads
    rw [loads]

end Materialize

/-! ### Equal entries hold equal children -/

theorem Value.eq_entry_of_equals {v : Value} {inner : Entry}
    (equal : v.equals (.entry inner) = true) :
    ∃ held : Entry, v = .entry held ∧ held.equals inner = true := by
  cases v with
  | entry held =>
    rw [Value.equals] at equal
    exact ⟨held, rfl, equal⟩
  | _ => simp [Value.equals] at equal

theorem Value.exists_mem_items_of_equals {v w : Value} (equal : v.equals w = true) {inner : Entry}
    (mem : .entry inner ∈ w.items) :
    ∃ held : Entry, .entry held ∈ v.items ∧ held.equals inner = true := by
  cases w with
  | list items =>
    cases v with
    | list held =>
      rw [Value.equals] at equal
      obtain ⟨x, there, equal⟩ := exists_equal_of_equalItems equal mem
      obtain ⟨e, rfl, same⟩ := eq_entry_of_equals equal
      exact ⟨e, there, same⟩
    | _ => simp [Value.equals] at equal
  | entry e =>
    obtain rfl : inner = e := by simpa [Value.items] using mem
    obtain ⟨held, rfl, same⟩ := eq_entry_of_equals equal
    exact ⟨held, List.mem_singleton_self _, same⟩
  | _ => simp [Value.items] at mem

theorem Value.DistinctNames.of_mem_items {v x : Value} (distinct : v.DistinctNames)
    (mem : x ∈ v.items) : x.DistinctNames := by
  cases v with
  | list items => exact Value.distinctNames_list.1 distinct x mem
  | _ => exact List.mem_singleton.1 mem ▸ distinct

/-- What an entry holds, an entry that equals it holds, too. -/
theorem Entry.Holds.of_equals {held e item : Entry} {front : List String} {a : String}
    (distinct : (Value.entry held).DistinctNames) (equal : held.equals e = true)
    (holds : e.Holds front a item) :
    ∃ other, held.Holds front a other ∧ (Value.entry other).DistinctNames ∧
      other.equals item = true := by
  induction front generalizing held e with
  | nil =>
    obtain ⟨items, found, mem⟩ := holds
    obtain ⟨v, there, same⟩ :=
      Entry.exists_get?_of_equals (Value.distinctNames_entry.1 distinct).1 equal found
    obtain ⟨other, inside, alike⟩ := Value.exists_mem_items_of_equals same mem
    cases v with
    | list others =>
      exact ⟨other, ⟨others, there, inside⟩, (distinct.of_get? there).of_mem_items inside, alike⟩
    | _ => simp [Value.equals] at same
  | cons b front ih =>
    obtain ⟨w, inner, found, mem, holds⟩ := holds
    obtain ⟨v, there, same⟩ :=
      Entry.exists_get?_of_equals (Value.distinctNames_entry.1 distinct).1 equal found
    obtain ⟨other, inside, alike⟩ := Value.exists_mem_items_of_equals same mem
    obtain ⟨last, below, distinct, equal⟩ :=
      ih ((distinct.of_get? there).of_mem_items inside) alike holds
    exact ⟨last, ⟨v, other, there, inside, below⟩, distinct, equal⟩

/-- What an entry holds stays there while its fields grow. -/
theorem Entry.Holds.of_grows {e merged item : Entry} {front : List String} {a : String}
    (grows : ∀ name v, e.get? name = some v → ∃ w, merged.get? name = some w ∧ v.Grows w)
    (holds : e.Holds front a item) : merged.Holds front a item := by
  cases front with
  | nil =>
    obtain ⟨items, found, mem⟩ := holds
    obtain ⟨w, there, more⟩ := grows a _ found
    cases more with
    | same => exact ⟨items, there, mem⟩
    | list kept => exact ⟨_, there, kept mem⟩
  | cons b front =>
    obtain ⟨v, inner, found, mem, holds⟩ := holds
    obtain ⟨w, there, more⟩ := grows b _ found
    exact ⟨w, inner, there, more.mem_items mem, holds⟩

/-! ### A library

Authors have books, and books have tags and an author. -/

namespace Library

def tag : Model := { name := "Tag", fields := [.ofType "id" (.primitive .int)] }

def book : Model :=
  { name := "Book",
    fields := [.ofType "id" (.primitive .int), .ofType "tags" (.hasMany "Tag"),
      .ofType "author" (.belongsTo "Author" "author_id")] }

def author : Model :=
  { name := "Author",
    fields := [.ofType "id" (.primitive .int), .ofType "books" (.hasMany "Book")] }

def catalog : Schema := .ofModels [tag, book, author]

def books : Materializer := ⟨catalog, book, {}, some "id"⟩

def authors : Materializer := ⟨catalog, author, {}, some "id"⟩

/-- A row with a book of an author and a tag of the book. -/
def authorRow (tag : Int64) : Row :=
  [("id", .int 1), ("books:id", .int 5), ("books:tags:id", .int tag)]

/-- A row with a book of an author. -/
def titleRow (id : Int64) : Row :=
  [("id", .int 1), ("books:title", .string "Tales"), ("books:id", .int id)]

/-- A row with the author of a book and a book of the author. -/
def bookRow (other : Int64) : Row :=
  [("id", .int 1), ("author:id", .int 7), ("author:books:id", .int other)]

/-- An author with books. -/
def withBooks (books : List Value) : Entry :=
  ⟨"Author", [("id", .int 1), ("books", .list books)], []⟩

/-- A book with a tag. -/
def tagged (tag : Int64) : Value :=
  .entry ⟨"Book", [("id", .int 5), ("tags", .list [.entry ⟨"Tag", [("id", .int tag)], []⟩])], []⟩

/-- A book with a title. -/
def titled (id : Int64) : Entry :=
  ⟨"Book", [("title", .string "Tales"), ("id", .int id)], []⟩

theorem titled_equals (id id' : Int64) : (titled id).equals (titled id') = (id == id') := by
  simp [titled, Entry.equals, equalFields, Assoc.get?, Value.equals]

theorem withBooks_mergeLists (books : List Value) (book : Value) :
    (withBooks books).mergeLists (withBooks [book])
      = withBooks (if books.any (·.equals book) then books else books ++ [book]) := by
  simp [withBooks, Entry.mergeLists, Entry.mergeField, Entry.appendNew, Assoc.get?, Assoc.insert]

end Library

/-! ### Children that are kept -/

/-- The columns of a chain have distinct names. -/
theorem Row.Joins.nodup_group {row group : Row} {front : List String} {a : String}
    {target : Model} (joins : Row.Joins schema config m row front a target group) :
    (Assoc.keys group).Nodup := by
  induction joins with
  | last joined _ => exact (Row.distinct_groups _).2 _ (Assoc.mem_of_get? joined.grouped)
  | through _ _ ih => exact ih

namespace Materializer

variable {p : Materializer} {rows : List Row} {result : Entries}

/-- Merging keeps what the relation of a row holds: the row is the first one under its key, or the
relation has many targets and no row under the key has a column of that name itself. -/
def Keeps (p : Materializer) (key : Key) (rows : List Row) (row : Row) (b : String) : Prop :=
  (p.rowsUnder key rows).head? = some row ∨
    p.model.isMany b = true ∧
      ∀ other ∈ p.rowsUnder key rows, b ∉ Assoc.keys (Row.ownFields p.config other)

/-- In the entry made of a row without a column of that name, a relation to many targets is a list
of at most one item. -/
theorem exists_short_list_of_entry {row : Row} {e : Entry} (made : p.entry row = .ok e) {b : String}
    (many : p.model.isMany b = true) (unowned : b ∉ Assoc.keys (Row.ownFields p.config row))
    {v : Value} (found : e.get? b = some v) : ∃ items, v = .list items ∧ items.length ≤ 1 := by
  rcases Materialize.cases_of_get?_entryWithin made found with
    ⟨less, group, -, -, related⟩ | ⟨raw, own, -⟩
  · obtain ⟨target, -, holds⟩ := Materialize.cases_of_relation related
    simp only [many, if_true] at holds
    split at holds
    · obtain ⟨inner, -, rfl⟩ := holds
      exact ⟨_, rfl, Nat.le_refl 1⟩
    · exact ⟨_, holds, Nat.zero_le 1⟩
  · exact absurd (List.mem_map.2 ⟨_, own, rfl⟩) unowned

theorem exists_list_of_entry {row : Row} {e : Entry} (made : p.entry row = .ok e) {b : String}
    (many : p.model.isMany b = true) (unowned : b ∉ Assoc.keys (Row.ownFields p.config row))
    {v : Value} (found : e.get? b = some v) : ∃ items, v = .list items := by
  obtain ⟨items, same, -⟩ := exists_short_list_of_entry made many unowned found
  exact ⟨items, same⟩

/-- A child in a list of one row is in the merged list, or equals one that is. -/
theorem exists_child_of_row (made : p.entries rows = .ok result)
    (distinct : ∀ row ∈ rows, ∀ column ∈ row, column.2.DistinctNames) {key : Key} {e : Entry}
    (found : result.get? key = some e) {b : String} (many : p.model.isMany b = true)
    (unowned : ∀ other ∈ p.rowsUnder key rows, b ∉ Assoc.keys (Row.ownFields p.config other))
    {row : Row} (filed : row ∈ p.rowsUnder key rows) {own : Entry} (ofRow : p.entry row = .ok own)
    {items : List Value} (list : own.get? b = some (.list items)) {inner : Entry}
    (mem : .entry inner ∈ items) :
    ∃ all, e.get? b = some (.list all) ∧ ∃ held : Entry, .entry held ∈ all ∧
      (held = inner ∨ (Value.entry held).DistinctNames ∧ held.equals inner = true) := by
  obtain ⟨first, rest, makes, fields⟩ := fields_of_get? made found
  -- each of the merged values is a list in the entry made of one row
  have origin : ∀ v, some v ∈ first.get? b :: rest.map (·.get? b) →
      (∃ items, v = .list items) ∧ v.DistinctNames := by
    intro v mem
    have mapped : some v ∈ (first :: rest).map (·.get? b) := mem
    obtain ⟨o, there, same⟩ := List.mem_map.1 mapped
    obtain ⟨other, filed, ofOther⟩ := makes.exists_row there
    have columns := distinct other (mem_of_mem_rowsUnder filed)
    exact ⟨exists_list_of_entry ofOther many (unowned other filed) same,
      (Materialize.distinctNames_of_entryWithin columns ofOther).of_get? same⟩
  have there : some (.list items) ∈ first.get? b :: rest.map (·.get? b) :=
    list ▸ List.mem_map_of_mem (f := (·.get? b)) (makes.mem filed ofRow)
  obtain ⟨all, merged, x, inside, equal⟩ :=
    Entry.exists_equal_of_foldl_mergeValue (fun v mem => (origin v mem).1) there mem
  refine ⟨all, (fields b).trans merged, ?_⟩
  rcases equal with rfl | equal
  · exact ⟨inner, inside, .inl rfl⟩
  · obtain ⟨held, rfl, same⟩ := Value.eq_entry_of_equals equal
    obtain ⟨v, before, mem⟩ :=
      Entry.exists_mem_of_foldl_mergeValue (x := .entry held) merged inside
    exact ⟨held, inside, .inr ⟨(origin v before).2.of_mem_items mem, same⟩⟩

/-- What the entry made of a row holds behind a relation that is kept, the merged entry holds, or
something that equals it. -/
theorem exists_holds_of_keeps (made : p.entries rows = .ok result)
    (distinct : ∀ row ∈ rows, ∀ column ∈ row, column.2.DistinctNames) {key : Key} {e : Entry}
    (found : result.get? key = some e) {row : Row} (filed : row ∈ p.rowsUnder key rows)
    {own item : Entry} (ofRow : p.entry row = .ok own) {front : List String} {a : String}
    (keeps : p.Keeps key rows row (front.headD a)) (holds : own.Holds front a item) :
    ∃ held, e.Holds front a held ∧
      (held = item ∨ (Value.entry held).DistinctNames ∧ held.equals item = true) := by
  rcases keeps with first | ⟨many, unowned⟩
  · obtain ⟨e', rest, makes, fields⟩ := fields_of_get? made found
    cases ofRow.symm.trans (makes.first first)
    refine ⟨item, holds.of_grows fun name v there => ?_, .inl rfl⟩
    rw [fields name, there]
    exact Entry.foldl_mergeValue_grows v _
  · cases front with
    | nil =>
      obtain ⟨items, list, mem⟩ := holds
      obtain ⟨all, merged, held, inside, same⟩ :=
        exists_child_of_row made distinct found many unowned filed ofRow list mem
      exact ⟨held, ⟨all, merged, inside⟩, same⟩
    | cons b front =>
      obtain ⟨v, inner, there, mem, below⟩ := holds
      obtain ⟨items, rfl⟩ := exists_list_of_entry ofRow many (unowned row filed) there
      obtain ⟨all, merged, other, inside, same⟩ :=
        exists_child_of_row made distinct found many unowned filed ofRow there mem
      rcases same with rfl | ⟨names, same⟩
      · exact ⟨item, ⟨_, other, merged, inside, below⟩, .inl rfl⟩
      · obtain ⟨held, below, names, same⟩ := below.of_equals names same
        exact ⟨held, ⟨_, other, merged, inside, below⟩, .inr ⟨names, same⟩⟩

/-- **No child that is kept is lost.** Let a row join a child along a chain of relations, and let
merging keep what its first relation holds. Then the entry under the key of the row holds, along
the chain, an item with the primary key of the child. -/
theorem exists_item_of_joins (valid : p.config.validate = .ok ())
    (distinct : ∀ row ∈ rows, ∀ column ∈ row, column.2.DistinctNames)
    (made : p.entries rows = .ok result) {key : Key} {row group : Row} {front : List String}
    {a : String} {target : Model} {v : Value} (filed : row ∈ p.rowsUnder key rows)
    (joins : Row.Joins p.schema p.config p.model row front a target group)
    (keeps : p.Keeps key rows row (front.headD a))
    (plain : target.IsPlain p.config target.primaryKey)
    (unaliased : p.config.prefixed p.config.selfAlias target.primaryKey ∉ Assoc.keys group)
    (column : Assoc.get? target.primaryKey group = some v) :
    ∃ e item w, result.get? key = some e ∧ e.Holds front a item ∧
      item.get? target.primaryKey = some w ∧ (w = v ∨ w.equals v = true) := by
  obtain ⟨e, own, found, ofRow⟩ := exists_get?_of_mem_rowsUnder made filed
  obtain ⟨less, item, nested, holds⟩ := Materialize.holds_of_joins ofRow joins
  have itemKey := Materialize.get?_primaryKey valid nested joins.nodup_group plain unaliased column
  obtain ⟨held, there, same⟩ := exists_holds_of_keeps made distinct found filed ofRow keeps holds
  rcases same with rfl | ⟨names, same⟩
  · exact ⟨e, held, v, found, there, itemKey, .inl rfl⟩
  · obtain ⟨w, heldKey, equal⟩ :=
      Entry.exists_get?_of_equals (Value.distinctNames_entry.1 names).1 same itemKey
    exact ⟨e, held, w, found, there, heldKey, .inr equal⟩

/-- Two rows of an author join one book with different tags: the tag of the second row is there. -/
theorem exists_item_of_joins_second_row :
    ∃ result, Library.authors.entries [Library.authorRow 8, Library.authorRow 9] = .ok result ∧
      ∃ e item w, result.get? (.int 1) = some e ∧ e.Holds ["books"] "tags" item ∧
        item.get? "id" = some w ∧ (w = .int 9 ∨ w.equals (.int 9) = true) := by
  obtain ⟨result, made⟩ : ∃ result,
      Library.authors.entries [Library.authorRow 8, Library.authorRow 9] = .ok result := ⟨_, rfl⟩
  have distinct : ∀ row ∈ [Library.authorRow 8, Library.authorRow 9],
      ∀ column ∈ row, column.2.DistinctNames := by
    have one : ∀ n, ∀ column ∈ Library.authorRow n, column.2.DistinctNames := fun n => by
      simp only [Library.authorRow, List.forall_mem_cons]
      exact ⟨List.nodup_nil, List.nodup_nil, List.nodup_nil, List.forall_mem_nil _⟩
    exact List.forall_mem_cons.2 ⟨one 8, List.forall_mem_singleton.2 (one 9)⟩
  have book : Row.JoinedUnder Library.catalog {} Library.author (Library.authorRow 9) "books"
      Library.book [("id", .int 5), ("tags:id", .int 9)] := ⟨rfl, rfl, _, rfl, rfl⟩
  have joins : Row.Joins Library.catalog {} Library.author (Library.authorRow 9) ["books"] "tags"
      Library.tag [("id", .int 9)] := .through book (.last ⟨rfl, rfl, _, rfl, rfl⟩ rfl)
  have keeps : Library.authors.Keeps (.int 1) [Library.authorRow 8, Library.authorRow 9]
      (Library.authorRow 9) "books" := by
    refine .inr ⟨rfl, fun other mem => ?_⟩
    rcases List.mem_cons.1 (show other ∈ [Library.authorRow 8, Library.authorRow 9] from mem) with
      rfl | mem
    · decide
    · cases List.mem_singleton.1 mem
      decide
  have plain : Library.tag.IsPlain {} "id" :=
    ⟨Config.unseparated_of_not_mem (c := ':') (by decide) (by decide), rfl, rfl⟩
  exact ⟨result, made, exists_item_of_joins (p := Library.authors) rfl distinct made
    (List.mem_cons_of_mem _ (List.mem_cons_self ..)) joins keeps plain (by decide) rfl⟩

/-- Two rows of a book join two books of its author: the second one is lost, since the author is
not a list. -/
theorem entries_lose_child :
    Library.catalog.verify = .ok () ∧
      Library.bookRow 2 ∈ Library.books.rowsUnder (.int 1) [Library.bookRow 1, Library.bookRow 2] ∧
      Row.Joins Library.catalog {} Library.book (Library.bookRow 2) ["author"] "books" Library.book
        [("id", .int 2)] ∧
      ∃ result, Library.books.entries [Library.bookRow 1, Library.bookRow 2] = .ok result ∧
        ¬ ∃ e item, result.get? (.int 1) = some e ∧ e.Holds ["author"] "books" item ∧
          item.get? "id" = some (.int 2) := by
  refine ⟨rfl, List.mem_cons_of_mem _ (List.mem_cons_self ..), ?_, ?_⟩
  · have author : Row.JoinedUnder Library.catalog {} Library.book (Library.bookRow 2) "author"
        Library.author [("id", .int 7), ("books:id", .int 2)] := ⟨rfl, rfl, _, rfl, rfl⟩
    exact .through author (.last ⟨rfl, rfl, _, rfl, rfl⟩ rfl)
  · refine ⟨⟨[(.int 1, ⟨"Book", [("id", .int 1), ("author", .entry ⟨"Author", [("id", .int 7),
      ("books", .list [.entry ⟨"Book", [("id", .int 1)], []⟩])], []⟩)], []⟩)], 0⟩, rfl, ?_⟩
    rintro ⟨e, item, found, ⟨v, inner, author, there, items, books, mem⟩, key⟩
    cases found
    cases author
    cases List.mem_singleton.1 there
    cases books
    cases List.mem_singleton.1 mem
    cases key

end Materializer

/-! ### Children that are held once -/

/-- The values of a row are plain data: neither lists nor entries. -/
def Row.IsScalar (row : Row) : Prop :=
  ∀ column ∈ row, Value.list? column.2 = none ∧ Value.entry? column.2 = none

/-- The second entry, of the second model, stands in the first one behind any chain of
relations. -/
inductive Entry.Nested (schema : Schema) : Model → Entry → Model → Entry → Prop
  | refl (m : Model) (e : Entry) : Nested schema m e m e
  | step {m : Model} {e : Entry} {a : String} {target : Model} {v : Value} {inner : Entry}
    {last : Model} {holder : Entry} (resolved : schema.relationTarget m a = .ok target)
    (found : e.get? a = some v) (mem : .entry inner ∈ v.items)
    (rest : Nested schema target inner last holder) : Nested schema m e last holder

/-- The two entries of a model have the same primary key. -/
def Entry.SameKey (m : Model) (e other : Entry) : Prop :=
  ∃ v w, e.get? m.primaryKey = some v ∧ other.get? m.primaryKey = some w ∧ v.equals w = true

/-- No two of the items are entries with the same primary key. -/
def DistinctKeys (m : Model) (items : List Value) : Prop :=
  items.Pairwise fun x y => ∀ e other, x = .entry e → y = .entry other → ¬ e.SameKey m other

namespace Materialize

/-- A relation of an entry that is made of plain data holds at most one target, which is made of
plain data, too. -/
theorem items_of_relation {depth : Nat} {row : Row} {e : Entry}
    (made : entryWithin schema config depth m row = .ok e) (scalar : Row.IsScalar row) {a : String}
    {target : Model} (resolved : schema.relationTarget m a = .ok target) {v : Value}
    (found : e.get? a = some v) :
    (∃ less group inner, Row.IsScalar group ∧
      entryWithin schema config less target group = .ok inner ∧ v.items = [.entry inner]) ∨
    (∀ inner, .entry inner ∉ v.items) ∧ v.items.length ≤ 1 := by
  rcases cases_of_get?_entryWithin made found with
    ⟨less, group, -, grouped, related⟩ | ⟨raw, own, loads⟩
  · obtain ⟨target', resolved', holds⟩ := cases_of_relation related
    cases resolved.symm.trans resolved'
    split at holds
    · obtain ⟨inner, nested, rfl⟩ := holds
      refine .inl ⟨less, group, inner, fun column held => ?_, nested, ?_⟩
      · obtain ⟨name, there, -⟩ := Row.exists_column_of_groups grouped held
        exact scalar (name, column.2) there
      · split <;> rfl
    · rw [holds]
      refine .inr ?_
      split <;> simp [Value.items]
  · -- a relation is not serialized, so its column is taken as it is
    obtain ⟨name, there, -⟩ := Row.exists_column_of_ownFields own
    obtain ⟨notList, notEntry⟩ := scalar (name, raw) there
    rw [Loads, Schema.not_serialized_of_relationTarget resolved, if_neg (by simp)] at loads
    subst loads
    have single : v.items = [v] := by
      cases v with
      | list items => cases notList
      | _ => rfl
    rw [single]
    refine .inr ⟨fun inner mem => ?_, Nat.le_refl 1⟩
    rw [← List.mem_singleton.1 mem] at notEntry
    cases notEntry

/-- In the entry made of a row of plain data, no list of a relation has more than one item. -/
theorem length_items_of_nested {depth : Nat} {row : Row} {e : Entry}
    (made : entryWithin schema config depth m row = .ok e) (scalar : Row.IsScalar row)
    {last : Model} {holder : Entry} (nested : e.Nested schema m last holder) {a : String}
    {target : Model} (resolved : schema.relationTarget last a = .ok target) {v : Value}
    (found : holder.get? a = some v) : v.items.length ≤ 1 := by
  induction nested generalizing depth row with
  | refl m e =>
    rcases items_of_relation made scalar resolved found with ⟨_, _, _, -, -, one⟩ | ⟨-, short⟩
    · rw [one]
      exact Nat.le_refl 1
    · exact short
  | step through there mem _ ih =>
    rcases items_of_relation made scalar through there with
      ⟨less, group, inner, plain, nested, one⟩ | ⟨none, -⟩
    · rw [one] at mem
      cases List.mem_singleton.1 mem
      exact ih nested plain resolved found
    · exact absurd mem (none _)

end Materialize

namespace Materializer

variable {p : Materializer} {rows : List Row} {result : Entries}

/-- Children of the two values with the same primary key are equal. -/
def ItemsAgree (target : Model) (v w : Value) : Prop :=
  ∀ c d : Entry, .entry c ∈ v.items → .entry d ∈ w.items → c.SameKey target d → c.equals d = true

/-- Where two rows give an entry children with the same primary key, they give equal ones. -/
def ChildrenAgree (p : Materializer) (row other : Row) : Prop :=
  ∀ e e', p.entry row = .ok e → p.entry other = .ok e' →
    ∀ a target v w, p.schema.relationTarget p.model a = .ok target →
      e.get? a = some v → e'.get? a = some w → ItemsAgree target v w

theorem distinctKeys_of_length_le_one {target : Model} {items : List Value}
    (short : items.length ≤ 1) : DistinctKeys target items :=
  pairwise_of_length_le_one short

/-- Merging one value after the other keeps keys distinct: an item with a key that is there equals
the item there, and is left out. -/
theorem distinctKeys_of_foldl_mergeValue {target : Model} {held : Option Value}
    {others : List (Option Value)} (distinct : ∀ v, held = some v → DistinctKeys target v.items)
    (short : ∀ w, some w ∈ others → w.items.length ≤ 1)
    (agree : ∀ v, held = some v → ∀ w, some w ∈ others → ItemsAgree target v w)
    (later : others.Pairwise fun l r => ∀ v w, l = some v → r = some w → ItemsAgree target v w)
    {v : Value} (merged : others.foldl Entry.mergeValue held = some v) :
    DistinctKeys target v.items := by
  induction others generalizing held with
  | nil => exact distinct v merged
  | cons other rest ih =>
    obtain ⟨next, later⟩ := List.pairwise_cons.1 later
    have shortNext : ∀ w, other = some w → w.items.length ≤ 1 :=
      fun w same => short w (same ▸ List.mem_cons_self ..)
    have agreeNext : ∀ v w, held = some v → other = some w → ItemsAgree target v w :=
      fun v w here there => agree v here w (there ▸ List.mem_cons_self ..)
    refine @ih (Entry.mergeValue held other) ?_
      (fun w mem => short w (List.mem_cons_of_mem _ mem)) ?_ later merged
    · intro x step
      unfold Entry.mergeValue at step
      split at step
      · rename_i existing items
        cases step
        refine Entry.pairwise_appendNew (distinct _ rfl) ?_ ?_
        · intro y there z mem different c d isC isD same
          have equal := agreeNext _ _ rfl rfl c d (isC ▸ there) (isD ▸ mem) same
          rw [isC, isD, Value.equals, equal] at different
          cases different
        · have single : DistinctKeys target items :=
            distinctKeys_of_length_le_one (shortNext _ rfl)
          refine List.Pairwise.imp ?_ single
          intro x y apart _
          exact apart
      · cases step
        exact distinctKeys_of_length_le_one (shortNext _ rfl)
      · exact distinct x step
    · intro x step w mem
      have keep := fun v (here : held = some v) => agree v here w (List.mem_cons_of_mem _ mem)
      unfold Entry.mergeValue at step
      split at step
      · cases step
        intro c d there inside
        rcases Entry.mem_or_mem_of_mem_appendNew there with before | added
        · exact keep _ rfl c d before inside
        · exact next _ mem _ _ rfl rfl c d added inside
      · exact next _ mem _ _ step rfl
      · exact keep x step

/-- **A child is held once**, as long as the rows under one key describe it alike. Let the values of
all rows be plain data, and let rows under one key give equal children wherever they give children
with one primary key. Then no relation in the result, at any depth, holds two entries with the same
primary key. -/
theorem pairwise_children (scalar : ∀ row ∈ rows, Row.IsScalar row)
    (made : p.entries rows = .ok result)
    (agree : ∀ key, (p.rowsUnder key rows).Pairwise p.ChildrenAgree) {key : Key} {e : Entry}
    (found : result.get? key = some e) {last : Model} {holder : Entry}
    (nested : e.Nested p.schema p.model last holder) {a : String} {target : Model}
    (resolved : p.schema.relationTarget last a = .ok target) {v : Value}
    (holds : holder.get? a = some v) : DistinctKeys target v.items := by
  obtain ⟨first, rest, makes, fields⟩ := fields_of_get? made found
  have scalarOf : ∀ o ∈ first :: rest, ∃ row, p.entry row = .ok o ∧ Row.IsScalar row := by
    intro o there
    obtain ⟨row, filed, ofRow⟩ := makes.exists_row there
    exact ⟨row, ofRow, scalar row (mem_of_mem_rowsUnder filed)⟩
  cases nested with
  | refl =>
    -- a list that rows are merged into
    have short : ∀ w, some w ∈ (first :: rest).map (·.get? a) → w.items.length ≤ 1 := by
      intro w mem
      obtain ⟨o, there, same⟩ := List.mem_map.1 mem
      obtain ⟨row, ofRow, plain⟩ := scalarOf o there
      exact Materialize.length_items_of_nested ofRow plain (.refl _ _) resolved same
    have pairs : ((first :: rest).map (·.get? a)).Pairwise fun l r =>
        ∀ v w, l = some v → r = some w → ItemsAgree target v w := by
      have entries : ((first :: rest).map (.ok : Entry → Result Entry)).Pairwise fun l r =>
          ∀ o o', l = .ok o → r = .ok o' → ∀ v w, o.get? a = some v → o'.get? a = some w →
            ItemsAgree target v w := by
        rw [← makes, List.pairwise_map]
        exact (agree key).imp fun alike o o' ofRow ofOther v w here there =>
          alike o o' ofRow ofOther a target v w resolved here there
      rw [List.pairwise_map] at entries ⊢
      exact entries.imp fun alike v w here there => alike _ _ rfl rfl v w here there
    rw [List.map_cons, List.pairwise_cons] at pairs
    rw [fields a] at holds
    refine distinctKeys_of_foldl_mergeValue (fun w here => ?_)
      (fun w mem => short w (List.mem_cons_of_mem _ mem))
      (fun v here w mem => pairs.1 _ mem v w here rfl) pairs.2 holds
    exact distinctKeys_of_length_le_one (short w (here ▸ List.mem_cons_self ..))
  | step through there mem below =>
    -- what stands deeper was made of one row
    rename_i b mid x inner
    rw [fields b] at there
    obtain ⟨x', before, mem⟩ := Entry.exists_mem_of_foldl_mergeValue there mem
    have mapped : some x' ∈ (first :: rest).map (·.get? b) := before
    obtain ⟨o, of, same⟩ := List.mem_map.1 mapped
    obtain ⟨row, ofRow, plain⟩ := scalarOf o of
    exact distinctKeys_of_length_le_one
      (Materialize.length_items_of_nested ofRow plain (.step through same mem below) resolved holds)

/-- Rows with titles of books give equal books under one key. -/
theorem childrenAgree_titleRow (id id' : Int64) :
    Library.authors.ChildrenAgree (Library.titleRow id) (Library.titleRow id') := by
  have made : ∀ id, Library.authors.entry (Library.titleRow id)
      = .ok (Library.withBooks [.entry (Library.titled id)]) := fun id => rfl
  intro e e' ofRow ofRow' a target v w resolved found found' c d here there same
  cases (made id).symm.trans ofRow
  cases (made id').symm.trans ofRow'
  by_cases books : "books" = a
  · subst books
    cases found
    cases found'
    cases (show Library.catalog.relationTarget Library.author "books" = .ok Library.book
      from rfl).symm.trans resolved
    cases List.mem_singleton.1 here
    cases List.mem_singleton.1 there
    obtain ⟨x, y, first, second, equal⟩ := same
    cases first
    cases second
    rw [Library.titled_equals]
    simpa [Value.equals] using equal
  · -- no other field holds an entry
    simp only [Entry.get?, Library.withBooks, Assoc.get?, books, if_false] at found
    split at found
    · cases found
      simp [Value.items] at here
    · cases found

/-- A row that repeats a child does not repeat it in the result. -/
theorem pairwise_children_repeated :
    let rows := [Library.titleRow 5, Library.titleRow 6, Library.titleRow 5]
    let books : List Value := [.entry (Library.titled 5), .entry (Library.titled 6)]
    ∃ result, Library.authors.entries rows = .ok result ∧
      result.get? (.int 1) = some (Library.withBooks books) ∧ DistinctKeys Library.book books := by
  have scalar : ∀ row ∈ [Library.titleRow 5, Library.titleRow 6, Library.titleRow 5],
      Row.IsScalar row := by
    have one : ∀ id, Row.IsScalar (Library.titleRow id) := fun id => by
      simp only [Library.titleRow, Row.IsScalar, List.forall_mem_cons]
      exact ⟨⟨rfl, rfl⟩, ⟨rfl, rfl⟩, ⟨rfl, rfl⟩, List.forall_mem_nil _⟩
    exact List.forall_mem_cons.2 ⟨one 5, List.forall_mem_cons.2
      ⟨one 6, List.forall_mem_singleton.2 (one 5)⟩⟩
  have agree : ∀ key, (Library.authors.rowsUnder key
      [Library.titleRow 5, Library.titleRow 6, Library.titleRow 5]).Pairwise
        Library.authors.ChildrenAgree := by
    intro key
    have filed : Library.authors.rowsUnder key
        [Library.titleRow 5, Library.titleRow 6, Library.titleRow 5]
          = [5, 6, 5].filterMap fun id =>
              if Key.int 1 = key then some (Library.titleRow id) else none := rfl
    rw [filed]
    by_cases one : Key.int 1 = key
    · simp [one, childrenAgree_titleRow]
    · simp [one]
  obtain ⟨result, made, found⟩ : ∃ result, Library.authors.entries
      [Library.titleRow 5, Library.titleRow 6, Library.titleRow 5] = .ok result ∧
        result.get? (.int 1) = some (((Library.withBooks [.entry (Library.titled 5)]).mergeLists
          (Library.withBooks [.entry (Library.titled 6)])).mergeLists
            (Library.withBooks [.entry (Library.titled 5)])) := ⟨⟨[(_, _)], _⟩, rfl, rfl⟩
  have other : (Library.titled 5).equals (Library.titled 6) = false := by
    rw [Library.titled_equals]
    decide
  have own : (Library.titled 5).equals (Library.titled 5) = true := by
    rw [Library.titled_equals]
    decide
  simp [Library.withBooks_mergeLists, Value.equals, other, own] at found
  exact ⟨result, made, found, pairwise_children scalar made agree found (.refl _ _) (a := "books")
    rfl rfl⟩

/-- Two rows of an author join one book with different tags: the book is held twice. -/
theorem entries_hold_child_twice :
    Library.catalog.verify = .ok () ∧
      ∃ result, Library.authors.entries [Library.authorRow 8, Library.authorRow 9] = .ok result ∧
        result.get? (.int 1) = some (Library.withBooks [Library.tagged 8, Library.tagged 9]) ∧
        ¬ DistinctKeys Library.book [Library.tagged 8, Library.tagged 9] := by
  obtain ⟨result, made, found⟩ : ∃ result,
      Library.authors.entries [Library.authorRow 8, Library.authorRow 9] = .ok result ∧
        result.get? (.int 1) = some ((Library.withBooks [Library.tagged 8]).mergeLists
          (Library.withBooks [Library.tagged 9])) := ⟨⟨[(_, _)], _⟩, rfl, rfl⟩
  have different : (Library.tagged 8).equals (Library.tagged 9) = false := by
    simp [Library.tagged, Value.equals, Entry.equals, equalFields, equalItems, Assoc.get?]
  rw [Library.withBooks_mergeLists, List.any_cons, different] at found
  refine ⟨rfl, result, made, found, fun distinct => ?_⟩
  have apart := (List.pairwise_cons.1 distinct).1 _ (List.mem_cons_self ..)
  exact apart _ _ rfl rfl ⟨.int 5, .int 5, rfl, rfl, by simp [Value.equals]⟩

end Materializer

end RecordMapper
