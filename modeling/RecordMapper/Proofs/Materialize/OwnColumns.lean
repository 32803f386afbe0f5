import Mathlib.Data.Finset.Insert
import Mathlib.Data.Fintype.EquivFin
import RecordMapper.Proofs.Materialize.Shape

/-!
Columns of the entry itself: bare ones, and those behind the self alias.

The self alias is recognized if the separator behind it is the first one in the column name. A valid
configuration does not hold the separator in its self alias, but may still have one that ends as the
separator begins, and then every column behind it is taken for that of a shorter alias
(`Column.exists_slot_of_not_isAlias`). `Materializer.entry_selfColumn_iff` says that nothing else can
go wrong.

A field may have two columns, a bare one and one behind the self alias. The entry takes the last one
(`Row.get?_ownFields_eq`), and the key of a row the bare one; `Materializer.row_keyed_by_field` says
where that is the same.
-/

namespace RecordMapper

variable {schema : Schema} {config : Config} {m : Model}

/-! ### The self alias -/

namespace Column

/-- No occurrence of the separator stands before the one at which a text is split. -/
theorem length_le_of_splitFrom? {separator t front rest : Text}
    (split : splitFrom? separator t = some (front, rest)) {earlier back : Text}
    (occurs : t = earlier ++ separator ++ back) : front.length ≤ earlier.length := by
  induction t generalizing front earlier with
  | nil =>
    rw [splitFrom?] at split
    split at split
    · cases split
      exact Nat.zero_le _
    · cases split
  | cons c t ih =>
    rw [splitFrom?] at split
    split at split
    · cases split
      exact Nat.zero_le _
    · rename_i unfound
      obtain ⟨⟨front', rest'⟩, later, same⟩ := Option.map_eq_some_iff.1 split
      cases same
      cases earlier with
      | nil =>
        rw [Text.after?_false_eq_none_iff] at unfound
        exact absurd ⟨back, occurs.symm⟩ unfound
      | cons d earlier => exact Nat.succ_le_succ (ih later (List.cons.inj occurs).2)

/-- What a name is split off at the front is an alias. -/
theorem isAlias_of_splitFrom? {t front rest : Text}
    (split : splitFrom? config.aliasSeparator.toList t = some (front, rest)) :
    config.IsAlias (String.ofList front) := by
  intro earlier back same
  rw [String.toList_ofList] at same
  have whole : t = earlier ++ config.aliasSeparator.toList ++ (back ++ rest) := by
    rw [eq_append_of_splitFrom? split, same, List.append_assoc]
  have first := length_le_of_splitFrom? split whole
  have lengths := congrArg List.length same
  simp only [List.length_append] at lengths
  exact List.eq_nil_of_length_eq_zero (by omega)

/-- A column behind the self alias is a field of the entry, unless it is the locale. -/
theorem slot_self (valid : config.validate = .ok ()) (isAlias : config.IsAlias config.selfAlias)
    (field : String) :
    slot config (config.prefixed config.selfAlias field)
      = if field = config.localeField then .dropped else .own field := by
  have found := splitFrom?_append (Config.separator_ne_nil valid) isAlias field.toList
  rw [slot, split?, Config.toList_prefixed, found]
  simp

/-- If the separator cuts the self alias short, all columns behind it are those of one other
alias. -/
theorem exists_slot_of_not_isAlias (valid : config.validate = .ok ())
    (cut : ¬ config.IsAlias config.selfAlias) :
    ∃ a, ∀ field, ∃ rest,
      slot config (config.prefixed config.selfAlias field) = .joined a rest := by
  have occurs : config.aliasSeparator.toList
      <:+: config.selfAlias.toList ++ config.aliasSeparator.toList :=
    (List.suffix_append ..).isInfix
  cases split : splitFrom? config.aliasSeparator.toList
      (config.selfAlias.toList ++ config.aliasSeparator.toList) with
  | none => exact absurd occurs ((splitFrom?_eq_none_iff (Config.separator_ne_nil valid)).1 split)
  | some parts =>
    obtain ⟨front, rest⟩ := parts
    have isAlias := isAlias_of_splitFrom? split
    have other : String.ofList front ≠ config.selfAlias := fun same => cut (same ▸ isAlias)
    refine ⟨String.ofList front, fun field => ⟨String.ofList rest ++ field, ?_⟩⟩
    have name : config.prefixed config.selfAlias field
        = config.prefixed (String.ofList front) (String.ofList rest ++ field) := by
      rw [← String.toList_inj, Config.toList_prefixed, Config.toList_prefixed,
        eq_append_of_splitFrom? split]
      simp
    rw [name, slot_prefixed valid isAlias other]

end Column

/-- A field that the model does not have is not serialized. -/
theorem Model.not_serialized_of_not_mem {name : String} (unknown : name ∉ m.fields.map Field.name) :
    m.isSerialized name = false := by
  have absent : m.field? name = none := by
    refine List.find?_eq_none.2 fun f mem same => unknown ?_
    exact List.mem_map.2 ⟨f, mem, by simpa using same⟩
  rw [isSerialized, absent]
  rfl

/-- The entry that is made of one column of its own. -/
theorem Materialize.entry_singleton {column field : String}
    (own : Column.slot config column = .own field) (notSerialized : m.isSerialized field = false)
    (v : Value) : entry schema config m [(column, v)] = .ok ⟨m.name, [(field, v)], []⟩ := by
  have fields : Row.ownFields config [(column, v)] = [(field, v)] := by
    simp [Row.ownFields, own, Assoc.ofList, Assoc.insertAll, Assoc.insert]
  have groups : Row.groups config [(column, v)] = [] := by
    simp [Row.groups, own]
  have decoded : decodeFields m [(field, v)] = .ok [(field, v)] :=
    decodeFields_of_not_serialized (List.forall_mem_singleton.2 notSerialized)
  rw [entry, entryWithin, fields, groups, decoded]
  rfl

/-- **When a valid configuration recognizes its self alias**: a column behind it, whatever its field
and its value are, is made into the entry with that field, if and only if the separator behind the
self alias is the first one there. -/
theorem Materializer.entry_selfColumn_iff (p : Materializer) (valid : p.config.validate = .ok ()) :
    (∀ f v, f ≠ p.config.localeField → p.model.isSerialized f = false →
      p.entry [(p.config.prefixed p.config.selfAlias f, v)]
        = .ok ⟨p.model.name, [(f, v)], []⟩) ↔
    p.config.IsAlias p.config.selfAlias := by
  constructor
  · intro recognized
    by_contra cut
    obtain ⟨a, joined⟩ := Column.exists_slot_of_not_isAlias valid cut
    -- a field of another name than the alias that the columns go to
    obtain ⟨f, fresh⟩ := Infinite.exists_notMem_finset
      (insert a (insert p.config.localeField (p.model.fields.map Field.name).toFinset))
    simp only [Finset.mem_insert, List.mem_toFinset, not_or] at fresh
    obtain ⟨other, notLocale, unknown⟩ := fresh
    have made := recognized f .null notLocale (Model.not_serialized_of_not_mem unknown)
    obtain ⟨rest, joined⟩ := joined f
    have held : a ∈ [f] := (Materialize.mem_fieldNames_of_entryWithin made a).2
      ⟨_, List.mem_singleton_self _, Column.feeds_iff.2 (.inr ⟨rest, joined⟩)⟩
    exact other (List.mem_singleton.1 held).symm
  · intro isAlias f v notLocale notSerialized
    have own := Column.slot_self valid isAlias f
    rw [if_neg notLocale] at own
    exact Materialize.entry_singleton own notSerialized v

/-- Books whose columns are named with another separator and another self alias. -/
def Library.booksNamed (separator self : String) : Materializer :=
  { books with config := { aliasSeparator := separator, selfAlias := self } }

/-- The separator `::` is not met in the alias `a:b`, nor across its end. -/
theorem Materializer.entry_selfColumn_colon :
    (Library.booksNamed "::" "a:b").config.validate = .ok () ∧
      (Library.booksNamed "::" "a:b").entry [("a:b::id", .int 5)]
        = .ok ⟨"Book", [("id", .int 5)], []⟩ := by
  have valid : (Library.booksNamed "::" "a:b").config.validate = .ok () := rfl
  have split : Column.splitFrom? "::".toList "a:b::".toList = some ("a:b".toList, []) := by decide
  have isAlias : (Library.booksNamed "::" "a:b").config.IsAlias "a:b" :=
    Column.isAlias_of_splitFrom? split
  exact ⟨valid, (entry_selfColumn_iff _ valid).2 isAlias "id" (.int 5) (by decide) rfl⟩

/-- A self alias that ends as the separator begins is cut short: its columns are those of the
relation `self`, which books do not have. -/
theorem Materializer.entry_selfColumn_cut :
    (Library.booksNamed "__" "self_").config.validate = .ok () ∧
      "id" ≠ (Library.booksNamed "__" "self_").config.localeField ∧
      Library.book.isSerialized "id" = false ∧
      (Library.booksNamed "__" "self_").entry [("self_" ++ "__" ++ "id", .int 1)]
        = .error (Cause.schemaLookup (.field "Book" "self") : Error) :=
  ⟨rfl, by decide, rfl, rfl⟩

/-! ### The two columns of a field -/

/-- A name without the separator is a column of the entry, whatever the separator is: the empty one
is in every name. -/
theorem Column.slot_of_unseparated {name : String} (unseparated : config.Unseparated name) :
    slot config name = .own name := by
  have nonempty : config.aliasSeparator.toList ≠ [] := by
    intro empty
    apply unseparated
    rw [empty]
    exact List.nil_infix
  rw [slot, split?, (splitFrom?_eq_none_iff nonempty).2 unseparated]
  rfl

namespace Row

theorem get?_filterMap_own_cons (f name : String) (v : Value) (rest : Row) :
    Assoc.get? f (((name, v) :: rest).filterMap (Column.own? config))
      = if Column.slot config name = .own f then some v
        else Assoc.get? f (rest.filterMap (Column.own? config)) := by
  rw [List.filterMap_cons, Column.own?]
  cases Column.slot config name with
  | own field => simp [Assoc.get?]
  | _ => simp

/-- The first of the columns of a field is the bare one, or else the one behind the self alias, if
no bare column stands behind one of the self alias and the latter is not there in vain. -/
theorem get?_filterMap_own {row : Row} {f : String} (unseparated : config.Unseparated f)
    (ordered : Column.slot config (config.prefixed config.selfAlias f) = .own f →
      ¬ [config.prefixed config.selfAlias f, f].Sublist (Assoc.keys row))
    (owned : config.prefixed config.selfAlias f ∈ Assoc.keys row → f ∉ Assoc.keys row →
      Column.slot config (config.prefixed config.selfAlias f) = .own f) :
    Assoc.get? f (row.filterMap (Column.own? config))
      = (Assoc.get? f row).or (Assoc.get? (config.prefixed config.selfAlias f) row) := by
  induction row with
  | nil => rfl
  | cons column rest ih =>
    obtain ⟨name, v⟩ := column
    have keys : Assoc.keys ((name, v) :: rest) = name :: Assoc.keys rest := rfl
    rw [keys] at ordered owned
    rw [get?_filterMap_own_cons, Assoc.get?, Assoc.get?]
    by_cases bare : name = f
    · rw [if_pos bare, bare, if_pos (Column.slot_of_unseparated unseparated), Option.some_or]
    have later := ih (fun own sub => ordered own (sub.cons name)) fun mem absent =>
      owned (List.mem_cons_of_mem _ mem) (by simp [Ne.symm bare, absent])
    rw [if_neg bare]
    split
    · rename_i own
      have aliased := (Column.eq_or_eq_of_slot_own own).resolve_left bare
      -- a bare column would stand behind the one of the self alias
      have none : Assoc.get? f rest = none := Assoc.get?_eq_none_iff.2 fun mem =>
        ordered (aliased ▸ own) (aliased ▸ (List.singleton_sublist.2 mem).cons_cons name)
      rw [if_pos aliased, none, Option.none_or]
    · rename_i other
      rw [later]
      split
      · rename_i aliased
        -- this column feeds nothing, so there is a bare one
        have bareBehind : f ∈ Assoc.keys rest := by
          by_contra absent
          exact other (aliased ▸ owned (aliased ▸ List.mem_cons_self ..)
            (by simp [Ne.symm bare, absent]))
        obtain ⟨w, found⟩ := Option.ne_none_iff_exists'.1
          (mt Assoc.get?_eq_none_iff.1 (not_not.2 bareBehind))
        rw [found, Option.some_or, Option.some_or]
      · rfl

/-- **The column that a field is taken from**: the last of the two in the row, which is the bare one
if none of the self alias stands behind it. -/
theorem get?_ownFields_eq {row : Row} {f : String} (distinct : (Assoc.keys row).Nodup)
    (unseparated : config.Unseparated f)
    (ordered : Column.slot config (config.prefixed config.selfAlias f) = .own f →
      ¬ [f, config.prefixed config.selfAlias f].Sublist (Assoc.keys row))
    (owned : config.prefixed config.selfAlias f ∈ Assoc.keys row → f ∉ Assoc.keys row →
      Column.slot config (config.prefixed config.selfAlias f) = .own f) :
    Assoc.get? f (ownFields config row)
      = (Assoc.get? f row).or (Assoc.get? (config.prefixed config.selfAlias f) row) := by
  have keys : Assoc.keys row.reverse = (Assoc.keys row).reverse := List.map_reverse
  rw [ownFields_eq, Assoc.get?_ofList, ← List.filterMap_reverse,
    get?_filterMap_own unseparated, Assoc.get?_reverse distinct, Assoc.get?_reverse distinct]
  · intro own sub
    rw [keys] at sub
    exact ordered own (by simpa using sub.reverse)
  · simpa [keys] using owned

end Row

/-- A field that no alias names, and that is not serialized, is what the row itself has for it. -/
theorem Materialize.get?_eq_ownFields {depth : Nat} {row : Row} {e : Entry}
    (made : entryWithin schema config depth m row = .ok e) {f : String}
    (notSerialized : m.isSerialized f = false) (unaliased : ¬ row.HasAlias config f) :
    e.get? f = Assoc.get? f (Row.ownFields config row) := by
  obtain ⟨less, -, -, fields⟩ := fields_of_entryWithin made
  have loads := (fields f).2 (Row.get?_groups_eq_none unaliased)
  generalize Assoc.get? f (Row.ownFields config row) = raw at loads
  generalize e.get? f = v at loads
  cases loads with
  | none => rfl
  | some loads =>
    rw [Loads, if_neg (by simp [notSerialized])] at loads
    rw [loads]

/-! ### The key of a row -/

theorem Key.ofValue?_eq_none_iff {v : Value} : Key.ofValue? v = none ↔ v = .null := by
  cases v <;> simp [Key.ofValue?]

namespace Materializer

/-- **The key of a row is that of the index field of its entry**, and a row whose entry does not
have the field, or has it as null, has no key. Of the two columns that the field may have, the one
of the self alias must not stand behind the bare one, and must not be there alone if it feeds
nothing, as that of the locale does. -/
theorem row_keyed_by_field (p : Materializer) {f : String} (indexed : p.indexBy = some f)
    (unseparated : p.config.Unseparated f) (notSerialized : p.model.isSerialized f = false)
    {row : Row} (distinct : (Assoc.keys row).Nodup) (unaliased : ¬ row.HasAlias p.config f)
    (ordered : Column.slot p.config (p.config.prefixed p.config.selfAlias f) = .own f →
      ¬ [f, p.config.prefixed p.config.selfAlias f].Sublist (Assoc.keys row))
    (owned : p.config.prefixed p.config.selfAlias f ∈ Assoc.keys row → f ∉ Assoc.keys row →
      Column.slot p.config (p.config.prefixed p.config.selfAlias f) = .own f)
    {e : Entry} (made : p.entry row = .ok e) :
    (∀ v, e.get? f = some v → p.key? row = Key.ofValue? v) ∧
      (p.key? row = none ↔ e.get? f = none ∨ e.get? f = some .null) := by
  have field : e.get? f = (Assoc.get? f row).or
      (Assoc.get? (p.config.prefixed p.config.selfAlias f) row) := by
    rw [Materialize.get?_eq_ownFields made notSerialized unaliased,
      Row.get?_ownFields_eq distinct unseparated ordered owned]
  have key : p.key? row = (e.get? f).bind Key.ofValue? := by
    rw [key?, indexed, field]
    rfl
  rw [key]
  constructor
  · intro v found
    rw [found]
    rfl
  · cases e.get? f with
    | none => simp
    | some v => simp [Key.ofValue?_eq_none_iff]

/-- A bare column behind the one of the self alias gives both the key and the field. -/
theorem row_keyed_by_field_bareLast :
    ∃ e, Library.books.entry [("self:id", .int 4), ("id", .int 5), ("author:id", .int 7)] = .ok e ∧
      e.get? "id" = some (.int 5) ∧
      Library.books.key? [("self:id", .int 4), ("id", .int 5), ("author:id", .int 7)]
        = some (.int 5) := by
  have unaliased : ¬ Row.HasAlias {} [("self:id", .int 4), ("id", .int 5), ("author:id", .int 7)]
      "id" := fun used => Row.hasAlias_iff.1 used rfl
  have unseparated : Library.books.config.Unseparated "id" :=
    Config.unseparated_of_not_mem (c := ':') (by decide) (by decide)
  refine ⟨_, rfl, rfl, ?_⟩
  exact (row_keyed_by_field Library.books rfl unseparated rfl (by decide) unaliased
    (fun _ => by decide) (fun _ _ => rfl) rfl).1 _ rfl

/-- A row is filed under the bare column while its entry has the one of the self alias behind it;
and a row is filed under its locale, which is no field of its entry. -/
theorem row_keyed_by_other_column :
    (Library.books.config.Unseparated "id" ∧ Library.book.isSerialized "id" = false ∧
      ¬ Row.HasAlias {} [("id", .int 1), ("self:id", .int 2)] "id" ∧
      Library.books.entry [("id", .int 1), ("self:id", .int 2)]
        = .ok ⟨"Book", [("id", .int 2)], []⟩ ∧
      Library.books.key? [("id", .int 1), ("self:id", .int 2)] ≠ Key.ofValue? (.int 2)) ∧
    (Library.books.config.Unseparated "locale" ∧ Library.book.isSerialized "locale" = false ∧
      ¬ Row.HasAlias {} [("id", .int 1), ("self:locale", .string "en")] "locale" ∧
      (Library.books.keyedBy "locale").entry [("id", .int 1), ("self:locale", .string "en")]
        = .ok ⟨"Book", [("id", .int 1)], []⟩ ∧
      (Library.books.keyedBy "locale").key? [("id", .int 1), ("self:locale", .string "en")]
        ≠ none) := by
  have unseparated : ∀ {name : String}, ':' ∉ name.toList →
      Library.books.config.Unseparated name := Config.unseparated_of_not_mem (by decide)
  exact ⟨⟨unseparated (by decide), rfl, fun used => Row.hasAlias_iff.1 used rfl, rfl, by decide⟩,
    unseparated (by decide), rfl, fun used => Row.hasAlias_iff.1 used rfl, rfl, by decide⟩

end Materializer

end RecordMapper
