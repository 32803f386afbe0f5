import RecordMapper.Value.Loading

/-!
Typed loading undoes conversion.

Null is the absent value of an optional type and the empty list of a list type, so that loading
might take one for the other. It does not, if no optional type stands directly in another one
(`LoadType.KeepsData`): only the outermost type of data can turn it into null
(`LoadType.isNull_ofCarrier`), and a list is never null. So **loading the value of data gives the
data back** (`LoadType.load_ofCarrier`), by induction on the type.

* A list fails to load exactly if some item does, with the error of the first such item
  (`LoadType.load_list_eq_error_iff`).
* A field that is not loaded is the absent value of an optional type, and an error for every other
  type, lists included (`Entry.getAs_of_absent`).
-/

namespace RecordMapper

namespace LoadType

/-- Types built from truth values, integers, texts and entries by optional and list types, where no
optional type is the item of another one. -/
inductive KeepsData : LoadType → Prop
  | bool : KeepsData .bool
  | int : KeepsData .int
  | string : KeepsData .string
  | entry : KeepsData .entry
  | option {t : LoadType} (keeps : KeepsData t) (single : ∀ u, t ≠ .option u) :
      KeepsData (.option t)
  | list {t : LoadType} (keeps : KeepsData t) : KeepsData (.list t)

/-- Null is the value of data of an optional type only. -/
theorem isNull_ofCarrier {t : LoadType} (keeps : t.KeepsData) (single : ∀ u, t ≠ .option u)
    (x : t.Carrier) : (t.ofCarrier x).isNull = false := by
  cases keeps with
  | option _ _ => exact absurd rfl (single _)
  | _ => rfl

theorem load_option_of_isNull {t : LoadType} {v : Value} (null : v.isNull = true) :
    (option t).load v = .ok none :=
  if_pos null

theorem load_option_of_not_isNull {t : LoadType} {v : Value} (other : v.isNull = false) :
    (option t).load v = (t.load v).map some :=
  if_neg (Bool.eq_false_iff.1 other)

/-- **Loading the value of data gives the data back.** -/
theorem load_ofCarrier {t : LoadType} (keeps : t.KeepsData) (x : t.Carrier) :
    t.load (t.ofCarrier x) = .ok x := by
  induction keeps with
  | bool | int | string | entry => rfl
  | @option t keeps single ih =>
    cases x with
    | none => exact load_option_of_isNull rfl
    | some x =>
      have other := isNull_ofCarrier keeps single x
      show (option t).load (t.ofCarrier x) = .ok (some x)
      rw [load_option_of_not_isNull other, ih x]
      rfl
  | @list t keeps ih =>
    have items : ∀ xs : List t.Carrier, (xs.map t.ofCarrier).mapM t.load = .ok xs := by
      intro xs
      induction xs with
      | nil => rfl
      | cons x xs others =>
        rw [List.map_cons, List.mapM_cons, ih x, others]
        rfl
    exact items x

/-- **A list fails to load if an item does**, with the error of the first one that does. -/
theorem load_list_eq_error_iff {t : LoadType} {items : List Value} {e : Error} :
    (list t).load (.list items) = .error e ↔
      ∃ before v behind, items = before ++ v :: behind ∧ (∀ w ∈ before, ∃ x, t.load w = .ok x)
        ∧ t.load v = .error e := by
  show items.mapM t.load = .error e ↔ _
  induction items with
  | nil => exact iff_of_false nofun fun ⟨before, _, _, split, _⟩ => by cases before <;> cases split
  | cons w items ih =>
    rw [List.mapM_cons, Result.bind_eq_error_iff]
    constructor
    · rintro (first | ⟨x, first, later⟩)
      · exact ⟨[], w, items, rfl, List.forall_mem_nil _, first⟩
      · rcases Result.bind_eq_error_iff.1 later with others | ⟨_, _, none⟩
        · obtain ⟨before, v, behind, rfl, loaded, failed⟩ := ih.1 others
          exact ⟨w :: before, v, behind, rfl, List.forall_mem_cons.2 ⟨⟨x, first⟩, loaded⟩, failed⟩
        · cases none
    · rintro ⟨before, v, behind, split, loaded, failed⟩
      cases before with
      | nil =>
        obtain ⟨rfl, -⟩ := List.cons.inj split
        exact .inl failed
      | cons u before =>
        obtain ⟨rfl, rfl⟩ := List.cons.inj split
        obtain ⟨⟨x, first⟩, others⟩ := List.forall_mem_cons.1 loaded
        exact .inr ⟨x, first,
          Result.bind_eq_error_iff.2 (.inl (ih.2 ⟨before, v, behind, rfl, others, failed⟩))⟩

/-- A list loads exactly if all of its items do. -/
theorem load_list_fails_iff {t : LoadType} {items : List Value} :
    (∃ e, (list t).load (.list items) = .error e) ↔ ∃ v ∈ items, ∃ e, t.load v = .error e := by
  constructor
  · rintro ⟨e, failed⟩
    obtain ⟨before, v, behind, rfl, -, failed⟩ := load_list_eq_error_iff.1 failed
    exact ⟨v, by simp, e, failed⟩
  · rintro ⟨v, mem, e, failed⟩
    cases all : (list t).load (.list items) with
    | error e => exact ⟨e, rfl⟩
    | ok xs =>
      obtain ⟨x, -, loaded⟩ := Result.exists_of_mapM all mem
      rw [loaded] at failed
      cases failed

end LoadType

/-! ### Fields -/

/-- A field that is not loaded is absent for an optional type and an error otherwise. -/
theorem Entry.getAs_of_absent {e : Entry} {name : String} (absent : e.get? name = none)
    (t : LoadType) :
    e.getAs t name =
      if t.nullable then t.load .null else Error.throw (.schemaLookup (.field e.model name)) := by
  rw [getAs, absent]

theorem Entry.getAs_option_of_absent {e : Entry} {name : String} (absent : e.get? name = none)
    (t : LoadType) : e.getAs (.option t) name = .ok none := by
  rw [getAs_of_absent absent]
  rfl

namespace LoadType

/-- **Loading undoes conversion.** Data of a type built from truth values, integers, texts and
entries by optional and list types, no optional type directly in another one, is loaded back from
its value. For every type, a list fails to load exactly if some item of it does; and a field that is
not loaded can be loaded exactly as an optional type, where it is absent. -/
theorem load_undoes_conversion (t : LoadType) :
    (t.KeepsData → ∀ x : t.Carrier, t.load (t.ofCarrier x) = .ok x)
      ∧ (∀ items, (∃ e, (list t).load (.list items) = .error e)
          ↔ ∃ v ∈ items, ∃ e, t.load v = .error e)
      ∧ ∀ (e : Entry) (name : String), e.isLoaded name = false →
          ((∃ x, e.getAs t name = .ok x) ↔ ∃ u, t = .option u)
            ∧ e.getAs (.option t) name = .ok none := by
  refine ⟨load_ofCarrier, fun items => load_list_fails_iff, fun e name unloaded => ?_⟩
  have absent : e.get? name = none :=
    Option.isNone_iff_eq_none.1 (Option.isSome_eq_false_iff.1 unloaded)
  refine ⟨⟨fun ⟨x, loaded⟩ => ?_, ?_⟩, Entry.getAs_option_of_absent absent t⟩
  · rw [Entry.getAs_of_absent absent] at loaded
    cases t with
    | option u => exact ⟨u, rfl⟩
    | _ => cases loaded
  · rintro ⟨u, rfl⟩
    exact ⟨none, Entry.getAs_option_of_absent absent u⟩

/-- Optional types and lists in each other: an empty list, an absent one and a list with an absent
item stay apart. An item of the wrong type fails its list, and a field that is not loaded is an
absent list but no empty one. -/
theorem load_undoes_conversion_nested :
    ((list (option (list (option .int)))).KeepsData
      ∧ (list (option (list (option .int)))).load
          (.list [.list [], .null, .list [.null, .int 7]])
        = .ok [some [], none, some [none, some (7 : Int64)]])
    ∧ (∃ e, (list .bool).load (.list [.bool true, .string "no"]) = .error e)
    ∧ (Entry.new "Book").isLoaded "pages" = false
    ∧ ¬ (∃ x, (Entry.new "Book").getAs (list .int) "pages" = .ok x)
    ∧ (Entry.new "Book").getAs (option (list .int)) "pages" = .ok none := by
  have keeps : (list (option (list (option .int)))).KeepsData :=
    .list (.option (.list (.option .int nofun)) nofun)
  obtain ⟨loads, absent⟩ := (load_undoes_conversion (list .int)).2.2 (Entry.new "Book") "pages" rfl
  refine ⟨⟨keeps, (load_undoes_conversion _).1 keeps [some [], none, some [none, some (7 : Int64)]]⟩,
    ?_, rfl, ?_, absent⟩
  · exact ((load_undoes_conversion .bool).2.1 _).2 ⟨.string "no", by simp, _, rfl⟩
  · rw [loads]
    exact nofun

/-- An optional type directly in another one is not loaded back: what is absent inside is absent as
a whole. -/
example : (option (option .int)).load (ofCarrier (option (option .int)) (some none)) = .ok none :=
  rfl

end LoadType

end RecordMapper
