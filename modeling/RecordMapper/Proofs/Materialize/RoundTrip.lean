import Mathlib.Data.List.Nodup
import RecordMapper.Proofs.Materialize.Flatten

/-!
Materialization undoes laying out.

The columns of a well-formed entry are distinct, and fall into two parts: those of its plain fields,
which are its own fields again (`ownFields_columns`), and those under each of its relations, which
are grouped into the row of that relation (`groups_columns`). So a nested entry is made of the row
that it was laid out as, which has shorter column names, and the statement about entries follows by
induction on how deep the aliases nest.
-/

namespace RecordMapper

variable {schema : Schema} {config : Config} {m : Model}

/-! ### Fields one by one -/

/-- The columns of one field. -/
def columnsOf (schema : Schema) (config : Config) (m : Model) (field : String × Value) : Row :=
  match schema.relationTarget m field.1 with
  | .ok target =>
    (field.2.relatedColumns schema config target).map fun (column, x) =>
      (config.prefixed field.1 column, x)
  | .error _ => [field]

/-- What is asked of one field. -/
def WellFormedField (schema : Schema) (config : Config) (m : Model) (field : String × Value) :
    Prop :=
  m.IsPlain config field.1 ∨
    ∃ target, m.Relates schema config field.1 target ∧
      field.2.FitsRelation schema config (m.isMany field.1) target

theorem fieldColumns_eq_flatMap (fields : List (String × Value)) :
    fieldColumns schema config m fields = fields.flatMap (columnsOf schema config m) := by
  induction fields with
  | nil => rfl
  | cons field rest ih =>
    rw [List.flatMap_cons, ← ih]
    rfl

theorem wellFormedFields_iff {fields : List (String × Value)} :
    WellFormedFields schema config m fields ↔
      ∀ field ∈ fields, WellFormedField schema config m field := by
  induction fields with
  | nil => simp [WellFormedFields]
  | cons field rest ih =>
    rw [WellFormedFields, ih, List.forall_mem_cons]
    rfl

/-- A relation resolves if the field is declared as one and its target is registered. -/
theorem Schema.relationTarget_eq_ok_iff {name : String} {target : Model} :
    schema.relationTarget m name = .ok target ↔
      ∃ f t, m.field? name = some f ∧ f.type.target? = some t ∧ schema.model t = .ok target := by
  unfold relationTarget Model.relationTarget Model.field
  cases found : m.field? name with
  | none => simp [Error.throw, bind, Except.bind]
  | some f =>
    cases points : f.type.target? with
    | none => simp [Error.throw, bind, Except.bind, points]
    | some t =>
      cases registered : schema.model t with
      | error e => simp [Error.within, Except.mapError, bind, Except.bind, points, registered]
      | ok target => simp [Error.within, Except.mapError, bind, Except.bind, points, registered]

/-- A relation is not serialized. -/
theorem Schema.not_serialized_of_relationTarget {name : String} {target : Model}
    (resolved : schema.relationTarget m name = .ok target) : m.isSerialized name = false := by
  obtain ⟨f, t, found, points, -⟩ := relationTarget_eq_ok_iff.1 resolved
  rw [Model.isSerialized, found]
  cases type : f.type <;> simp_all [FieldType.target?, FieldType.isSerialized]

theorem columnsOf_relation {field : String × Value} {target : Model}
    (relates : m.Relates schema config field.1 target) :
    columnsOf schema config m field
      = (field.2.relatedColumns schema config target).map fun (column, x) =>
          (config.prefixed field.1 column, x) := by
  rw [columnsOf, relates.target]

theorem columnsOf_plain {field : String × Value} (plain : m.IsPlain config field.1) :
    columnsOf schema config m field = [field] := by
  unfold columnsOf
  split
  · rename_i target resolved
    obtain ⟨f, t, found, points, -⟩ := Schema.relationTarget_eq_ok_iff.1 resolved
    have declared := plain.not_relation
    simp [Model.isRelation, found, FieldType.isRelation, points] at declared
  · rfl

/-! ### Columns are distinct -/

/-- The field that the value of a column goes to, or through. -/
def Column.Slot.field? : Column.Slot → Option String
  | .own name => some name
  | .dropped => none
  | .joined a _ => some a

/-- The columns of a field go to it. -/
theorem field?_slot_of_mem_columnsOf (valid : config.validate = .ok ()) (field : String × Value)
    (wf : WellFormedField schema config m field) {column : String}
    (mem : column ∈ Assoc.keys (columnsOf schema config m field)) :
    (Column.slot config column).field? = some field.1 := by
  rcases wf with plain | ⟨target, relates, -⟩
  · rw [columnsOf_plain plain] at mem
    obtain rfl : column = field.1 := by simpa [Assoc.keys] using mem
    rw [Column.slot_own valid plain.unseparated]
    rfl
  · rw [columnsOf_relation relates] at mem
    obtain ⟨x, under, rfl⟩ : ∃ x, x ∈ Assoc.keys (field.2.relatedColumns schema config target) ∧
        config.prefixed field.1 x = column := by
      simpa [Assoc.keys] using mem
    rw [Column.slot_prefixed valid relates.isAlias relates.not_self]
    rfl

theorem keys_columnsOf_relation {field : String × Value} {target : Model}
    (relates : m.Relates schema config field.1 target) :
    Assoc.keys (columnsOf schema config m field)
      = (Assoc.keys (field.2.relatedColumns schema config target)).map
          (config.prefixed field.1) := by
  rw [columnsOf_relation relates, Assoc.keys, Assoc.keys, List.map_map, List.map_map]
  rfl

mutual

/-- **No two columns of a well-formed entry have one name.** -/
theorem Entry.nodup_columns (valid : config.validate = .ok ()) (e : Entry) (m : Model)
    (wf : e.WellFormed schema config m) : (Assoc.keys (e.columns schema config m)).Nodup := by
  obtain ⟨model, fields, dirty⟩ := e
  exact nodup_fieldColumns valid fields m wf.2.1 wf.2.2

theorem nodup_fieldColumns (valid : config.validate = .ok ()) (fields : List (String × Value))
    (m : Model) (distinct : (Assoc.keys fields).Nodup)
    (wf : WellFormedFields schema config m fields) :
    (Assoc.keys (fieldColumns schema config m fields)).Nodup := by
  cases fields with
  | nil => exact List.nodup_nil
  | cons field rest =>
    obtain ⟨name, v⟩ := field
    have distinct : name ∉ Assoc.keys rest ∧ (Assoc.keys rest).Nodup := List.nodup_cons.1 distinct
    have first : (Assoc.keys (columnsOf schema config m (name, v))).Nodup := by
      rcases wf.1 with plain | ⟨target, relates, fits⟩
      · rw [columnsOf_plain plain]
        exact List.nodup_singleton name
      · rw [keys_columnsOf_relation relates]
        exact (Value.nodup_relatedColumns valid v _ target fits).map
          (config.prefixed_injective name)
    have others := nodup_fieldColumns valid rest m distinct.2 wf.2
    have apart : List.Disjoint (Assoc.keys (columnsOf schema config m (name, v)))
        (Assoc.keys (fieldColumns schema config m rest)) := by
      intro column here there
      rw [fieldColumns_eq_flatMap, Assoc.keys, List.map_flatMap] at there
      obtain ⟨other, mem, there⟩ := List.mem_flatMap.1 there
      have goes := field?_slot_of_mem_columnsOf valid (name, v) wf.1 here
      have goesToo := field?_slot_of_mem_columnsOf valid other
        (wellFormedFields_iff.1 wf.2 other mem) there
      rw [goes] at goesToo
      have same : name = other.1 := Option.some.inj goesToo
      rw [same] at distinct
      exact distinct.1 (List.mem_map_of_mem mem)
    have split : Assoc.keys (fieldColumns schema config m ((name, v) :: rest))
        = Assoc.keys (columnsOf schema config m (name, v))
          ++ Assoc.keys (fieldColumns schema config m rest) := by
      rw [Assoc.keys, Assoc.keys, Assoc.keys, ← List.map_append]
      rfl
    rw [split]
    exact first.append others apart

theorem Value.nodup_relatedColumns (valid : config.validate = .ok ()) (v : Value) (many : Bool)
    (target : Model) (fits : v.FitsRelation schema config many target) :
    (Assoc.keys (v.relatedColumns schema config target)).Nodup := by
  cases v with
  | null => exact List.nodup_singleton _
  | entry e => exact Entry.nodup_columns valid e target fits.2.1
  | list items => exact nodup_itemColumns valid items target fits.2
  | bool b => exact List.nodup_singleton _
  | int n => exact List.nodup_singleton _
  | float x => exact List.nodup_singleton _
  | string s => exact List.nodup_singleton _
  | record fields => exact List.nodup_singleton _

theorem nodup_itemColumns (valid : config.validate = .ok ()) (items : List Value) (target : Model)
    (fits : FitItems schema config target items) :
    (Assoc.keys (itemColumns schema config target items)).Nodup := by
  cases items with
  | nil => exact List.nodup_singleton _
  | cons v rest => exact Value.nodup_relatedColumns valid v false target fits.2.2

end

/-! ### What relations hold -/

/-- A field that relates the model to another one is declared as a relation. -/
theorem Model.Relates.isRelation {name : String} {target : Model}
    (relates : m.Relates schema config name target) : m.isRelation name = true := by
  obtain ⟨f, t, found, points, -⟩ := Schema.relationTarget_eq_ok_iff.1 relates.target
  simp [Model.isRelation, found, FieldType.isRelation, points]

/-- A relation holds no target, as null or an empty list, or one, by itself or in a list. -/
theorem Value.FitsRelation.cases {many : Bool} {target : Model} {v : Value}
    (fits : v.FitsRelation schema config many target) :
    (v = if many then .list [] else .null) ∨
      ∃ e, (v = if many then .list [.entry e] else .entry e) ∧
        e.WellFormed schema config target ∧ e.IsJoined schema config target := by
  cases v with
  | null => exact .inl (by rw [show many = false from fits]; rfl)
  | entry e => exact .inr ⟨e, by rw [fits.1]; rfl, fits.2.1, fits.2.2⟩
  | list items =>
    obtain ⟨rfl, all⟩ := fits
    cases items with
    | nil => exact .inl rfl
    | cons v rest =>
      obtain ⟨rfl, some, fits⟩ := all
      cases v with
      | null => cases some
      | entry e => exact .inr ⟨e, rfl, fits.2.1, fits.2.2⟩
      | list items => cases fits.1
      | _ => cases fits
  | _ => cases fits

/-- The columns of no target are the primary key as null, and those of one target are its own. -/
theorem relatedColumns_none (many : Bool) (target : Model) :
    (if many then Value.list [] else Value.null).relatedColumns schema config target
      = [(target.primaryKey, .null)] := by
  cases many <;> rfl

theorem relatedColumns_some (many : Bool) (target : Model) (e : Entry) :
    (if many then Value.list [.entry e] else Value.entry e).relatedColumns schema config target
      = e.columns schema config target := by
  cases many <;> rfl

theorem relatedColumns_ne_nil {many : Bool} {target : Model} {v : Value}
    (fits : v.FitsRelation schema config many target) :
    v.relatedColumns schema config target ≠ [] := by
  rcases fits.cases with rfl | ⟨e, rfl, -, joined⟩
  · rw [relatedColumns_none]
    simp
  · rw [relatedColumns_some]
    obtain ⟨column, mem, -⟩ := joined.nonempty
    exact List.ne_nil_of_mem mem

/-- The columns of an entry that is joined say so. -/
theorem Entry.IsJoined.isJoined_columns {e : Entry} (joined : e.IsJoined schema config m) :
    Row.isJoined m (e.columns schema config m) = true := by
  have key : m.primaryKey ∈ Assoc.keys (e.columns schema config m) := by
    obtain ⟨model, fields, dirty⟩ := e
    obtain ⟨⟨name, v⟩, mem, rfl : name = m.primaryKey⟩ := List.mem_map.1 joined.primaryKey
    have column : (m.primaryKey, v) ∈ columnsOf schema config m (m.primaryKey, v) := by
      rw [columnsOf_plain joined.primaryKey_plain]
      exact List.mem_cons_self ..
    have there : (m.primaryKey, v) ∈ Entry.columns schema config m ⟨model, fields, dirty⟩ := by
      rw [Entry.columns, fieldColumns_eq_flatMap]
      exact List.mem_flatMap_of_mem mem column
    exact List.mem_map_of_mem there
  have found : Assoc.contains m.primaryKey (e.columns schema config m) = true := by
    rw [Assoc.contains, Option.isSome_iff_ne_none]
    intro none
    exact Assoc.get?_eq_none_iff.1 none key
  obtain ⟨column, mem, nonempty⟩ := joined.nonempty
  rw [Row.isJoined, found, Bool.true_and, List.any_eq_true]
  exact ⟨column, mem, by simp [nonempty]⟩

/-- A null primary key alone is no target. -/
theorem isJoined_null (target : Model) :
    Row.isJoined target [(target.primaryKey, .null)] = false := by
  simp [Row.isJoined, Value.isEmpty]

/-! ### The parts of a row -/

/-- The field that a column is of the entry itself. -/
def Column.own? (config : Config) (column : String × Value) : Option (String × Value) :=
  match slot config column.1 with
  | .own field => some (field, column.2)
  | _ => none

/-- Adds a column to the rows of the relations. -/
def Row.addColumn (config : Config) (groups : List (String × Row)) (column : String × Value) :
    List (String × Row) :=
  match Column.slot config column.1 with
  | .joined a rest => addJoined groups a rest column.2
  | _ => groups

theorem Row.ownFields_eq (row : Row) :
    ownFields config row = Assoc.ofList (row.filterMap (Column.own? config)) :=
  rfl

/-- The columns of the plain fields are the fields of the row itself. -/
theorem ownFields_columns (valid : config.validate = .ok ()) {fields : List (String × Value)}
    (distinct : (Assoc.keys fields).Nodup) (wf : WellFormedFields schema config m fields) :
    Row.ownFields config (fieldColumns schema config m fields)
      = fields.filter fun field => !m.isRelation field.1 := by
  have own : (fieldColumns schema config m fields).filterMap (Column.own? config)
      = fields.filter fun field => !m.isRelation field.1 := by
    rw [wellFormedFields_iff] at wf
    rw [fieldColumns_eq_flatMap]
    clear distinct
    induction fields with
    | nil => rfl
    | cons field rest ih =>
      rw [List.flatMap_cons, List.filterMap_append,
        ih fun f mem => wf f (List.mem_cons_of_mem _ mem)]
      rcases wf field (List.mem_cons_self ..) with plain | ⟨target, relates, -⟩
      · rw [columnsOf_plain plain, List.filter_cons_of_pos (by simp [plain.not_relation])]
        simp [Column.own?, Column.slot_own valid plain.unseparated]
      · rw [columnsOf_relation relates, List.filter_cons_of_neg (by simp [relates.isRelation])]
        simp [Column.own?, Column.slot_prefixed valid relates.isAlias relates.not_self]
  have kept : (Assoc.keys (fields.filter fun field => !m.isRelation field.1)).Nodup :=
    (List.filter_sublist.map Prod.fst).nodup distinct
  rw [Row.ownFields_eq, own, Assoc.ofList_of_nodup kept]

/-- Columns under an alias are added to its row, which stands last. -/
theorem foldl_addColumn_prefixed (valid : config.validate = .ok ()) {a : String}
    (isAlias : config.IsAlias a) (other : a ≠ config.selfAlias) {groups : List (String × Row)}
    (absent : a ∉ Assoc.keys groups) (columns group : Row) :
    (columns.map fun (column, x) => (config.prefixed a column, x)).foldl (Row.addColumn config)
        (groups ++ [(a, group)])
      = groups ++ [(a, Assoc.insertAll group columns)] := by
  induction columns generalizing group with
  | nil => rfl
  | cons column rest ih =>
    have added : Row.addColumn config (groups ++ [(a, group)])
          (config.prefixed a column.1, column.2)
        = groups ++ [(a, Assoc.insert column.1 column.2 group)] := by
      have held : Assoc.get? a (groups ++ [(a, group)]) = some group := by
        rw [Assoc.get?_append, Assoc.get?_eq_none_iff.2 absent]
        simp [Assoc.get?]
      rw [Row.addColumn, Column.slot_prefixed valid isAlias other]
      simp only [Row.addJoined, held, Option.getD_some]
      rw [Assoc.insert_append_of_not_mem absent]
      simp [Assoc.insert]
    rw [List.map_cons, List.foldl_cons, added, ih]
    rfl

/-- The columns under a new alias become its row. -/
theorem foldl_addColumn_new (valid : config.validate = .ok ()) {a : String}
    (isAlias : config.IsAlias a) (other : a ≠ config.selfAlias) {groups : List (String × Row)}
    (absent : a ∉ Assoc.keys groups) {columns : Row} (nonempty : columns ≠ [])
    (distinct : (Assoc.keys columns).Nodup) :
    (columns.map fun (column, x) => (config.prefixed a column, x)).foldl (Row.addColumn config)
        groups
      = groups ++ [(a, columns)] := by
  obtain ⟨column, rest, rfl⟩ := List.exists_cons_of_ne_nil nonempty
  have added : Row.addColumn config groups (config.prefixed a column.1, column.2)
      = groups ++ [(a, [column])] := by
    rw [Row.addColumn, Column.slot_prefixed valid isAlias other]
    simp only [Row.addJoined, Assoc.get?_eq_none_iff.2 absent, Option.getD_none]
    rw [Assoc.insert_of_not_mem absent]
    rfl
  have whole : Assoc.insertAll [column] rest = column :: rest := Assoc.insertAll_of_nodup distinct
  rw [List.map_cons, List.foldl_cons, added, foldl_addColumn_prefixed valid isAlias other absent,
    whole]

/-- The row of the columns of a relation field. -/
def relatedRow (schema : Schema) (config : Config) (m : Model) (field : String × Value) : Row :=
  match schema.relationTarget m field.1 with
  | .ok target => field.2.relatedColumns schema config target
  | .error _ => []

theorem relatedRow_eq {field : String × Value} {target : Model}
    (relates : m.Relates schema config field.1 target) :
    relatedRow schema config m field = field.2.relatedColumns schema config target := by
  rw [relatedRow, relates.target]

/-- The columns of the relation fields are grouped into the rows that they were laid out as. -/
theorem foldl_addColumn_columns (valid : config.validate = .ok ())
    {fields : List (String × Value)} (wf : WellFormedFields schema config m fields)
    {groups : List (String × Row)} (distinct : (Assoc.keys groups ++ Assoc.keys fields).Nodup) :
    (fieldColumns schema config m fields).foldl (Row.addColumn config) groups
      = groups ++ (fields.filter fun field => m.isRelation field.1).map fun field =>
          (field.1, relatedRow schema config m field) := by
  rw [wellFormedFields_iff] at wf
  rw [fieldColumns_eq_flatMap]
  induction fields generalizing groups with
  | nil => simp
  | cons field rest ih =>
    have others : ∀ f ∈ rest, WellFormedField schema config m f :=
      fun f mem => wf f (List.mem_cons_of_mem _ mem)
    rw [List.flatMap_cons, List.foldl_append]
    rcases wf field (List.mem_cons_self ..) with plain | ⟨target, relates, fits⟩
    · have skipped : Row.addColumn config groups field = groups := by
        rw [Row.addColumn, Column.slot_own valid plain.unseparated]
      have left : (Assoc.keys groups ++ Assoc.keys rest).Nodup :=
        ((List.sublist_cons_self ..).append_left _).nodup distinct
      rw [columnsOf_plain plain, List.foldl_cons, List.foldl_nil, skipped, ih others left,
        List.filter_cons_of_neg (by simp [plain.not_relation])]
    · have absent : field.1 ∉ Assoc.keys groups := by
        intro mem
        exact (List.nodup_append.1 distinct).2.2 _ mem _ (List.mem_cons_self ..) rfl
      have row := foldl_addColumn_new valid relates.isAlias relates.not_self absent
        (relatedColumns_ne_nil fits) (Value.nodup_relatedColumns valid _ _ target fits)
      have left : (Assoc.keys (groups ++ [(field.1, field.2.relatedColumns schema config target)])
          ++ Assoc.keys rest).Nodup := by
        simpa [Assoc.keys] using distinct
      rw [columnsOf_relation relates, row, ih others left,
        List.filter_cons_of_pos (by simp [relates.isRelation]), List.map_cons,
        relatedRow_eq relates, List.append_assoc, List.singleton_append]

/-! ### Loaded fields -/

/-- Fields of the same names in the same order, with the values of the others as they are loaded. -/
def LoadedFields (loaded fields : List (String × Value)) : Prop :=
  List.Forall₂ (fun l field => l.1 = field.1 ∧ l.2.LoadedAs field.2) loaded fields

theorem LoadedFields.keys_eq {loaded fields : List (String × Value)}
    (all : LoadedFields loaded fields) : Assoc.keys loaded = Assoc.keys fields := by
  induction all with
  | nil => rfl
  | cons first _ ih => exact congrArg₂ List.cons first.1 ih

/-- What is loaded of a field is found under its name. -/
theorem LoadedFields.rel_get? {loaded fields : List (String × Value)}
    (all : LoadedFields loaded fields) (name : String) :
    Option.Rel Value.LoadedAs (Assoc.get? name loaded) (Assoc.get? name fields) := by
  induction all with
  | nil => exact .none
  | @cons l field _ _ first _ ih =>
    obtain ⟨same, loadedAs⟩ := first
    rw [Assoc.get?, Assoc.get?, same]
    by_cases found : field.1 = name
    · rw [if_pos found, if_pos found]
      exact .some loadedAs
    · rw [if_neg found, if_neg found]
      exact ih

/-- The plain fields and the loaded ones of the relations are the fields of the entry. -/
theorem LoadedFields.rel_get?_append {loaded fields : List (String × Value)}
    (all : LoadedFields loaded (fields.filter fun field => m.isRelation field.1)) (name : String) :
    Option.Rel Value.LoadedAs
      (Assoc.get? name ((fields.filter fun field => !m.isRelation field.1) ++ loaded))
      (Assoc.get? name fields) := by
  have related := all.rel_get? name
  rw [Assoc.get?_filter name (fun n => m.isRelation n)] at related
  rw [Assoc.get?_append, Assoc.get?_filter name (fun n => !m.isRelation n)]
  by_cases isRelation : m.isRelation name
  · rw [if_pos isRelation] at related
    simpa [isRelation] using related
  · rw [if_neg isRelation] at related
    have absent : Assoc.get? name loaded = none := by
      cases found : Assoc.get? name loaded with
      | none => rfl
      | some v => rw [found] at related; cases related
    simp only [isRelation, absent, Option.or_none]
    cases Assoc.get? name fields with
    | none => exact .none
    | some v => exact .some (.same v)

/-! ### Putting an entry together -/

namespace Materialize

/-- Fields that are not serialized are taken as they are. -/
theorem decodeFields_of_not_serialized {fields : Row}
    (plain : ∀ field ∈ fields, m.isSerialized field.1 = false) :
    decodeFields m fields = .ok fields := by
  induction fields with
  | nil => rfl
  | cons field rest ih =>
    have others := ih fun f mem => plain f (List.mem_cons_of_mem _ mem)
    rw [decodeFields] at others ⊢
    rw [List.mapM_cons, others]
    simp only [plain field (List.mem_cons_self ..)]
    rfl

/-- The value of a relation whose target and field are known. -/
theorem relation_eq {nested : Model → Row → Result Entry} {name : String} {target : Model}
    {f : Field} (resolved : schema.relationTarget m name = .ok target)
    (found : m.field? name = some f) (row : Row) :
    relation schema nested m name row
      = if Row.isJoined target row then
          (nested target row).map fun e => if f.type.isMany then .list [.entry e] else .entry e
        else .ok (if f.type.isMany then .list [] else .null) := by
  have declared : m.field name = .ok f := by rw [Model.field, found]
  rw [relation, resolved, declared]
  show (if Row.isJoined target row then
    (nested target row).bind fun e =>
      .ok (if f.type.isMany then Value.list [.entry e] else .entry e)
    else .ok _) = _
  cases nested target row <;> rfl

theorem addRelations_cons {nested : Model → Row → Result Entry} {name : String} {row : Row}
    {v : Value} (made : relation schema nested m name row = .ok v) (fields : Row)
    (rest : List (String × Row)) :
    addRelations schema nested m fields ((name, row) :: rest)
      = addRelations schema nested m (Assoc.insert name v fields) rest := by
  rw [addRelations, List.foldlM_cons]
  simp only [made]
  rfl

/-- The row of a relation gives back what the relation holds, if nested entries come back. -/
theorem relation_relatedColumns {nested : Model → Row → Result Entry} {name : String}
    {target : Model} {v : Value} (relates : m.Relates schema config name target)
    (fits : v.FitsRelation schema config (m.isMany name) target)
    (back : ∀ e : Entry, e.WellFormed schema config target →
      e.columns schema config target = v.relatedColumns schema config target →
      ∃ loaded, nested target (e.columns schema config target) = .ok loaded ∧ loaded.LoadedAs e) :
    ∃ loaded, relation schema nested m name (v.relatedColumns schema config target) = .ok loaded ∧
      loaded.LoadedAs v := by
  obtain ⟨f, t, found, -, -⟩ := Schema.relationTarget_eq_ok_iff.1 relates.target
  have many : m.isMany name = f.type.isMany := by rw [Model.isMany, found]; rfl
  rw [many] at fits
  rcases fits.cases with rfl | ⟨e, rfl, wf, joined⟩
  · refine ⟨if f.type.isMany then .list [] else .null, ?_, .same _⟩
    rw [relatedColumns_none, relation_eq relates.target found, isJoined_null]
    rfl
  · obtain ⟨loaded, made, same⟩ := back e wf (relatedColumns_some ..).symm
    refine ⟨if f.type.isMany then .list [.entry loaded] else .entry loaded, ?_, ?_⟩
    · rw [relatedColumns_some, relation_eq relates.target found, joined.isJoined_columns, made]
      rfl
    · split
      · exact .list (.cons same.value .nil)
      · exact same.value

/-- The rows of relations are put to the fields, each as what its relation holds. -/
theorem addRelations_relatedRows {nested : Model → Row → Result Entry}
    {related : List (String × Value)} {fields : Row}
    (distinct : (Assoc.keys fields ++ Assoc.keys related).Nodup)
    (back : ∀ field ∈ related, ∃ loaded,
      relation schema nested m field.1 (relatedRow schema config m field) = .ok loaded ∧
        loaded.LoadedAs field.2) :
    ∃ loaded, addRelations schema nested m fields
        (related.map fun field => (field.1, relatedRow schema config m field))
          = .ok (fields ++ loaded) ∧
      LoadedFields loaded related := by
  induction related generalizing fields with
  | nil => exact ⟨[], by rw [List.append_nil]; rfl, List.Forall₂.nil⟩
  | cons field rest ih =>
    obtain ⟨v, made, same⟩ := back field (List.mem_cons_self ..)
    have absent : field.1 ∉ Assoc.keys fields := by
      intro mem
      exact (List.nodup_append.1 distinct).2.2 _ mem _ (List.mem_cons_self ..) rfl
    have left : (Assoc.keys (fields ++ [(field.1, v)]) ++ Assoc.keys rest).Nodup := by
      simpa [Assoc.keys] using distinct
    obtain ⟨loaded, added, all⟩ := ih left fun f mem => back f (List.mem_cons_of_mem _ mem)
    refine ⟨(field.1, v) :: loaded, ?_, List.Forall₂.cons ⟨rfl, same⟩ all⟩
    rw [List.map_cons, addRelations_cons made, Assoc.insert_of_not_mem absent, added,
      List.append_assoc, List.singleton_append]

/-! ### Aliases make names shorter -/

theorem longestName_le_iff {row : Row} {n : Nat} :
    Row.longestName row ≤ n ↔ ∀ column ∈ row, column.1.length ≤ n := by
  have fold : ∀ (row : Row) (k : Nat),
      row.foldl (fun n column => max n column.1.length) k ≤ n ↔
        k ≤ n ∧ ∀ column ∈ row, column.1.length ≤ n := by
    intro row
    induction row with
    | nil => simp
    | cons column rest ih =>
      intro k
      rw [List.foldl_cons, ih, List.forall_mem_cons, Nat.max_le, and_assoc]
  rw [Row.longestName]
  exact (fold row 0).trans (by simp)

/-- The row of a relation has shorter column names than the row that it is a part of. -/
theorem longestName_relatedColumns_lt (valid : config.validate = .ok ()) {field : String × Value}
    {fields : List (String × Value)} (mem : field ∈ fields) {target : Model}
    (relates : m.Relates schema config field.1 target)
    (nonempty : field.2.relatedColumns schema config target ≠ []) :
    Row.longestName (field.2.relatedColumns schema config target)
      < Row.longestName (fieldColumns schema config m fields) := by
  have separator : 0 < config.aliasSeparator.length := by
    rw [← String.length_toList]
    exact List.length_pos_iff.2 (Config.separator_ne_nil valid)
  have shorter : ∀ column ∈ field.2.relatedColumns schema config target,
      column.1.length + 1 ≤ Row.longestName (fieldColumns schema config m fields) := by
    intro column under
    have there : (config.prefixed field.1 column.1, column.2)
        ∈ fieldColumns schema config m fields := by
      rw [fieldColumns_eq_flatMap]
      refine List.mem_flatMap_of_mem mem ?_
      rw [columnsOf_relation relates]
      exact List.mem_map_of_mem under
    have bound := longestName_le_iff.1 (Nat.le_refl _) _ there
    simp only [Config.prefixed, String.length_append] at bound
    omega
  have bound : Row.longestName (field.2.relatedColumns schema config target)
      ≤ Row.longestName (fieldColumns schema config m fields) - 1 := by
    rw [longestName_le_iff]
    intro column under
    have := shorter column under
    omega
  obtain ⟨column, rest, cons⟩ := List.exists_cons_of_ne_nil nonempty
  have first := shorter column (by rw [cons]; exact List.mem_cons_self ..)
  omega

/-! ### The round trip -/

/-- A row is made into an entry if the rows of its relations are. -/
theorem entryWithin_succ_columns (valid : config.validate = .ok ()) {depth : Nat}
    {fields : List (String × Value)} (distinct : (Assoc.keys fields).Nodup)
    (wf : WellFormedFields schema config m fields)
    (back : ∀ field ∈ fields, m.isRelation field.1 = true → ∃ loaded,
      relation schema (entryWithin schema config depth) m field.1
        (relatedRow schema config m field) = .ok loaded ∧ loaded.LoadedAs field.2) :
    ∃ loaded, LoadedFields loaded (fields.filter fun field => m.isRelation field.1) ∧
      entryWithin schema config (depth + 1) m (fieldColumns schema config m fields)
        = .ok ⟨m.name, (fields.filter fun field => !m.isRelation field.1) ++ loaded, []⟩ := by
  have plain : ∀ field ∈ fields.filter (fun field => !m.isRelation field.1),
      m.isSerialized field.1 = false := by
    intro field mem
    obtain ⟨mem, notRelation⟩ := List.mem_filter.1 mem
    rcases wellFormedFields_iff.1 wf field mem with plain | ⟨target, relates, -⟩
    · exact plain.not_serialized
    · rw [relates.isRelation] at notRelation
      cases notRelation
  have split : (Assoc.keys (fields.filter fun field => !m.isRelation field.1)
      ++ Assoc.keys (fields.filter fun field => m.isRelation field.1)).Nodup := by
    rw [Assoc.keys, Assoc.keys, ← List.map_append]
    refine (List.Perm.nodup_iff (List.Perm.map Prod.fst ?_)).1 distinct
    exact (List.perm_append_comm.trans
      (List.filter_append_perm (fun field => m.isRelation field.1) fields)).symm
  obtain ⟨loaded, added, all⟩ := addRelations_relatedRows split fun field mem =>
    back field (List.mem_filter.1 mem).1 (List.mem_filter.1 mem).2
  have groups : Row.groups config (fieldColumns schema config m fields)
      = (fields.filter fun field => m.isRelation field.1).map fun field =>
          (field.1, relatedRow schema config m field) :=
    foldl_addColumn_columns valid wf distinct
  have whole : (Assoc.keys
      ((fields.filter fun field => !m.isRelation field.1) ++ loaded)).Nodup := by
    rw [← all.keys_eq, Assoc.keys, Assoc.keys, ← List.map_append] at split
    exact split
  refine ⟨loaded, all, ?_⟩
  rw [entryWithin, ownFields_columns valid distinct wf, decodeFields_of_not_serialized plain,
    groups]
  show ((addRelations schema _ m _ _).bind fun fields => .ok (Entry.load m.name fields)) = _
  rw [added]
  show Except.ok (Entry.load m.name _) = _
  rw [Entry.load, Assoc.ofList_of_nodup whole]

/-- An entry comes back as far as the aliases are followed. -/
theorem entryWithin_columns (valid : config.validate = .ok ()) (depth : Nat) (m : Model) (e : Entry)
    (wf : e.WellFormed schema config m)
    (short : Row.longestName (e.columns schema config m) < depth) :
    ∃ loaded, entryWithin schema config depth m (e.columns schema config m) = .ok loaded ∧
      loaded.LoadedAs e := by
  induction depth generalizing m e with
  | zero => omega
  | succ depth ih =>
    obtain ⟨model, fields, dirty⟩ := e
    obtain ⟨rfl, distinct, wf⟩ := wf
    rw [Entry.columns] at short ⊢
    have back : ∀ field ∈ fields, m.isRelation field.1 = true → ∃ loaded,
        relation schema (entryWithin schema config depth) m field.1
          (relatedRow schema config m field) = .ok loaded ∧ loaded.LoadedAs field.2 := by
      intro field mem isRelation
      rcases wellFormedFields_iff.1 wf field mem with plain | ⟨target, relates, fits⟩
      · rw [plain.not_relation] at isRelation
        cases isRelation
      · rw [relatedRow_eq relates]
        refine relation_relatedColumns relates fits fun e wf same => ih target e wf ?_
        have shorter := longestName_relatedColumns_lt valid mem relates (relatedColumns_ne_nil fits)
        rw [same]
        omega
    obtain ⟨loaded, all, made⟩ := entryWithin_succ_columns valid distinct wf back
    exact ⟨_, made, rfl, rfl, all.rel_get?_append⟩

end Materialize

/-- **Materialization undoes laying out.** Under a valid configuration, the row of the columns of a
well-formed entry is made into an entry again, which is the one that was laid out: of its model, and
with its fields at every depth, nested entries included. -/
theorem Materializer.entry_columns (p : Materializer) (valid : p.config.validate = .ok ())
    (e : Entry) (wf : e.WellFormed p.schema p.config p.model) :
    ∃ loaded, p.entry (e.columns p.schema p.config p.model) = .ok loaded ∧ loaded.LoadedAs e :=
  Materialize.entryWithin_columns valid _ p.model e wf (Nat.lt_succ_self _)

/-- A book with its author, who has a book whose author is not there: the schema is cyclic. -/
theorem Materializer.entry_columns_cyclic :
    let author : Model := { name := "Author", fields := [.ofType "id" (.primitive .int),
      .ofType "name" (.primitive .string), .ofType "books" (.hasMany "Book")] }
    let book : Model := { name := "Book", fields := [.ofType "id" (.primitive .int),
      .ofType "author" (.belongsTo "Author" "author_id")] }
    let p : Materializer := ⟨.ofModels [author, book], book, {}, none⟩
    let e : Entry := ⟨"Book", [("author", .entry ⟨"Author", [("name", .string "Le Guin"),
      ("books", .list [.entry ⟨"Book", [("id", .int 2), ("author", .null)], []⟩]),
      ("id", .int 7)], []⟩), ("id", .int 1)], []⟩
    p.config.validate = .ok () ∧ e.WellFormed p.schema p.config p.model ∧
      ∃ loaded, p.entry (e.columns p.schema p.config p.model) = .ok loaded ∧ loaded.LoadedAs e := by
  intro author book p e
  have single : p.config.aliasSeparator.toList = [':'] := by decide
  have valid : p.config.validate = .ok () := by
    simp [p, Config.validate, Config.occurs, Text.after?, Text.agree]
  have plain : ∀ {m : Model} {name : String}, ':' ∉ name.toList → m.isSerialized name = false →
      m.isRelation name = false → m.IsPlain p.config name := fun absent notSerialized notRelation =>
    ⟨Config.unseparated_of_not_mem single absent, notSerialized, notRelation⟩
  have writer : book.Relates p.schema p.config "author" author :=
    ⟨rfl, by decide, Config.isAlias_of_not_mem single (by decide)⟩
  have books : author.Relates p.schema p.config "books" book :=
    ⟨rfl, by decide, Config.isAlias_of_not_mem single (by decide)⟩
  have bookId : book.IsPlain p.config "id" := plain (by decide) rfl rfl
  have authorId : author.IsPlain p.config "id" := plain (by decide) rfl rfl
  have authorName : author.IsPlain p.config "name" := plain (by decide) rfl rfl
  have wf : e.WellFormed p.schema p.config p.model := by
    refine ⟨rfl, by decide, .inr ⟨author, writer, rfl, ⟨rfl, by decide, .inl authorName,
      .inr ⟨book, books, rfl, rfl, rfl, rfl, ⟨rfl, by decide, .inl bookId,
        .inr ⟨author, writer, rfl⟩, trivial⟩, ⟨by decide, bookId, ?_⟩⟩, .inl authorId, trivial⟩,
      ⟨by decide, authorId, ?_⟩⟩, .inl bookId, trivial⟩
    · exact ⟨("id", .int 2), .head _, by decide⟩
    · exact ⟨("name", .string "Le Guin"), .head _, by decide⟩
  exact ⟨valid, wf, p.entry_columns valid e wf⟩

end RecordMapper
