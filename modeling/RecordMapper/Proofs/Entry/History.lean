import RecordMapper.Proofs.Materialize.Merging

/-!
Entries as the history of their changes.

A `Change` sets a field, takes one out, forgets which fields were changed, or merges another entry
in; `Entry.after` is an entry after a history of changes. What such an entry has is told by the
history alone. `Since` says that something happened and was not ended afterwards: a field is dirty
if it was set and not made clean since, and it is loaded if it was given a value and not taken out
since. `MarkedAt` finds the change that made a dirty field dirty: the first that set it since it was
last clean.

* `Entry.tracks_history` says that **an entry tracks its history**, however it began: its dirty
  fields are those that were set and not made clean since, each once, in the order in which they
  became dirty and with the values they have; all of them are loaded; and which fields are loaded
  is told in the same way.
* Merging changes nothing but lists (`Entry.mergeKeeps`): no other field, no mark, and not the order
  of the fields that are there.
-/

namespace RecordMapper

/-! ### Histories -/

/-- A change of an entry. -/
inductive Change where
  | set (name : String) (value : Value)
  | unset (name : String)
  | clearDirty
  | mergeLists (other : Entry)

/-- Makes a change. -/
def Change.apply : Change → Entry → Entry
  | .set name value, e => e.set name value
  | .unset name, e => e.unset name
  | .clearDirty, e => e.clearDirty
  | .mergeLists other, e => e.mergeLists other

/-- The entry after a history of changes. -/
def Entry.after (e : Entry) (history : List Change) : Entry :=
  history.foldl (fun e c => c.apply e) e

theorem Entry.after_concat (e : Entry) (history : List Change) (c : Change) :
    e.after (history ++ [c]) = c.apply (e.after history) :=
  List.foldl_concat ..

namespace Change

/-- The change sets the field. -/
def Sets (name : String) (c : Change) : Prop :=
  ∃ value, c = .set name value

/-- The change takes the field out. -/
def Unsets (name : String) (c : Change) : Prop :=
  c = .unset name

/-- After the change the field is clean. -/
def Cleans (name : String) (c : Change) : Prop :=
  c = .clearDirty ∨ c.Unsets name

/-- The change gives the field a value if it has none: it sets the field, or merges an entry in that
has a list there. -/
def Loads (name : String) (c : Change) : Prop :=
  c.Sets name ∨ ∃ other items, c = .mergeLists other ∧ (name, .list items) ∈ other.fields

end Change

/-- One of the changes started it, and none behind that one ended it. -/
def Since (starts ends : Change → Prop) (history : List Change) : Prop :=
  ∃ before c later, history = before ++ c :: later ∧ starts c ∧ ∀ d ∈ later, ¬ ends d

/-- The field was set after the changes were last forgotten, and it was not taken out after it was
last set. -/
def MarkedSince (name : String) : List Change → Prop :=
  Since (·.Sets name) (·.Cleans name)

/-- The change at this place made the field dirty: the field was clean before, it was set there, and
it was not made clean since. -/
structure MarkedAt (name : String) (history : List Change) (i : Nat) : Prop where
  clean : ¬ MarkedSince name (history.take i)
  set : ∃ value, history[i]? = some (.set name value)
  kept : ∀ c ∈ history.drop (i + 1), ¬ c.Cleans name

section Histories

variable {starts ends : Change → Prop} {name : String} {history : List Change} {c : Change}

theorem not_since_nil : ¬ Since starts ends [] := by
  rintro ⟨before, c, later, split, -⟩
  cases before <;> cases split

/-- What holds after one more change. -/
theorem since_concat :
    Since starts ends (history ++ [c]) ↔ starts c ∨ ¬ ends c ∧ Since starts ends history := by
  constructor
  · rintro ⟨before, d, later, split, started, kept⟩
    rcases List.eq_nil_or_concat later with rfl | ⟨later, last, rfl⟩
    · obtain ⟨-, same⟩ := List.append_inj' split rfl
      cases same
      exact .inl started
    · rw [List.concat_eq_append] at split kept
      rw [← List.cons_append, ← List.append_assoc] at split
      obtain ⟨front, same⟩ := List.append_inj' split rfl
      cases same
      refine .inr ⟨kept c (List.mem_append_right _ (List.mem_singleton_self c)), ?_⟩
      exact ⟨before, d, later, front, started, fun e mem => kept e (List.mem_append_left _ mem)⟩
  · rintro (started | ⟨goesOn, before, d, later, rfl, started, kept⟩)
    · exact ⟨history, c, [], rfl, started, List.forall_mem_nil _⟩
    · refine ⟨before, d, later ++ [c], by simp, started, fun e mem => ?_⟩
      rcases List.mem_append.1 mem with mem | mem
      · exact kept e mem
      · rw [List.mem_singleton.1 mem]
        exact goesOn

theorem markedSince_concat_set {n : String} {v : Value} :
    MarkedSince name (history ++ [.set n v]) ↔ n = name ∨ MarkedSince name history := by
  have sets : (Change.set n v).Sets name ↔ n = name := by
    simp [Change.Sets, eq_comm]
  have goesOn : ¬ (Change.set n v).Cleans name := by
    simp [Change.Cleans, Change.Unsets]
  rw [MarkedSince, since_concat, sets, and_iff_right goesOn]

theorem markedSince_concat_of_not_sets (other : ¬ c.Sets name) :
    MarkedSince name (history ++ [c]) ↔ ¬ c.Cleans name ∧ MarkedSince name history := by
  rw [MarkedSince, since_concat, or_iff_right other]

/-- A field stays marked by the same change until it is made clean. -/
theorem MarkedAt.concat {i : Nat} (marked : MarkedAt name history i) (goesOn : ¬ c.Cleans name) :
    MarkedAt name (history ++ [c]) i := by
  obtain ⟨clean, ⟨value, set⟩, kept⟩ := marked
  have inside : i < history.length := (List.getElem?_eq_some_iff.1 set).1
  refine ⟨?_, ⟨value, ?_⟩, ?_⟩
  · rwa [List.take_append_of_le_length (Nat.le_of_lt inside)]
  · rwa [List.getElem?_append_left inside]
  · rw [List.drop_append_of_le_length inside]
    intro d mem
    rcases List.mem_append.1 mem with mem | mem
    · exact kept d mem
    · rw [List.mem_singleton.1 mem]
      exact goesOn

/-- A clean field is marked by the change that sets it. -/
theorem markedAt_length (clean : ¬ MarkedSince name history) (value : Value) :
    MarkedAt name (history ++ [.set name value]) history.length where
  clean := by rwa [List.take_left']; rfl
  set := ⟨value, List.getElem?_concat_length ..⟩
  kept := by simp

/-- A dirty field was made dirty by one of the changes. -/
theorem exists_markedAt (marked : MarkedSince name history) :
    ∃ i < history.length, MarkedAt name history i := by
  induction history using List.reverseRecOn with
  | nil => exact absurd marked not_since_nil
  | append_singleton history c ih =>
    rw [List.length_append, List.length_singleton]
    by_cases sets : c.Sets name
    · obtain ⟨value, rfl⟩ := sets
      by_cases before : MarkedSince name history
      · obtain ⟨i, inside, at_i⟩ := ih before
        exact ⟨i, by omega, at_i.concat (by simp [Change.Cleans, Change.Unsets])⟩
      · exact ⟨_, Nat.lt_succ_self _, markedAt_length before value⟩
    · obtain ⟨goesOn, before⟩ := (markedSince_concat_of_not_sets sets).1 marked
      obtain ⟨i, inside, at_i⟩ := ih before
      exact ⟨i, by omega, at_i.concat goesOn⟩

end Histories

/-! ### What a change does to an entry -/

theorem Value.Grows.trans {u v w : Value} (first : u.Grows v) (second : v.Grows w) : u.Grows w := by
  cases first with
  | same => exact second
  | list kept =>
    cases second with
    | same => exact .list kept
    | list more => exact .list (List.Subset.trans kept more)

namespace Entry

/-- The names of fields are distinct, and so are the names of the dirty ones, which are loaded. -/
structure Tidy (e : Entry) : Prop where
  names : (Assoc.keys e.fields).Nodup
  marks : e.dirty.Nodup
  loaded : ∀ name ∈ e.dirty, name ∈ Assoc.keys e.fields

theorem isLoaded_iff {e : Entry} {name : String} :
    e.isLoaded name = true ↔ name ∈ Assoc.keys e.fields := by
  rw [isLoaded, Assoc.contains, Option.isSome_iff_ne_none, ne_eq, Assoc.get?_eq_none_iff, not_not]

theorem isDirty_iff {e : Entry} {name : String} : e.isDirty name = true ↔ name ∈ e.dirty :=
  List.contains_iff_mem

/-- A field that is dirty already stays in its place. -/
theorem dirty_set (e : Entry) (name : String) (v : Value) :
    (e.set name v).dirty = if name ∈ e.dirty then e.dirty else e.dirty ++ [name] := by
  simp [set]

theorem mem_dirty_set {e : Entry} {name n : String} {v : Value} :
    name ∈ (e.set n v).dirty ↔ n = name ∨ name ∈ e.dirty := by
  rw [dirty_set]
  split
  · rename_i known
    exact (or_iff_right_of_imp fun same => same ▸ known).symm
  · rw [List.mem_append, List.mem_singleton, or_comm, eq_comm]

/-! ### Merging -/

/-- A merged list is a field, and no field gets lost. -/
theorem mem_keys_mergeField {fields : List (String × Value)} {name k : String} {v : Value} :
    k ∈ Assoc.keys (mergeField fields name v)
      ↔ k ∈ Assoc.keys fields ∨ name = k ∧ ∃ items, v = .list items := by
  rw [← not_iff_not, ← Assoc.get?_eq_none_iff, get?_mergeField, not_or, ← Assoc.get?_eq_none_iff]
  by_cases same : name = k
  · rw [if_pos same, and_iff_right same]
    rcases Assoc.get? k fields with _ | held
    · cases v <;> simp [mergeValue]
    · cases held <;> cases v <;> simp [mergeValue]
  · simp [same]

/-- The fields that are there keep their order, and a new one stands behind them. -/
theorem keys_prefix_mergeField (fields : List (String × Value)) (name : String) (v : Value) :
    Assoc.keys fields <+: Assoc.keys (mergeField fields name v) := by
  unfold mergeField
  split
  · split
    · exact Assoc.keys_prefix_insert ..
    · exact List.prefix_refl _
    · exact Assoc.keys_prefix_insert ..
  · exact List.prefix_refl _

/-- What is not a list is neither changed by a merge nor made by one. -/
theorem mergeValue_eq_some_iff {v : Value} (notList : v.list? = none) {held new : Option Value} :
    mergeValue held new = some v ↔ held = some v := by
  rcases new with _ | new
  · rw [mergeValue_none]
  · rcases held with _ | held
    · cases new <;> cases v <;> simp_all [mergeValue, Value.list?]
    · cases new <;> cases held <;> cases v <;> simp_all [mergeValue, Value.list?]

/-- What each merged field keeps is kept by the merge of an entry. -/
theorem mergeLists_induction {P : List (String × Value) → Prop} {e : Entry} (start : P e.fields)
    (step : ∀ fields name v, P fields → P (mergeField fields name v)) (other : Entry) :
    P (e.mergeLists other).fields := by
  show P (other.fields.foldl (fun fields f => mergeField fields f.1 f.2) e.fields)
  induction other.fields generalizing e with
  | nil => exact start
  | cons field rest ih =>
    exact @ih { e with fields := mergeField e.fields field.1 field.2 } (step _ _ _ start)

theorem mem_keys_mergeLists {e other : Entry} {name : String} :
    name ∈ Assoc.keys (e.mergeLists other).fields
      ↔ name ∈ Assoc.keys e.fields ∨ ∃ items, (name, .list items) ∈ other.fields := by
  show name ∈ Assoc.keys (other.fields.foldl (fun fields f => mergeField fields f.1 f.2) e.fields)
    ↔ _
  induction other.fields generalizing e with
  | nil => simp
  | cons field rest ih =>
    rw [List.foldl_cons, @ih { e with fields := mergeField e.fields field.1 field.2 },
      mem_keys_mergeField]
    simp only [List.mem_cons, Prod.ext_iff, or_assoc, exists_or]
    simp [eq_comm]

/-- The entry is the other one with lists merged in: nothing but lists was changed or added. -/
structure MergeKeeps (e merged : Entry) : Prop where
  model : merged.model = e.model
  marks : ∀ name, merged.isDirty name = e.isDirty name
  values : ∀ name v, v.list? = none → (merged.get? name = some v ↔ e.get? name = some v)
  /-- The fields that were there keep their order, in front of those that were added. -/
  order : e.fieldNames <+: merged.fieldNames

/-- **Merging changes nothing but lists.** -/
theorem mergeKeeps (e other : Entry) : e.MergeKeeps (e.mergeLists other) where
  model := rfl
  marks _ := rfl
  values name v notList := by
    refine mergeLists_induction
      (P := fun fields => Assoc.get? name fields = some v ↔ e.get? name = some v) Iff.rfl ?_ other
    intro fields n w kept
    rw [get?_mergeField]
    split
    · rw [mergeValue_eq_some_iff notList, kept]
    · exact kept
  order := by
    refine mergeLists_induction (P := fun fields => e.fieldNames <+: Assoc.keys fields)
      (List.prefix_refl _) ?_ other
    exact fun fields n w kept => kept.trans (keys_prefix_mergeField fields n w)

/-! ### One change -/

theorem nodup_keys_mergeField {fields : List (String × Value)} (nodup : (Assoc.keys fields).Nodup)
    (name : String) (v : Value) : (Assoc.keys (mergeField fields name v)).Nodup := by
  unfold mergeField
  split
  · split
    · exact Assoc.keys_nodup_insert nodup
    · exact nodup
    · exact Assoc.keys_nodup_insert nodup
  · exact nodup

theorem tidy_load (model : String) (fields : List (String × Value)) : (load model fields).Tidy where
  names := Assoc.keys_nodup_ofList fields
  marks := List.nodup_nil
  loaded := List.forall_mem_nil _

theorem Tidy.apply {e : Entry} (tidy : e.Tidy) (c : Change) : (c.apply e).Tidy := by
  obtain ⟨names, marks, loaded⟩ := tidy
  cases c with
  | set n v =>
    refine ⟨Assoc.keys_nodup_insert names, ?_, fun name dirty => ?_⟩
    · show (e.set n v).dirty.Nodup
      rw [dirty_set]
      split
      · exact marks
      · rename_i new
        rw [← List.concat_eq_append]
        exact marks.concat new
    · exact Assoc.mem_keys_insert.2 ((mem_dirty_set.1 dirty).imp Eq.symm (loaded name))
  | unset n =>
    refine ⟨Assoc.keys_nodup_erase names, marks.erase n, fun name dirty => ?_⟩
    obtain ⟨other, dirty⟩ := (List.Nodup.mem_erase_iff marks).1 dirty
    exact (Assoc.mem_keys_erase names).2 ⟨other, loaded name dirty⟩
  | clearDirty => exact ⟨names, List.nodup_nil, List.forall_mem_nil _⟩
  | mergeLists other =>
    refine ⟨?_, marks, fun name dirty => mem_keys_mergeLists.2 (.inl (loaded name dirty))⟩
    exact mergeLists_induction (P := fun fields => (Assoc.keys fields).Nodup) names
      (fun fields n v nodup => nodup_keys_mergeField nodup n v) other

/-- A field is loaded after a change that loads it, or if it was and is not taken out. -/
theorem isLoaded_apply {e : Entry} (tidy : e.Tidy) {c : Change} {name : String} :
    (c.apply e).isLoaded name = true
      ↔ c.Loads name ∨ ¬ c.Unsets name ∧ e.isLoaded name = true := by
  rw [isLoaded_iff, isLoaded_iff]
  cases c with
  | set n v =>
    have loads : (Change.set n v).Loads name ↔ name = n := by
      simp [Change.Loads, Change.Sets, eq_comm]
    have kept : ¬ (Change.set n v).Unsets name := by simp [Change.Unsets]
    rw [loads, and_iff_right kept]
    exact Assoc.mem_keys_insert
  | unset n =>
    have loads : ¬ (Change.unset n).Loads name := by simp [Change.Loads, Change.Sets]
    have ends : (Change.unset n).Unsets name ↔ name = n := by simp [Change.Unsets, eq_comm]
    rw [or_iff_right loads, ends]
    exact Assoc.mem_keys_erase tidy.names
  | clearDirty =>
    have loads : ¬ Change.clearDirty.Loads name := by simp [Change.Loads, Change.Sets]
    have kept : ¬ Change.clearDirty.Unsets name := by simp [Change.Unsets]
    rw [or_iff_right loads, and_iff_right kept]
    exact Iff.rfl
  | mergeLists other =>
    have loads : (Change.mergeLists other).Loads name
        ↔ ∃ items, (name, .list items) ∈ other.fields := by
      simp [Change.Loads, Change.Sets]
    have kept : ¬ (Change.mergeLists other).Unsets name := by simp [Change.Unsets]
    rw [loads, and_iff_right kept, or_comm]
    exact mem_keys_mergeLists

/-- A field is dirty after a change that sets it, or if it was and is not made clean. -/
theorem isDirty_apply {e : Entry} (tidy : e.Tidy) {c : Change} {name : String} :
    (c.apply e).isDirty name = true
      ↔ c.Sets name ∨ ¬ c.Cleans name ∧ e.isDirty name = true := by
  rw [isDirty_iff, isDirty_iff]
  cases c with
  | set n v =>
    have sets : (Change.set n v).Sets name ↔ n = name := by simp [Change.Sets]
    have kept : ¬ (Change.set n v).Cleans name := by simp [Change.Cleans, Change.Unsets]
    rw [sets, and_iff_right kept]
    exact mem_dirty_set
  | unset n =>
    have sets : ¬ (Change.unset n).Sets name := by simp [Change.Sets]
    have ends : (Change.unset n).Cleans name ↔ name = n := by
      simp [Change.Cleans, Change.Unsets, eq_comm]
    rw [or_iff_right sets, ends]
    exact List.Nodup.mem_erase_iff tidy.marks
  | clearDirty =>
    have sets : ¬ Change.clearDirty.Sets name := by simp [Change.Sets]
    have ends : Change.clearDirty.Cleans name := .inl rfl
    rw [or_iff_right sets]
    exact iff_of_false List.not_mem_nil fun both => both.1 ends
  | mergeLists other =>
    have sets : ¬ (Change.mergeLists other).Sets name := by simp [Change.Sets]
    have kept : ¬ (Change.mergeLists other).Cleans name := by simp [Change.Cleans, Change.Unsets]
    rw [or_iff_right sets, and_iff_right kept]
    exact Iff.rfl

/-- A field keeps its value, as long as it is neither set nor taken out; a list may grow. -/
theorem get?_apply_grows {e : Entry} (tidy : e.Tidy) {c : Change} {name : String} {v : Value}
    (set : ¬ c.Sets name) (kept : ¬ c.Unsets name) (held : e.get? name = some v) :
    ∃ w, (c.apply e).get? name = some w ∧ v.Grows w := by
  cases c with
  | set n value =>
    have other : n ≠ name := fun same => set ⟨value, same ▸ rfl⟩
    refine ⟨v, ?_, .same v⟩
    show Assoc.get? name (Assoc.insert n value e.fields) = some v
    rwa [Assoc.get?_insert, if_neg other]
  | unset n =>
    have other : n ≠ name := fun same => kept (same ▸ rfl)
    refine ⟨v, ?_, .same v⟩
    show Assoc.get? name (Assoc.erase n e.fields) = some v
    rwa [Assoc.get?_erase tidy.names, if_neg other]
  | clearDirty => exact ⟨v, held, .same v⟩
  | mergeLists other =>
    refine mergeLists_induction
      (P := fun fields => ∃ w, Assoc.get? name fields = some w ∧ v.Grows w)
      ⟨v, held, .same v⟩ ?_ other
    rintro fields n new ⟨w, there, grows⟩
    rw [get?_mergeField]
    split
    · obtain ⟨w', merged, more⟩ := foldl_mergeValue_grows w [some new]
      rw [there]
      exact ⟨w', merged, grows.trans more⟩
    · exact ⟨w, there, grows⟩

/-! ### Whole histories -/

section Histories

variable {model : String} {fields : List (String × Value)} {history : List Change}

theorem tidy_after (model : String) (fields : List (String × Value)) (history : List Change) :
    ((load model fields).after history).Tidy := by
  induction history using List.reverseRecOn with
  | nil => exact tidy_load model fields
  | append_singleton history c ih =>
    rw [after_concat]
    exact ih.apply c

theorem isDirty_after {name : String} :
    ((load model fields).after history).isDirty name = true ↔ MarkedSince name history := by
  induction history using List.reverseRecOn with
  | nil => exact iff_of_false Bool.false_ne_true not_since_nil
  | append_singleton history c ih =>
    rw [after_concat, isDirty_apply (tidy_after ..), ih, MarkedSince, since_concat]

theorem isLoaded_after {name : String} :
    ((load model fields).after history).isLoaded name = true
      ↔ Since (·.Loads name) (·.Unsets name) history
        ∨ name ∈ Assoc.keys fields ∧ ∀ c ∈ history, ¬ c.Unsets name := by
  induction history using List.reverseRecOn with
  | nil =>
    rw [or_iff_right not_since_nil, and_iff_left (List.forall_mem_nil _), isLoaded_iff]
    exact Assoc.mem_keys_ofList
  | append_singleton history c ih =>
    rw [after_concat, isLoaded_apply (tidy_after ..), ih, since_concat, List.forall_mem_append,
      List.forall_mem_singleton]
    tauto

/-- The dirty fields stand in the order in which they became dirty. -/
theorem ordered_after (model : String) (fields : List (String × Value)) (history : List Change) :
    ((load model fields).after history).dirty.Pairwise fun a b =>
      ∃ i j, MarkedAt a history i ∧ MarkedAt b history j ∧ i < j := by
  induction history using List.reverseRecOn with
  | nil => exact .nil
  | append_singleton history c ih =>
    -- fields that are not made clean keep the order that they have
    have kept : ∀ marked : List String, marked.Sublist ((load model fields).after history).dirty →
        (∀ name ∈ marked, ¬ c.Cleans name) → marked.Pairwise fun a b =>
          ∃ i j, MarkedAt a (history ++ [c]) i ∧ MarkedAt b (history ++ [c]) j ∧ i < j := by
      intro marked sub goesOn
      refine (ih.sublist sub).imp_of_mem ?_
      rintro a b memA memB ⟨i, j, first, second, before⟩
      exact ⟨i, j, first.concat (goesOn a memA), second.concat (goesOn b memB), before⟩
    rw [after_concat]
    cases c with
    | set n v =>
      have goesOn : ∀ name, ¬ (Change.set n v).Cleans name := by
        simp [Change.Cleans, Change.Unsets]
      have others := kept _ (.refl _) fun name _ => goesOn name
      show ((load model fields).after history |>.set n v).dirty.Pairwise _
      rw [dirty_set]
      split
      · exact others
      · rename_i new
        refine List.pairwise_append.2 ⟨others, List.pairwise_singleton .., fun a mem b last => ?_⟩
        obtain rfl := List.mem_singleton.1 last
        have clean : ¬ MarkedSince b history := mt (isDirty_iff.1 ∘ isDirty_after.2) new
        obtain ⟨i, before, marked⟩ := exists_markedAt (isDirty_after.1 (isDirty_iff.2 mem))
        exact ⟨i, _, marked.concat (goesOn a), markedAt_length clean v, before⟩
    | unset n =>
      refine kept _ List.erase_sublist fun name mem cleans => ?_
      obtain ⟨other, -⟩ := (List.Nodup.mem_erase_iff (tidy_after model fields history).marks).1 mem
      rcases cleans with all | own
      · cases all
      · cases own
        exact other rfl
    | clearDirty => exact .nil
    | mergeLists other =>
      exact kept _ (.refl _) fun name _ => by simp [Change.Cleans, Change.Unsets]

/-- A field has the value that was set last, which has grown if lists were merged into it. -/
theorem get?_after_grows {name : String} {v : Value} {before later : List Change}
    (split : history = before ++ .set name v :: later)
    (kept : ∀ c ∈ later, ¬ c.Sets name ∧ ¬ c.Unsets name) :
    ∃ w, ((load model fields).after history).get? name = some w ∧ v.Grows w := by
  subst split
  induction later using List.reverseRecOn with
  | nil =>
    rw [after_concat]
    refine ⟨v, ?_, .same v⟩
    show Assoc.get? name (Assoc.insert name v _) = some v
    rw [Assoc.get?_insert, if_pos rfl]
  | append_singleton later c ih =>
    obtain ⟨w, held, grows⟩ := ih fun d mem => kept d (List.mem_append_left _ mem)
    obtain ⟨set, taken⟩ := kept c (List.mem_append_right _ (List.mem_singleton_self c))
    rw [← List.cons_append, ← List.append_assoc, after_concat]
    obtain ⟨w', after, more⟩ := get?_apply_grows (tidy_after ..) set taken held
    exact ⟨w', after, grows.trans more⟩

end Histories

/-- The entry is what the history makes of one in which these fields were loaded. -/
structure Tracks (loaded : List String) (history : List Change) (e : Entry) : Prop where
  /-- The dirty fields, with the values they have. -/
  dirty : ∀ name v, (name, v) ∈ e.dirtyFields ↔ MarkedSince name history ∧ e.get? name = some v
  isDirty : ∀ name, e.isDirty name = true ↔ MarkedSince name history
  once : (e.dirtyFields.map Prod.fst).Nodup
  ordered : (e.dirtyFields.map Prod.fst).Pairwise fun a b =>
    ∃ i j, MarkedAt a history i ∧ MarkedAt b history j ∧ i < j
  /-- No dirty field is left out for want of a value. -/
  complete : e.dirtyFields.map Prod.fst = e.dirty
  loadedIfDirty : ∀ name, e.isDirty name = true → e.isLoaded name = true
  isLoaded : ∀ name, e.isLoaded name = true ↔
    Since (·.Loads name) (·.Unsets name) history
      ∨ name ∈ loaded ∧ ∀ c ∈ history, ¬ c.Unsets name
  /-- The value of a field is the one that was set last, or a list to which lists were merged. -/
  value : ∀ before name v later, history = before ++ .set name v :: later →
    (∀ c ∈ later, ¬ c.Sets name ∧ ¬ c.Unsets name) → ∃ w, e.get? name = some w ∧ v.Grows w
  merged : ∀ other, e.MergeKeeps (e.mergeLists other)

theorem Tidy.names_dirtyFields {e : Entry} (tidy : e.Tidy) :
    e.dirtyFields.map Prod.fst = e.dirty := by
  have found : ∀ names : List String, (∀ name ∈ names, name ∈ Assoc.keys e.fields) →
      (names.filterMap fun name => (e.get? name).map fun v => (name, v)).map Prod.fst = names := by
    intro names loaded
    induction names with
    | nil => rfl
    | cons name rest ih =>
      obtain ⟨first, loaded⟩ := List.forall_mem_cons.1 loaded
      have held : e.get? name ≠ none := mt Assoc.get?_eq_none_iff.1 (not_not.2 first)
      obtain ⟨v, there⟩ := Option.ne_none_iff_exists'.1 held
      rw [List.filterMap_cons, there, Option.map_some, List.map_cons, ih loaded]
  exact found e.dirty tidy.loaded

theorem tracks_load (model : String) (fields : List (String × Value)) (history : List Change) :
    ((load model fields).after history).Tracks (Assoc.keys fields) history := by
  have tidy := tidy_after model fields history
  have names := tidy.names_dirtyFields
  refine ⟨fun name v => ?_, fun name => isDirty_after, ?_, ?_, names, fun name dirty => ?_,
    fun name => isLoaded_after, fun _ _ _ _ split kept => get?_after_grows split kept,
    mergeKeeps _⟩
  · have marked : ((load model fields).after history).isDirty name = true
        ↔ MarkedSince name history := isDirty_after
    rw [← marked, isDirty_iff, dirtyFields, List.mem_filterMap]
    constructor
    · rintro ⟨n, mem, found⟩
      obtain ⟨w, held, same⟩ := Option.map_eq_some_iff.1 found
      cases same
      exact ⟨mem, held⟩
    · rintro ⟨mem, held⟩
      exact ⟨name, mem, by rw [held]; rfl⟩
  · rw [names]
    exact tidy.marks
  · rw [names]
    exact ordered_after model fields history
  · exact isLoaded_iff.2 (tidy.loaded name (isDirty_iff.1 dirty))

/-- **An entry tracks its history**, whether it began with no fields or with some that were loaded.
Its dirty fields are those that were set and not made clean since, each once, in the order in which
they became dirty and with the values they have; none of them lacks a value. Its loaded fields are
those that were loaded at first, set, or merged in as lists, and not taken out since. A merge changes
nothing but lists. -/
theorem tracks_history (model : String) (fields : List (String × Value)) (history : List Change) :
    ((new model).after history).Tracks [] history
      ∧ ((load model fields).after history).Tracks (Assoc.keys fields) history :=
  ⟨tracks_load model [] history, tracks_load model fields history⟩

/-- A field that is set again keeps its place, and one that is taken out in between loses it. -/
example :
    ((new "Book").after [.set "title" .null, .set "year" (.int 1969), .set "title" (.string "A"),
      .unset "year", .set "pages" (.int 7), .set "year" (.int 1970)]).dirtyFields.map Prod.fst
      = ["title", "pages", "year"] := by decide

end Entry

end RecordMapper
