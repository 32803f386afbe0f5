import RecordMapper.Proofs.Materialize.Children
import RecordMapper.Proofs.Materialize.Nesting

/-!
What a verified schema still lacks for the rows of a result.

A schema is checked once, relation by relation; materialization follows chains of aliases that the
rows choose, back and forth between models. `Schema.Closed` is what the check gives for all of them:
a relation of a registered model points at a registered model (`Schema.closed_of_verify`). So each
model that a chain reaches is registered, and the only look-ups that can fail are those of the
aliases: `Row.Lacks` tells which ones a row asks for in vain, and `Materializer.blames_aliases` that
no other look-up is ever told as an error.
-/

namespace RecordMapper

variable {schema : Schema} {config : Config} {m : Model}

/-! ### Aliases at every depth -/

/-- The name of a column of a model holds an alias of a field of `owner`, the model that the aliases
in front of it lead to. -/
inductive Column.Nests (schema : Schema) (config : Config) :
    Model → (column : String) → (owner : Model) → (a : String) → Prop
  | front {m : Model} {column a rest : String} (joined : Column.slot config column = .joined a rest) :
    Nests schema config m column m a
  | behind {m : Model} {column b rest : String} {target owner : Model} {a : String}
    (joined : Column.slot config column = .joined b rest)
    (resolved : schema.relationTarget m b = .ok target)
    (nests : Nests schema config target rest owner a) :
    Nests schema config m column owner a

/-- What is not there for an alias of the row: a field of this name, or one that is a relation. -/
inductive Row.Lacks (schema : Schema) (config : Config) (m : Model) (row : Row) : SchemaMiss → Prop
  | field {column : String × Value} {owner : Model} {a : String} (mem : column ∈ row)
    (nests : Column.Nests schema config m column.1 owner a) (absent : owner.field? a = none) :
    Lacks schema config m row (.field owner.name a)
  | relation {column : String × Value} {owner : Model} {a : String} {f : Field} (mem : column ∈ row)
    (nests : Column.Nests schema config m column.1 owner a) (found : owner.field? a = some f)
    (plain : f.type.isRelation = false) :
    Lacks schema config m row (.relation owner.name a)

/-- No model is missing, and each look-up in the schema that failed is one of an alias of the row. -/
structure Error.BlamesAliases (schema : Schema) (config : Config) (m : Model) (row : Row)
    (e : Error) : Prop where
  no_model : ∀ name, .schemaLookup (.model name) ∉ e.chain
  lacks : ∀ miss, .schemaLookup miss ∈ e.chain → row.Lacks schema config m miss

/-- A row lacks fields and relations, but no model. -/
theorem Error.blamesAliases_of_lacks {row : Row} {e : Error}
    (lacks : ∀ miss, .schemaLookup miss ∈ e.chain → row.Lacks schema config m miss) :
    e.BlamesAliases schema config m row := by
  refine ⟨fun name mem => ?_, lacks⟩
  cases lacks _ mem

/-- What the columns of a relation lack, the row lacks. -/
theorem Row.Lacks.of_group {row group : Row} {a : String} {target : Model} {miss : SchemaMiss}
    (grouped : (a, group) ∈ groups config row) (resolved : schema.relationTarget m a = .ok target)
    (lacks : group.Lacks schema config target miss) : row.Lacks schema config m miss := by
  cases lacks with
  | field mem nests absent =>
    obtain ⟨name, there, joined⟩ := exists_column_of_groups grouped mem
    exact .field there (.behind joined resolved nests) absent
  | relation mem nests found plain =>
    obtain ⟨name, there, joined⟩ := exists_column_of_groups grouped mem
    exact .relation there (.behind joined resolved nests) found plain

/-! ### Closed schemas -/

/-- Every relation of a registered model points at a registered model. -/
def Schema.Closed (schema : Schema) : Prop :=
  ∀ name m, schema.model name = .ok m → ∀ a f t, m.field? a = some f → f.type.target? = some t →
    ∃ target, schema.model t = .ok target

/-- The check of a schema looks at the relations of every registered model. A field that stands
behind another one of its name is looked up as that one, as it is later for an alias. -/
theorem Schema.closed_of_verify (verified : schema.verify = .ok ()) : schema.Closed := by
  intro name m registered a f t found points
  have stored : (name, m) ∈ schema.models := by
    unfold model at registered
    split at registered
    · rename_i there
      cases registered
      exact Assoc.mem_of_get? there
    · cases registered
  have checked : schema.verifyModel m = .ok () := Result.forM_eq_ok_iff.1 verified _ stored
  obtain ⟨-, -, checked⟩ := Result.exists_of_bind checked
  have relation := Result.forM_eq_ok_iff.1 checked f (List.mem_of_find?_eq_some found)
  have named : f.name = a := by simpa using List.find?_some found
  rw [points, named] at relation
  cases resolved : schema.relationTarget m a with
  | error e =>
    simp only [resolved] at relation
    cases relation
  | ok target =>
    obtain ⟨f', t', found', points', there⟩ := relationTarget_eq_ok_iff.1 resolved
    cases found.symm.trans found'
    cases points.symm.trans points'
    exact ⟨target, there⟩

/-- In a closed schema a relation that does not resolve is not a field, or not a relation. -/
theorem Schema.Closed.cases_of_relationTarget (closed : schema.Closed) {name : String}
    (registered : schema.model name = .ok m) {a : String} {e : Error}
    (failed : schema.relationTarget m a = .error e) :
    (m.field? a = none ∧ e = (Cause.schemaLookup (.field m.name a) : Error)) ∨
      ∃ f, m.field? a = some f ∧ f.type.isRelation = false ∧
        e = (Cause.schemaLookup (.relation m.name a) : Error) := by
  unfold relationTarget Model.relationTarget Model.field at failed
  cases found : m.field? a with
  | none =>
    rw [found] at failed
    cases failed
    exact .inl ⟨rfl, rfl⟩
  | some f =>
    rw [found] at failed
    cases points : f.type.target? with
    | none =>
      simp only [points, bind, Except.bind] at failed
      cases failed
      exact .inr ⟨f, rfl, by rw [FieldType.isRelation, points]; rfl, rfl⟩
    | some t =>
      obtain ⟨target, there⟩ := closed name m registered a f t found points
      simp only [points, there, bind, Except.bind] at failed
      cases failed

/-! ### Failures -/

/-- A column that cannot be decoded is told as such and as nothing else. -/
theorem Blob.chain_of_decodeColumn {raw : Value} {e : Error} (failed : decodeColumn raw = .error e) :
    ∃ fault, e.chain = [.deserialization fault] := by
  unfold decodeColumn at failed
  split at failed
  · cases failed
  · split at failed
    · unfold decode at failed
      dsimp only at failed
      split at failed
      · cases failed
      · cases failed
        exact ⟨_, rfl⟩
    · cases failed
    · cases failed
    · cases failed
      exact ⟨_, rfl⟩

namespace Materialize

/-- Decoding looks nothing up that could be missing. -/
theorem no_schemaLookup_of_decodeFields {fields : Row} {e : Error}
    (failed : decodeFields m fields = .error e) (miss : SchemaMiss) :
    .schemaLookup miss ∉ e.chain := by
  obtain ⟨⟨name, raw⟩, -, failed⟩ := Result.exists_of_mapM_error failed
  dsimp only at failed
  split at failed
  · obtain ⟨e', column, rfl⟩ := Result.exists_of_within (Result.map_eq_error_iff.1 failed)
    obtain ⟨fault, chain⟩ := Blob.chain_of_decodeColumn column
    have whole : (e'.addContext (.adhoc ("decoding `" ++ m.name ++ "::" ++ name ++ "`"))).chain =
        .adhoc ("decoding `" ++ m.name ++ "::" ++ name ++ "`") :: e'.chain := rfl
    rw [whole, chain]
    simp
  · cases failed

/-- Relations that cannot be put to the fields have one among them that fails. -/
theorem exists_relation_of_addRelations {nested : Model → Row → Result Entry}
    {groups : List (String × Row)} {fields : Row} {e : Error}
    (failed : addRelations schema nested m fields groups = .error e) :
    ∃ a group, (a, group) ∈ groups ∧ relation schema nested m a group = .error e := by
  induction groups generalizing fields with
  | nil => cases failed
  | cons first rest ih =>
    obtain ⟨a, group⟩ := first
    cases made : relation schema nested m a group with
    | error e' =>
      rw [addRelations, List.foldlM_cons] at failed
      simp only [made] at failed
      cases failed
      exact ⟨a, group, .head _, made⟩
    | ok v =>
      rw [addRelations_cons made] at failed
      obtain ⟨b, other, mem, failed⟩ := ih failed
      exact ⟨b, other, .tail _ mem, failed⟩

/-- A relation fails if it does not resolve, or if no entry can be made of its columns. -/
theorem cases_of_relation_error {nested : Model → Row → Result Entry} {a : String} {group : Row}
    {e : Error} (failed : relation schema nested m a group = .error e) :
    schema.relationTarget m a = .error e ∨
      ∃ target, schema.relationTarget m a = .ok target ∧ nested target group = .error e := by
  cases resolved : schema.relationTarget m a with
  | error e' =>
    rw [relation, resolved] at failed
    exact .inl (by cases failed; rfl)
  | ok target =>
    obtain ⟨f, -, found, -, -⟩ := Schema.relationTarget_eq_ok_iff.1 resolved
    rw [relation_eq resolved found] at failed
    split at failed
    · exact .inr ⟨target, rfl, Result.map_eq_error_iff.1 failed⟩
    · cases failed

/-- **Each look-up that fails on the way is one of an alias.** The depth suffices for the aliases of
the row, and the model is registered, as are those that its relations lead to. -/
theorem lacks_of_entryWithin (separated : config.aliasSeparator ≠ "") (closed : schema.Closed)
    {depth : Nat} {row : Row} (short : row.longestName < depth) {name : String}
    (registered : schema.model name = .ok m) {e : Error}
    (failed : entryWithin schema config depth m row = .error e) {miss : SchemaMiss}
    (told : .schemaLookup miss ∈ e.chain) : row.Lacks schema config m miss := by
  induction depth generalizing m row name with
  | zero => cases short
  | succ depth ih =>
    rw [entryWithin, Result.bind_eq_error_iff] at failed
    rcases failed with decoding | ⟨own, -, failed⟩
    · exact absurd told (no_schemaLookup_of_decodeFields decoding miss)
    rcases Result.bind_eq_error_iff.1 failed with adding | ⟨_, -, none⟩
    swap
    · cases none
    obtain ⟨a, group, grouped, failed⟩ := exists_relation_of_addRelations adding
    obtain ⟨used, rfl⟩ := Row.eq_under_of_mem_groups grouped
    rcases cases_of_relation_error failed with unresolved | ⟨target, resolved, inner⟩
    · obtain ⟨column, mem, rest, joined⟩ := used
      rcases closed.cases_of_relationTarget registered unresolved with
        ⟨absent, rfl⟩ | ⟨f, found, plain, rfl⟩
      · cases List.mem_singleton.1 told
        exact .field mem (.front joined) absent
      · cases List.mem_singleton.1 told
        exact .relation mem (.front joined) found plain
    · obtain ⟨-, t, -, -, there⟩ := Schema.relationTarget_eq_ok_iff.1 resolved
      have shorter := Row.longestName_under_lt separated used
      exact .of_group grouped resolved (ih (by omega) there inner)

end Materialize

namespace Materializer

/-- Rows that cannot be made into entries have one among them that fails. -/
theorem exists_row_of_addRows {p : Materializer} {count : Nat} {entries : Entries}
    {rows : List Row} {e : Error} (failed : p.addRows count entries rows = .error e) :
    ∃ row ∈ rows, ∃ e' message, p.entry row = .error e' ∧ e = e'.addContext (.adhoc message) := by
  induction rows generalizing count entries with
  | nil => cases failed
  | cons row rest ih =>
    rw [addRows, Result.bind_eq_error_iff] at failed
    rcases failed with first | ⟨_, -, failed⟩
    · obtain ⟨e', made, rfl⟩ := Result.exists_of_within first
      exact ⟨row, .head _, e', _, made, rfl⟩
    · obtain ⟨other, mem, later⟩ := ih failed
      exact ⟨other, .tail _ mem, later⟩

/-- **A verified schema leaves no dangling relation.** Whatever the rows are, and however their
aliases nest, a failure to make entries of a registered model never tells that a model is missing;
what the schema is told to lack is a field for an alias of the rows, or a relation of its name. -/
theorem blames_aliases (p : Materializer) (verified : p.schema.verify = .ok ()) {name : String}
    (registered : p.schema.model name = .ok p.model) (valid : p.config.validate = .ok ()) :
    (∀ row e, p.entry row = .error e → e.BlamesAliases p.schema p.config p.model row) ∧
      ∀ rows e, p.entries rows = .error e →
        ∃ row ∈ rows, e.BlamesAliases p.schema p.config p.model row := by
  have separated : p.config.aliasSeparator ≠ "" := fun empty =>
    Config.separator_ne_nil valid (String.toList_eq_nil_iff.2 empty)
  have one : ∀ row e, p.entry row = .error e → ∀ miss, .schemaLookup miss ∈ e.chain →
      row.Lacks p.schema p.config p.model miss := by
    intro row e failed miss told
    exact Materialize.lacks_of_entryWithin separated (Schema.closed_of_verify verified)
      (Nat.lt_succ_self _) registered failed told
  refine ⟨fun row e failed => Error.blamesAliases_of_lacks (one row e failed), ?_⟩
  intro rows e failed
  obtain ⟨row, mem, e', message, made, rfl⟩ := exists_row_of_addRows failed
  refine ⟨row, mem, Error.blamesAliases_of_lacks fun miss told => one row e' made miss ?_⟩
  rcases List.mem_cons.1 told with first | later
  · cases first
  · exact later

/-- The author of a book has no shelf: the look-up fails three aliases deep, in a schema whose
relations lead back to books. -/
theorem blames_aliases_shelf :
    Library.catalog.verify = .ok () ∧ Library.catalog.model "Author" = .ok Library.author ∧
      ∃ e, Library.authors.entry [("id", .int 1), ("books:id", .int 5), ("books:author:id", .int 7),
          ("books:author:shelf:id", .int 3)] = .error e ∧
        .schemaLookup (.field "Author" "shelf") ∈ e.chain ∧
        e.BlamesAliases Library.catalog {} Library.author
          [("id", .int 1), ("books:id", .int 5), ("books:author:id", .int 7),
            ("books:author:shelf:id", .int 3)] := by
  have registered : Library.authors.schema.model "Author" = .ok Library.authors.model := rfl
  refine ⟨rfl, registered, (Cause.schemaLookup (.field "Author" "shelf") : Error), rfl, .head _, ?_⟩
  exact (blames_aliases Library.authors rfl registered rfl).1 _ _ rfl

end Materializer

end RecordMapper
