import RecordMapper.Proofs.Database.Checking
import RecordMapper.Proofs.Materialize.RoundTrip
import RecordMapper.Proofs.Query.Places

/-!
The relations that a statement refers to.

A statement mentions a table where a field reference at one of its places has it
(`Select.MentionsAt`). `Select.relationAliases` collects tables by a visit that knows no places. **It
lists the tables that are mentioned, each once, in the order in which they are first mentioned**
(`Select.listsTables`), so that a statement that was compiled mentions no table but that of the model
itself and of relations whose targets are registered (`Database.relations_resolved`).
-/

namespace RecordMapper

/-! ### First occurrences -/

/-- The first occurrence of `a` is before all occurrences of `b`. -/
def FirstBefore {α : Type} (l : List α) (a b : α) : Prop :=
  ∃ front back, l = front ++ a :: back ∧ a ∉ front ∧ b ∉ front

section Unseen

variable {α : Type} [BEq α] [LawfulBEq α]

/-- What is collected without repetition stands in the order of first occurrence. -/
theorem collected_unseen (l : List α) :
    (l.foldl (fun seen a => if seen.contains a then seen else seen ++ [a]) []).Nodup ∧
      (l.foldl (fun seen a => if seen.contains a then seen else seen ++ [a]) []).Pairwise
        (FirstBefore l) := by
  induction l using List.reverseRecOn with
  | nil => exact ⟨List.nodup_nil, .nil⟩
  | append_singleton l last ih =>
    obtain ⟨nodup, ordered⟩ := ih
    have members := fun a : α => @mem_foldl_unseen α _ _ a l []
    rw [List.foldl_concat]
    generalize l.foldl _ [] = seen at nodup ordered members ⊢
    have later : seen.Pairwise (FirstBefore (l ++ [last])) := by
      refine ordered.imp ?_
      rintro a b ⟨front, back, rfl, first, other⟩
      exact ⟨front, back ++ [last], by simp, first, other⟩
    split
    · exact ⟨nodup, later⟩
    · rename_i unknown
      have unknown : last ∉ seen := fun mem => unknown (List.contains_iff_mem.2 mem)
      have new : last ∉ l := fun mem => unknown ((members last).2 (.inr mem))
      refine ⟨List.concat_eq_append ▸ nodup.concat unknown,
        List.pairwise_append.2 ⟨later, List.pairwise_singleton .., fun a mem b same => ?_⟩⟩
      obtain rfl := List.mem_singleton.1 same
      have there : a ∈ l := ((members a).1 mem).resolve_left List.not_mem_nil
      obtain ⟨front, back, rfl, first⟩ := List.eq_append_cons_of_mem there
      exact ⟨front, back ++ [b], by simp, first, fun mem => new (List.mem_append_left _ mem)⟩

end Unseen

/-! ### Tables of a statement -/

namespace Select

/-- A field reference at this place has the table. -/
def MentionsAt (s : Select) (table : String) (place : List Nat) : Prop :=
  ∃ ref, s.fieldAt? place = some ref ∧ ref.table = some table

/-- These are the tables that the statement mentions, in the order of the places where each of them
is mentioned first. -/
structure ListsTables (s : Select) (tables : List String) : Prop where
  complete : ∀ table, table ∈ tables ↔ ∃ place, s.MentionsAt table place
  distinct : tables.Nodup
  ordered : tables.Pairwise fun a b =>
    ∃ place, s.MentionsAt a place ∧ (∀ other, s.MentionsAt a other → other = place ∨ place < other)
      ∧ ∀ other, s.MentionsAt b other → place < other

/-- The tables with their places, from left to right. -/
theorem exists_mentions (s : Select) :
    ∃ mentions : List (List Nat × String),
      mentions.map Prod.snd = s.references.filterMap FieldRef.table ∧
        mentions.Pairwise (fun one other => one.1 < other.1) ∧
        ∀ place table, (place, table) ∈ mentions ↔ s.MentionsAt table place := by
  obtain ⟨found, visited, ordered, places⟩ := s.exists_enumeration
  refine ⟨found.filterMap fun f => f.2.table.map fun table => (f.1, table), ?_, ?_, ?_⟩
  · rw [← visited, List.map_filterMap, List.filterMap_map]
    simp [Function.comp_def]
  · refine List.pairwise_filterMap.2 (ordered.imp ?_)
    rintro f g before one first other second
    obtain ⟨a, -, rfl⟩ := Option.map_eq_some_iff.1 first
    obtain ⟨b, -, rfl⟩ := Option.map_eq_some_iff.1 second
    exact before
  · intro place table
    rw [List.mem_filterMap]
    constructor
    · rintro ⟨⟨p, ref⟩, mem, same⟩
      obtain ⟨t, held, same⟩ := Option.map_eq_some_iff.1 same
      cases same
      exact ⟨ref, (places p ref).1 mem, held⟩
    · rintro ⟨ref, there, held⟩
      exact ⟨(place, ref), (places place ref).2 there, by rw [held]; rfl⟩

/-- **The relations of a statement are the tables that it mentions**, each once, in the order of
their first mentions. -/
theorem listsTables (s : Select) : s.ListsTables s.relationAliases := by
  obtain ⟨mentions, visited, ordered, places⟩ := s.exists_mentions
  obtain ⟨distinct, collected⟩ := collected_unseen (s.references.filterMap FieldRef.table)
  refine ⟨fun table => ?_, distinct, (collected.and distinct).imp ?_⟩
  · rw [relationAliases, mem_foldl_unseen, or_iff_right List.not_mem_nil, ← visited, List.mem_map]
    constructor
    · rintro ⟨⟨place, _⟩, mem, rfl⟩
      exact ⟨place, (places _ _).1 mem⟩
    · rintro ⟨place, there⟩
      exact ⟨(place, table), (places _ _).2 there, rfl⟩
  · rintro _ b ⟨⟨front, back, split, first, other⟩, different⟩
    rw [← visited] at split
    obtain ⟨before, behind, rfl, rfl, same⟩ := List.map_eq_append_iff.1 split
    obtain ⟨⟨place, a⟩, rest, rfl, rfl, rfl⟩ := List.map_eq_cons_iff.1 same
    obtain ⟨later, -⟩ := List.pairwise_cons.1 (List.pairwise_append.1 ordered).2.1
    -- what is mentioned, but not before this place, is mentioned here or later
    have notBefore : ∀ table, table ∉ before.map Prod.snd → ∀ p, s.MentionsAt table p →
        (p = place ∧ table = a) ∨ place < p := by
      intro table absent p there
      rcases List.mem_append.1 ((places p table).2 there) with mem | mem
      · exact absurd (List.mem_map_of_mem mem) absent
      · rcases List.mem_cons.1 mem with here | mem
        · cases here
          exact .inl ⟨rfl, rfl⟩
        · exact .inr (later _ mem)
    refine ⟨place, (places _ _).1 (by simp), fun p there => ?_, fun p there => ?_⟩
    · exact (notBefore a first p there).imp_left And.left
    · exact (notBefore b other p there).resolve_left fun here => different here.2.symm

end Select

/-! ### Compiled statements -/

namespace Database

variable {σ : Type} {db : Database σ} {q : Query} {select : Select}

/-- Every table that the statement of a query mentions is the model itself, or a relation of it with
a registered target. -/
def Resolves (db : Database σ) (q : Query) (select : Select) : Prop :=
  ∃ m, db.schema.model q.model = .ok m ∧ ∀ table place, select.MentionsAt table place →
    table = db.config.selfAlias ∨ ∃ f name target, m.field? table = some f ∧
      f.type.target? = some name ∧ db.schema.model name = .ok target

theorem resolves_of_compile (compiled : db.compile q = .ok select) : db.Resolves q select := by
  obtain ⟨-, m, registered, related⟩ := compile_eq_ok_iff.1 compiled
  refine ⟨m, registered, fun table place there => ?_⟩
  refine (related table ((select.listsTables.complete table).2 ⟨place, there⟩)).imp_right ?_
  rintro ⟨target, resolved⟩
  obtain ⟨f, name, found, points, registered⟩ := Schema.relationTarget_eq_ok_iff.1 resolved
  exact ⟨f, name, target, found, points, registered⟩

/-- **The relations of a statement are the tables that it mentions**: a table is listed if and only
if a field reference has it, at any depth of the select list, the filter and the ordering; none is
listed twice; and they stand in the order of their first mentions from left to right. So every table
in a compiled statement is the model itself, or a relation of it with a registered target. -/
theorem relations_resolved :
    (∀ s : Select, s.ListsTables s.relationAliases) ∧
      ∀ {σ : Type} {db : Database σ} {q : Query} {select : Select},
        db.compile q = .ok select → db.Resolves q select :=
  ⟨Select.listsTables, resolves_of_compile⟩

open Library

/-- Books by their authors: tags are mentioned in a call, authors in the condition of a case
distinction, and the model itself in the ordering. -/
def byAuthors : Query :=
  { model := "Book",
    fields := some "max(\x7btags.id\x7d, 1), CASE WHEN (\x7bauthor.id\x7d = 1) THEN 2 END",
    orderBy := [("\x7bself.id\x7d + \x7bauthor.id\x7d", .desc)] }

theorem relations_resolved_byAuthors :
    (shelves.compile byAuthors).toOption.map Select.relationAliases
        = some ["tags", "author", "self"] ∧
      ∃ select, shelves.compile byAuthors = .ok select ∧ shelves.Resolves byAuthors select := by
  have listed : (shelves.compile byAuthors).toOption.map Select.relationAliases
      = some ["tags", "author", "self"] := by decide +kernel
  cases compiled : shelves.compile byAuthors with
  | error e =>
    rw [compiled] at listed
    cases listed
  | ok select =>
    rw [compiled] at listed
    exact ⟨listed, select, rfl, relations_resolved.2 compiled⟩

end Database

end RecordMapper
