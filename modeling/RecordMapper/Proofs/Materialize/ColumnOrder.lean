import RecordMapper.Proofs.Materialize.Lookups
import RecordMapper.Proofs.Materialize.Shape

/-!
Rows with their columns in another order.

Which columns are put together is told by `Column.slot`, so that in a row of which no two columns go
to one place (`Row.Apart`) nothing takes the place of anything else, and the fields of the entry
itself and the columns under each alias are the same in every order (`Row.ownFields_perm`,
`Row.under_perm`). `Row.Unambiguous` asks for this behind every chain of aliases. Two orders of such
a row are made into entries with the same fields at every depth, or both fail
(`Materializer.entry_reordered`): which relation fails first may depend on the order, but not
whether one does.
-/

namespace RecordMapper

variable {schema : Schema} {config : Config} {m : Model}

/-! ### Pairs in another order -/

namespace Assoc

variable {κ α : Type} [DecidableEq κ] {pairs others : List (κ × α)}

omit [DecidableEq κ] in
theorem keys_perm (perm : pairs.Perm others) : (keys pairs).Perm (keys others) :=
  perm.map Prod.fst

theorem get?_perm (nodup : (keys pairs).Nodup) (perm : pairs.Perm others) (key : κ) :
    get? key pairs = get? key others := by
  have nodup' : (keys others).Nodup := (keys_perm perm).nodup_iff.1 nodup
  cases found : get? key pairs with
  | some value => exact (get?_of_mem nodup' (perm.subset (mem_of_get? found))).symm
  | none =>
    rw [get?_eq_none_iff, (keys_perm perm).mem_iff, ← get?_eq_none_iff] at found
    exact found.symm

theorem contains_perm (perm : pairs.Perm others) (key : κ) :
    contains key pairs = contains key others := by
  rw [Bool.eq_iff_iff, contains, contains, Option.isSome_iff_ne_none, Option.isSome_iff_ne_none,
    ne_eq, ne_eq, get?_eq_none_iff, get?_eq_none_iff, (keys_perm perm).mem_iff]

end Assoc

/-! ### Columns that go to different places -/

namespace Row

/-- No two columns of the row go to one place. -/
def Apart (config : Config) (row : Row) : Prop :=
  (row.map fun column => Column.slot config column.1).Nodup

instance (config : Config) (row : Row) : Decidable (row.Apart config) :=
  inferInstanceAs
    (Decidable (row.map fun column : String × Value => Column.slot config column.1).Nodup)

/-- The columns behind a chain of aliases, without them. -/
def behind (config : Config) : Row → (chain : List String) → Row
  | row, [] => row
  | row, a :: chain => behind config (under config a row) chain

/-- Behind every chain of aliases, no two columns go to one place. -/
def Unambiguous (config : Config) (row : Row) : Prop :=
  ∀ chain, (behind config row chain).Apart config

variable {row row' : Row}

theorem Unambiguous.apart (unambiguous : row.Unambiguous config) : row.Apart config :=
  unambiguous []

theorem Unambiguous.under (unambiguous : row.Unambiguous config) (a : String) :
    (under config a row).Unambiguous config :=
  fun chain => unambiguous (a :: chain)

theorem unambiguous_nil : Unambiguous config [] := by
  intro chain
  induction chain with
  | nil => exact List.nodup_nil
  | cons a chain ih => exact ih

/-- It is enough to look at the aliases of the row, one level after the other. -/
theorem unambiguous_of_groups (apart : row.Apart config)
    (nested : ∀ group ∈ groups config row, group.2.Unambiguous config) :
    row.Unambiguous config := by
  intro chain
  cases chain with
  | nil => exact apart
  | cons a chain =>
    by_cases used : row.HasAlias config a
    · exact nested _ (Assoc.mem_of_get? (get?_groups_of_hasAlias used)) chain
    · have none : Row.under config a row = [] := by
        rw [Row.under, not_not.1 (mt hasAlias_iff.2 used)]
        rfl
      rw [behind, none]
      exact unambiguous_nil chain

/-- Columns that are taken from different places have different names. -/
theorem Apart.nodup_keys (apart : row.Apart config)
    {take : String × Value → Option (String × Value)} (place : String → Column.Slot)
    (takes : ∀ column field, take column = some field →
      Column.slot config column.1 = place field.1) :
    (Assoc.keys (row.filterMap take)).Nodup := by
  refine List.pairwise_map.2 (List.Pairwise.filterMap take ?_ (List.pairwise_map.1 apart))
  intro column other different field taken field' taken' same
  exact different (by rw [takes _ _ taken, takes _ _ taken', same])

theorem Apart.nodup_own (apart : row.Apart config) :
    (Assoc.keys (row.filterMap (Column.own? config))).Nodup := by
  refine apart.nodup_keys .own fun column field taken => ?_
  unfold Column.own? at taken
  split at taken
  · rename_i slot
    cases taken
    exact slot
  · cases taken

theorem Apart.nodup_under (apart : row.Apart config) (a : String) :
    (Assoc.keys (row.filterMap (Column.under? config a))).Nodup := by
  refine apart.nodup_keys (.joined a) fun column field taken => ?_
  unfold Column.under? at taken
  split at taken
  · rename_i slot
    split at taken
    · rename_i same
      cases taken
      rw [slot, same]
    · cases taken
  · cases taken

theorem ownFields_of_apart (apart : row.Apart config) :
    ownFields config row = row.filterMap (Column.own? config) := by
  rw [ownFields_eq, Assoc.ofList_of_nodup apart.nodup_own]

theorem under_of_apart (apart : row.Apart config) (a : String) :
    under config a row = row.filterMap (Column.under? config a) :=
  Assoc.ofList_of_nodup (apart.nodup_under a)

theorem Apart.perm (apart : row.Apart config) (perm : row.Perm row') : row'.Apart config :=
  (perm.map _).nodup_iff.1 apart

theorem ownFields_perm (apart : row.Apart config) (perm : row.Perm row') :
    (ownFields config row).Perm (ownFields config row') := by
  rw [ownFields_of_apart apart, ownFields_of_apart (apart.perm perm)]
  exact perm.filterMap _

theorem under_perm (apart : row.Apart config) (perm : row.Perm row') (a : String) :
    (under config a row).Perm (under config a row') := by
  rw [under_of_apart apart, under_of_apart (apart.perm perm)]
  exact perm.filterMap _

theorem Unambiguous.perm (unambiguous : row.Unambiguous config) (perm : row.Perm row') :
    row'.Unambiguous config := by
  intro chain
  induction chain generalizing row row' with
  | nil => exact unambiguous.apart.perm perm
  | cons a chain ih => exact ih (unambiguous.under a) (under_perm unambiguous.apart perm a)

theorem hasAlias_perm (perm : row.Perm row') (a : String) :
    row.HasAlias config a ↔ row'.HasAlias config a :=
  exists_congr fun _ => and_congr_left' perm.mem_iff

theorem isJoined_perm (perm : row.Perm row') (target : Model) :
    isJoined target row = isJoined target row' := by
  have any : (row.any fun column => !column.2.isEmpty) = row'.any fun column => !column.2.isEmpty := by
    rw [Bool.eq_iff_iff, List.any_eq_true, List.any_eq_true]
    exact exists_congr fun _ => and_congr_left' perm.mem_iff
  rw [isJoined, isJoined, Assoc.contains_perm perm, any]

theorem longestName_perm (perm : row.Perm row') : longestName row = longestName row' := by
  have le : ∀ {row row' : Row}, row.Perm row' → longestName row ≤ longestName row' := by
    intro row row' perm
    exact Materialize.longestName_le_iff.2 fun column mem =>
      Materialize.longestName_le_iff.1 (Nat.le_refl _) column (perm.subset mem)
  exact Nat.le_antisymm (le perm) (le perm.symm)

end Row

/-! ### Entries of both orders -/

namespace Materialize

/-- Fields that can be decoded can be decoded in every order. -/
theorem exists_decodeFields_of_perm {fields fields' own : Row} (perm : fields.Perm fields')
    (decoded : decodeFields m fields = .ok own) : ∃ own', decodeFields m fields' = .ok own' := by
  cases again : decodeFields m fields' with
  | ok own' => exact ⟨own', rfl⟩
  | error e =>
    obtain ⟨field, mem, failed⟩ := Result.exists_of_mapM_error again
    obtain ⟨loaded, -, read⟩ := Result.exists_of_mapM decoded (perm.symm.subset mem)
    cases failed.symm.trans read

/-- A relation has the same value for two orders of its columns if the same entry is made of
them. -/
theorem exists_relation_of_perm {nested : Model → Row → Result Entry} {a : String}
    {group group' : Row} (perm : group.Perm group')
    (alike : ∀ target e, nested target group = .ok e →
      ∃ e', nested target group' = .ok e' ∧ e'.LoadedAs e) {v : Value}
    (made : relation schema nested m a group = .ok v) :
    ∃ v', relation schema nested m a group' = .ok v' ∧ v'.LoadedAs v := by
  obtain ⟨target, resolved, holds⟩ := cases_of_relation made
  obtain ⟨f, -, found, -, -⟩ := Schema.relationTarget_eq_ok_iff.1 resolved
  have many : m.isMany a = f.type.isMany := by rw [Model.isMany, found]; rfl
  rw [relation_eq resolved found, ← many, ← Row.isJoined_perm perm]
  split at holds
  · rename_i joined
    obtain ⟨e, inner, rfl⟩ := holds
    obtain ⟨e', inner', same⟩ := alike target e inner
    rw [if_pos joined, inner']
    refine ⟨_, rfl, ?_⟩
    split
    · exact .list (.cons same.value .nil)
    · exact same.value
  · rename_i joined
    rw [if_neg joined, holds]
    exact ⟨_, rfl, .same _⟩

/-- A column is loaded as one value. -/
theorem Loads.eq {name : String} {raw v w : Value} (first : Loads m name raw v)
    (second : Loads m name raw w) : v = w := by
  unfold Loads at first second
  split at first
  · rename_i serialized
    rw [if_pos serialized, first] at second
    exact Except.ok.inj second
  · rename_i plain
    rw [if_neg plain] at second
    rw [first, second]

theorem rel_loadedAs_of_loads {name : String} {raw v w : Option Value}
    (first : Option.Rel (Loads m name) raw v) (second : Option.Rel (Loads m name) raw w) :
    Option.Rel Value.LoadedAs w v := by
  cases first with
  | none =>
    cases second
    exact .none
  | some first =>
    cases second with
    | some second => exact first.eq second ▸ .some (.same _)

/-- An entry is made of a row if its fields can be decoded and its relations have values. -/
theorem exists_entryWithin_succ {depth : Nat} {row own : Row}
    (decoded : decodeFields m (Row.ownFields config row) = .ok own)
    (related : ∀ a, row.HasAlias config a → ∃ v,
      relation schema (entryWithin schema config depth) m a (row.under config a) = .ok v) :
    ∃ e, entryWithin schema config (depth + 1) m row = .ok e := by
  cases added : addRelations schema (entryWithin schema config depth) m own
      (Row.groups config row) with
  | ok whole =>
    rw [entryWithin, decoded]
    show ∃ e, (addRelations schema (entryWithin schema config depth) m own
      (Row.groups config row) >>= fun fields => .ok (Entry.load m.name fields)) = .ok e
    rw [added]
    exact ⟨_, rfl⟩
  | error error =>
    obtain ⟨a, group, grouped, failed⟩ := exists_relation_of_addRelations added
    obtain ⟨used, rfl⟩ := Row.eq_under_of_mem_groups grouped
    obtain ⟨v, made⟩ := related a used
    cases failed.symm.trans made

/-- **What can be made of a row can be made of it in every order**, and has the same fields. -/
theorem exists_entryWithin_of_perm {depth : Nat} {row row' : Row}
    (unambiguous : row.Unambiguous config) (perm : row.Perm row') {e : Entry}
    (made : entryWithin schema config depth m row = .ok e) :
    ∃ e', entryWithin schema config depth m row' = .ok e' ∧ e'.LoadedAs e := by
  induction depth generalizing m row row' e with
  | zero => cases made
  | succ depth ih =>
    have apart := unambiguous.apart
    obtain ⟨own, decoded, -⟩ := Result.exists_of_bind made
    obtain ⟨_, less, -, fields⟩ := fields_of_entryWithin made
    cases less
    -- the relations have the same values in both orders
    have related : ∀ a, row'.HasAlias config a → ∃ v v',
        relation schema (entryWithin schema config depth) m a (row'.under config a) = .ok v' ∧
          e.get? a = some v ∧ v'.LoadedAs v := by
      intro a used
      have used := (Row.hasAlias_perm perm a).2 used
      obtain ⟨v, value, found⟩ := (fields a).1 _ (Row.get?_groups_of_hasAlias used)
      obtain ⟨v', value', same⟩ := exists_relation_of_perm (Row.under_perm apart perm a)
        (fun target inner nested =>
          ih (unambiguous.under a) (Row.under_perm apart perm a) nested) value
      exact ⟨v, v', value', found, same⟩
    obtain ⟨own', decoded'⟩ :=
      exists_decodeFields_of_perm (Row.ownFields_perm apart perm) decoded
    obtain ⟨e', made'⟩ := exists_entryWithin_succ decoded' fun a used =>
      let ⟨_, v', value, _⟩ := related a used
      ⟨v', value⟩
    obtain ⟨_, less, -, fields'⟩ := fields_of_entryWithin made'
    cases less
    refine ⟨e', made', ?_, unchanged_of_entryWithin made', fun name => ?_⟩
    · rw [model_of_entryWithin made', model_of_entryWithin made]
    by_cases used : row'.HasAlias config name
    · obtain ⟨v, v', value, found, same⟩ := related name used
      obtain ⟨w, value', found'⟩ := (fields' name).1 _ (Row.get?_groups_of_hasAlias used)
      cases value.symm.trans value'
      rw [found, found']
      exact .some same
    · have loads := (fields name).2
        (Row.get?_groups_eq_none (mt (Row.hasAlias_perm perm name).1 used))
      have loads' := (fields' name).2 (Row.get?_groups_eq_none used)
      have columns : Assoc.get? name (Row.ownFields config row)
          = Assoc.get? name (Row.ownFields config row') :=
        Assoc.get?_perm (Assoc.keys_nodup_ofList _) (Row.ownFields_perm apart perm) name
      rw [← columns] at loads'
      exact rel_loadedAs_of_loads loads loads'

end Materialize

/-- **The order of columns does not matter**: of a row in which no two columns go to one place behind
any chain of aliases, entries are made in two orders of the columns with the same fields at every
depth, or in neither. A column named like an alias need not be excluded, since the relation takes
its place in every order. -/
theorem Materializer.entry_reordered (p : Materializer) {row row' : Row}
    (unambiguous : row.Unambiguous p.config) (perm : row.Perm row') :
    (∃ e e', p.entry row = .ok e ∧ p.entry row' = .ok e' ∧ e.LoadedAs e' ∧ e'.LoadedAs e) ∨
      ∃ error error', p.entry row = .error error ∧ p.entry row' = .error error' := by
  have depth : Row.longestName row = Row.longestName row' := Row.longestName_perm perm
  have there : ∀ e, p.entry row = .ok e → ∃ e', p.entry row' = .ok e' ∧ e'.LoadedAs e := by
    intro e made
    rw [entry, Materialize.entry, ← depth]
    exact Materialize.exists_entryWithin_of_perm unambiguous perm made
  have back : ∀ e', p.entry row' = .ok e' → ∃ e, p.entry row = .ok e ∧ e.LoadedAs e' := by
    intro e' made
    rw [entry, Materialize.entry, depth]
    exact Materialize.exists_entryWithin_of_perm (unambiguous.perm perm) perm.symm made
  cases made : p.entry row with
  | ok e =>
    obtain ⟨e', made', same⟩ := there e made
    obtain ⟨e'', again, same'⟩ := back e' made'
    cases made.symm.trans again
    exact .inl ⟨e, e', rfl, made', same', same⟩
  | error error =>
    cases made' : p.entry row' with
    | ok e' =>
      obtain ⟨e, again, -⟩ := back e' made'
      cases made.symm.trans again
    | error error' => exact .inr ⟨error, error', rfl, rfl⟩

/-- The tag of a book comes first, and the author of the book last. -/
theorem Materializer.entry_reordered_tag :
    [("books:tags:id", .int 8), ("books:id", .int 5), ("id", .int 1)].Perm (Library.authorRow 8) ∧
      ∃ e e', Library.authors.entry [("books:tags:id", .int 8), ("books:id", .int 5),
          ("id", .int 1)] = .ok e ∧
        Library.authors.entry (Library.authorRow 8) = .ok e' ∧ e.LoadedAs e' ∧ e'.LoadedAs e := by
  have tag : Row.Unambiguous {} [("id", .int 8)] :=
    Row.unambiguous_of_groups (by decide) (List.forall_mem_nil _)
  have book : Row.Unambiguous {} [("tags:id", .int 8), ("id", .int 5)] :=
    Row.unambiguous_of_groups (by decide) (List.forall_mem_singleton.2 tag)
  have row : Row.Unambiguous {} [("books:tags:id", .int 8), ("books:id", .int 5), ("id", .int 1)] :=
    Row.unambiguous_of_groups (by decide) (List.forall_mem_singleton.2 book)
  have perm : [("books:tags:id", .int 8), ("books:id", .int 5), ("id", .int 1)].Perm
      (Library.authorRow 8) := (Library.authorRow 8).reverse_perm
  rcases Library.authors.entry_reordered row perm with both | ⟨error, -, failed, -⟩
  · exact ⟨perm, both⟩
  · cases failed

end RecordMapper
