/-!
Lists of pairs that hold one value per key, in the order in which the keys were first inserted.

A value inserted under a key that is present takes the place of the old one; erasing a key closes
the gap. Insertion changes what is found under its key and nothing else (`get?_insert`), and no key
occurs twice in a list built by insertion (`keys_nodup_ofList`).
-/

namespace RecordMapper.Assoc

variable {κ α : Type} [DecidableEq κ]

/-- The value under a key. -/
def get? (key : κ) : List (κ × α) → Option α
  | [] => none
  | (k, a) :: rest => if k = key then some a else get? key rest

/-- There is a value under the key. -/
def contains (key : κ) (pairs : List (κ × α)) : Bool :=
  (get? key pairs).isSome

/-- Puts a value under a key: in place if the key is present, at the end otherwise. -/
def insert (key : κ) (value : α) : List (κ × α) → List (κ × α)
  | [] => [(key, value)]
  | (k, a) :: rest => if k = key then (k, value) :: rest else (k, a) :: insert key value rest

/-- Applies a function to the value under a key, if there is one. -/
def modify (key : κ) (f : α → α) : List (κ × α) → List (κ × α)
  | [] => []
  | (k, a) :: rest => if k = key then (k, f a) :: rest else (k, a) :: modify key f rest

/-- Takes a key and its value out. -/
def erase (key : κ) : List (κ × α) → List (κ × α)
  | [] => []
  | (k, a) :: rest => if k = key then rest else (k, a) :: erase key rest

/-- The keys in order. -/
def keys (pairs : List (κ × α)) : List κ :=
  pairs.map Prod.fst

/-- Inserts pairs one after the other. -/
def insertAll (pairs new : List (κ × α)) : List (κ × α) :=
  new.foldl (fun pairs (k, a) => insert k a pairs) pairs

/-- The pairs of a list in which a key may occur more than once: the last value stands at the place
of the first. -/
def ofList (pairs : List (κ × α)) : List (κ × α) :=
  insertAll [] pairs

/-! ### What is found under a key -/

theorem get?_insert (key k : κ) (value : α) (pairs : List (κ × α)) :
    get? k (insert key value pairs) = if key = k then some value else get? k pairs := by
  induction pairs with
  | nil => rfl
  | cons p rest ih =>
    by_cases found : p.1 = key
    · subst found
      by_cases same : p.1 = k <;> simp [insert, get?, same]
    · by_cases same : p.1 = k
      · subst same
        simp [insert, get?, found, Ne.symm found]
      · simp [insert, get?, found, same, ih]

theorem get?_modify (key k : κ) (f : α → α) (pairs : List (κ × α)) :
    get? k (modify key f pairs) = if key = k then (get? k pairs).map f else get? k pairs := by
  induction pairs with
  | nil => simp [modify, get?]
  | cons p rest ih =>
    by_cases found : p.1 = key
    · subst found
      by_cases same : p.1 = k <;> simp [modify, get?, same]
    · by_cases same : p.1 = k
      · subst same
        simp [modify, get?, found, Ne.symm found]
      · simp [modify, get?, found, same, ih]

theorem get?_eq_none_iff {key : κ} {pairs : List (κ × α)} :
    get? key pairs = none ↔ key ∉ keys pairs := by
  induction pairs with
  | nil => simp [get?, keys]
  | cons p rest ih =>
    by_cases found : p.1 = key
    · simp [get?, keys, found]
    · simpa [get?, keys, found, Ne.symm found] using ih

theorem keys_modify (key : κ) (f : α → α) (pairs : List (κ × α)) :
    keys (modify key f pairs) = keys pairs := by
  induction pairs with
  | nil => rfl
  | cons p rest ih =>
    by_cases found : p.1 = key
    · simp [modify, keys, found]
    · simpa [modify, keys, found] using ih

theorem get?_append (key : κ) (pairs others : List (κ × α)) :
    get? key (pairs ++ others) = (get? key pairs).or (get? key others) := by
  induction pairs with
  | nil => rfl
  | cons p rest ih =>
    by_cases found : p.1 = key <;> simp [get?, found, ih]

theorem get?_filter (key : κ) (keep : κ → Bool) (pairs : List (κ × α)) :
    get? key (pairs.filter fun p => keep p.1) = if keep key then get? key pairs else none := by
  induction pairs with
  | nil => simp [get?]
  | cons p rest ih =>
    rw [List.filter_cons]
    by_cases found : p.1 = key
    · subst found
      by_cases kept : keep p.1 <;> simp [kept, get?, ih]
    · by_cases kept : keep p.1 <;> simp [kept, get?, found, ih]

/-! ### Keys stay distinct -/

theorem mem_keys_insert {key k : κ} {value : α} {pairs : List (κ × α)} :
    k ∈ keys (insert key value pairs) ↔ k = key ∨ k ∈ keys pairs := by
  induction pairs with
  | nil => simp [insert, keys]
  | cons p rest ih =>
    simp only [insert, keys, List.map_cons, List.mem_cons] at ih ⊢
    split
    · rename_i h
      subst h
      simp
    · simp only [List.map_cons, List.mem_cons, ih]
      exact or_left_comm

/-- Keys keep their order, and a new one is the last. -/
theorem keys_prefix_insert (key : κ) (value : α) (pairs : List (κ × α)) :
    keys pairs <+: keys (insert key value pairs) := by
  induction pairs with
  | nil => exact List.nil_prefix
  | cons p rest ih =>
    rw [insert]
    split
    · rename_i same
      subst same
      exact List.prefix_refl _
    · exact List.cons_prefix_cons.2 ⟨rfl, ih⟩

theorem keys_nodup_insert {key : κ} {value : α} {pairs : List (κ × α)}
    (nodup : (keys pairs).Nodup) : (keys (insert key value pairs)).Nodup := by
  induction pairs with
  | nil => simp [insert, keys]
  | cons p rest ih =>
    simp only [keys, List.map_cons, List.nodup_cons] at nodup
    simp only [insert]
    split
    · simpa [keys] using nodup
    · rename_i different
      rw [keys, List.map_cons, List.nodup_cons]
      refine ⟨fun mem => ?_, ih nodup.2⟩
      rcases mem_keys_insert.1 mem with same | mem
      · exact different same
      · exact nodup.1 mem

theorem keys_nodup_insertAll {pairs new : List (κ × α)} (nodup : (keys pairs).Nodup) :
    (keys (insertAll pairs new)).Nodup := by
  induction new generalizing pairs with
  | nil => exact nodup
  | cons p rest ih => exact ih (keys_nodup_insert nodup)

theorem keys_nodup_ofList (pairs : List (κ × α)) : (keys (ofList pairs)).Nodup :=
  keys_nodup_insertAll (by simp [keys])

/-! ### Distinct keys are only appended -/

theorem insert_of_not_mem {key : κ} {value : α} {pairs : List (κ × α)}
    (new : key ∉ keys pairs) : insert key value pairs = pairs ++ [(key, value)] := by
  induction pairs with
  | nil => rfl
  | cons p rest ih =>
    simp only [keys, List.map_cons, List.mem_cons, not_or] at new
    rw [insert, if_neg (Ne.symm new.1), ih new.2, List.cons_append]

theorem insert_append_of_not_mem {key : κ} {pairs : List (κ × α)} (absent : key ∉ keys pairs)
    (value : α) (others : List (κ × α)) :
    insert key value (pairs ++ others) = pairs ++ insert key value others := by
  induction pairs with
  | nil => rfl
  | cons p rest ih =>
    simp only [keys, List.map_cons, List.mem_cons, not_or] at absent
    rw [List.cons_append, insert, if_neg (Ne.symm absent.1), ih absent.2, List.cons_append]

theorem insertAll_of_nodup {pairs new : List (κ × α)} (nodup : (keys (pairs ++ new)).Nodup) :
    insertAll pairs new = pairs ++ new := by
  induction new generalizing pairs with
  | nil => rw [List.append_nil]; rfl
  | cons p rest ih =>
    have appended : pairs ++ p :: rest = pairs ++ [p] ++ rest := by simp
    have fresh : p.1 ∉ keys pairs := by
      simp only [keys, List.map_append, List.map_cons, List.nodup_append, List.mem_cons] at nodup
      intro mem
      exact nodup.2.2 p.1 mem p.1 (.inl rfl) rfl
    rw [appended] at nodup ⊢
    rw [← ih nodup, ← insert_of_not_mem fresh]
    rfl

/-- Pairs with distinct keys are taken as they are. -/
theorem ofList_of_nodup {pairs : List (κ × α)} (nodup : (keys pairs).Nodup) :
    ofList pairs = pairs :=
  insertAll_of_nodup nodup

/-! ### What is in the list -/

theorem mem_of_get? {key : κ} {value : α} {pairs : List (κ × α)}
    (found : get? key pairs = some value) : (key, value) ∈ pairs := by
  induction pairs with
  | nil => cases found
  | cons p rest ih =>
    rw [get?] at found
    split at found
    · rename_i same
      cases found
      rw [← same]
      exact List.mem_cons_self ..
    · exact List.mem_cons_of_mem _ (ih found)

theorem get?_of_mem {key : κ} {value : α} {pairs : List (κ × α)} (nodup : (keys pairs).Nodup)
    (mem : (key, value) ∈ pairs) : get? key pairs = some value := by
  induction pairs with
  | nil => cases mem
  | cons p rest ih =>
    simp only [keys, List.map_cons, List.nodup_cons] at nodup
    rw [get?]
    rcases List.mem_cons.1 mem with rfl | mem
    · rw [if_pos rfl]
    · rw [if_neg, ih nodup.2 mem]
      intro same
      apply nodup.1
      rw [same]
      exact List.mem_map_of_mem mem

/-- What is inserted where it is already changes nothing. -/
theorem insert_of_get? {key : κ} {value : α} {pairs : List (κ × α)}
    (found : get? key pairs = some value) : insert key value pairs = pairs := by
  induction pairs with
  | nil => cases found
  | cons p rest ih =>
    rw [get?] at found
    rw [insert]
    split at found
    · rename_i same
      cases found
      rw [if_pos same]
    · rename_i different
      rw [if_neg different, ih found]

theorem modify_of_get? {key : κ} {value : α} {pairs : List (κ × α)} {f : α → α}
    (found : get? key pairs = some value) (kept : f value = value) :
    modify key f pairs = pairs := by
  induction pairs with
  | nil => cases found
  | cons p rest ih =>
    rw [get?] at found
    rw [modify]
    split at found
    · rename_i same
      cases found
      rw [if_pos same, kept]
    · rename_i different
      rw [if_neg different, ih found]

/-- The last of the new values under a key is found. -/
theorem get?_insertAll (key : κ) (pairs new : List (κ × α)) :
    get? key (insertAll pairs new) = (get? key new.reverse).or (get? key pairs) := by
  induction new generalizing pairs with
  | nil => rfl
  | cons p rest ih =>
    have first : insertAll pairs (p :: rest) = insertAll (insert p.1 p.2 pairs) rest := rfl
    rw [first, ih, get?_insert, List.reverse_cons, get?_append, Option.or_assoc]
    by_cases same : p.1 = key <;> simp [get?, same]

theorem get?_ofList (key : κ) (pairs : List (κ × α)) :
    get? key (ofList pairs) = get? key pairs.reverse := by
  rw [ofList, get?_insertAll, get?, Option.or_none]

/-- Where keys are distinct, the order does not matter. -/
theorem get?_reverse {key : κ} {pairs : List (κ × α)} (nodup : (keys pairs).Nodup) :
    get? key pairs.reverse = get? key pairs := by
  have reversed : (keys pairs.reverse).Nodup := by
    rw [keys, List.map_reverse]
    exact List.pairwise_reverse.2 (nodup.imp Ne.symm)
  cases found : get? key pairs with
  | some value => exact get?_of_mem reversed (List.mem_reverse.2 (mem_of_get? found))
  | none =>
    rw [get?_eq_none_iff] at found ⊢
    rwa [keys, List.map_reverse, List.mem_reverse]

theorem mem_insert {key : κ} {value : α} {p : κ × α} {pairs : List (κ × α)}
    (mem : p ∈ insert key value pairs) : p = (key, value) ∨ p ∈ pairs := by
  induction pairs with
  | nil => exact .inl (List.mem_singleton.1 mem)
  | cons q rest ih =>
    rw [insert] at mem
    split at mem
    · rename_i same
      rcases List.mem_cons.1 mem with rfl | mem
      · exact .inl (by rw [same])
      · exact .inr (List.mem_cons_of_mem _ mem)
    · rcases List.mem_cons.1 mem with rfl | mem
      · exact .inr (List.mem_cons_self ..)
      · exact (ih mem).imp_right (List.mem_cons_of_mem _)

theorem mem_insertAll {p : κ × α} {pairs new : List (κ × α)} (mem : p ∈ insertAll pairs new) :
    p ∈ pairs ∨ p ∈ new := by
  induction new generalizing pairs with
  | nil => exact .inl mem
  | cons q rest ih =>
    rcases @ih (insert q.1 q.2 pairs) mem with mem | mem
    · exact (mem_insert mem).symm.imp_right fun same => by simp [same]
    · exact .inr (List.mem_cons_of_mem _ mem)

theorem mem_keys_insertAll {key : κ} {pairs new : List (κ × α)} :
    key ∈ keys (insertAll pairs new) ↔ key ∈ keys pairs ∨ key ∈ keys new := by
  induction new generalizing pairs with
  | nil => simp [insertAll, keys]
  | cons p rest ih =>
    have first : insertAll pairs (p :: rest) = insertAll (insert p.1 p.2 pairs) rest := rfl
    rw [first, ih, mem_keys_insert, keys, keys, keys, List.map_cons, List.mem_cons, or_assoc,
      or_left_comm]

theorem mem_keys_ofList {key : κ} {pairs : List (κ × α)} :
    key ∈ keys (ofList pairs) ↔ key ∈ keys pairs :=
  mem_keys_insertAll.trans (or_iff_right List.not_mem_nil)

theorem mem_ofList {p : κ × α} {pairs : List (κ × α)} (mem : p ∈ ofList pairs) : p ∈ pairs :=
  (mem_insertAll mem).resolve_left List.not_mem_nil

/-! ### Erasing -/

theorem erase_sublist (key : κ) (pairs : List (κ × α)) : (erase key pairs).Sublist pairs := by
  induction pairs with
  | nil => exact .slnil
  | cons p rest ih =>
    rw [erase]
    split
    · exact List.sublist_cons_self ..
    · exact ih.cons_cons _

theorem keys_nodup_erase {key : κ} {pairs : List (κ × α)} (nodup : (keys pairs).Nodup) :
    (keys (erase key pairs)).Nodup :=
  nodup.sublist ((erase_sublist key pairs).map Prod.fst)

/-- Where keys are distinct, an erased key is not found any more. -/
theorem get?_erase {key k : κ} {pairs : List (κ × α)} (nodup : (keys pairs).Nodup) :
    get? k (erase key pairs) = if key = k then none else get? k pairs := by
  induction pairs with
  | nil => simp [erase, get?]
  | cons p rest ih =>
    obtain ⟨first, nodup⟩ := List.nodup_cons.1 nodup
    rw [erase]
    by_cases found : p.1 = key
    · subst found
      rw [if_pos rfl]
      by_cases same : p.1 = k
      · subst same
        rw [if_pos rfl]
        exact get?_eq_none_iff.2 first
      · rw [if_neg same, get?, if_neg same]
    · rw [if_neg found, get?, ih nodup, get?]
      by_cases same : p.1 = k
      · subst same
        rw [if_pos rfl, if_neg (Ne.symm found), if_pos rfl]
      · rw [if_neg same, if_neg same]

theorem mem_keys_erase {key k : κ} {pairs : List (κ × α)} (nodup : (keys pairs).Nodup) :
    k ∈ keys (erase key pairs) ↔ k ≠ key ∧ k ∈ keys pairs := by
  rw [← Decidable.not_iff_not, ← get?_eq_none_iff, get?_erase nodup, not_and, ← get?_eq_none_iff]
  by_cases same : key = k
  · simp [same]
  · simp [same, Ne.symm same]

end RecordMapper.Assoc
