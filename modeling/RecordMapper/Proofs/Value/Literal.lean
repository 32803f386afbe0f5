import RecordMapper.Proofs.Number.Distinct
import RecordMapper.Proofs.Number.NaN
import RecordMapper.Proofs.Text.Basic
import RecordMapper.Value.Printing

/-!
What literals tell of their values.

The literal of a value is meant for a query text and does not say of what kind the value is: the
truth value `1`, the text `1` and the number `1` are written alike, as are a list and its items in a
longer one. Among values of one kind it is better (`Value.Told`): **two truth values, integers, texts
or floats with one literal are equal**, unless they are NaN, and so are two lists of such values if
no text of an item is empty or holds a comma (`Value.Told.equals_of_literal`).
-/

namespace RecordMapper

/-! ### Joined texts -/

theorem Text.intercalate_cons (separator : Text) (c : Char) (t : Text) (texts : List Text) :
    separator.intercalate ((c :: t) :: texts) = c :: separator.intercalate (t :: texts) := by
  cases texts with
  | nil => simp
  | cons u texts => simp

/-- A comma and a space between texts are a comma in front of texts with a space before them. -/
theorem Text.join_cons_eq_intercalate (t : Text) (texts : List Text) :
    join [',', ' '] (t :: texts) = [','].intercalate (t :: texts.map (' ' :: ·)) := by
  induction texts generalizing t with
  | nil => rw [join_singleton, List.map_nil, List.intercalate_singleton]
  | cons u texts ih =>
    rw [join_cons_cons, ih u, List.map_cons, List.intercalate_cons_cons, intercalate_cons,
      List.append_assoc, List.append_assoc]
    rfl

/-- Texts without commas are told by the text that joins them, unless it is empty. -/
theorem Text.join_inj {texts others : List Text} (told : ∀ t ∈ texts, t ≠ [] ∧ ',' ∉ t)
    (told' : ∀ t ∈ others, t ≠ [] ∧ ',' ∉ t)
    (same : join [',', ' '] texts = join [',', ' '] others) : texts = others := by
  have some : ∀ {t : Text} {rest : List Text}, t ≠ [] → join [',', ' '] (t :: rest) ≠ [] := by
    intro t rest nonempty
    cases rest with
    | nil => rwa [join_singleton]
    | cons u rest =>
      rw [join_cons_cons]
      simp
  have split : ∀ {t : Text} {rest : List Text}, (∀ u ∈ t :: rest, u ≠ [] ∧ ',' ∉ u) →
      (join [',', ' '] (t :: rest)).splitOn ',' = t :: rest.map (' ' :: ·) := by
    intro t rest told
    rw [join_cons_eq_intercalate]
    refine List.splitOn_intercalate ',' (fun u mem => ?_) (List.cons_ne_nil _ _)
    rcases List.mem_cons.1 mem with rfl | mem
    · exact (told u (List.mem_cons_self ..)).2
    · obtain ⟨v, there, rfl⟩ := List.mem_map.1 mem
      intro comma
      exact (told v (List.mem_cons_of_mem _ there)).2
        ((List.mem_cons.1 comma).resolve_left (by decide))
  cases texts with
  | nil =>
    cases others with
    | nil => rfl
    | cons u others => exact absurd same.symm (some (told' u (List.mem_cons_self ..)).1)
  | cons t texts =>
    cases others with
    | nil => exact absurd same (some (told t (List.mem_cons_self ..)).1)
    | cons u others =>
      have pieces := split told
      rw [same, split told'] at pieces
      obtain ⟨first, rest⟩ := List.cons.inj pieces
      rw [first, List.map_injective_iff.2 (List.cons_injective) rest]

theorem Integer.print_injective {m n : Int64} (same : print m.toInt = print n.toInt) : m = n := by
  have read := Integer.read?_print m
  rw [same, Integer.read?_print] at read
  exact (Option.some.inj read).symm

/-! ### Values of one kind -/

theorem literalItems_eq_map (items : List Value) : literalItems items = items.map Value.literal := by
  induction items with
  | nil => rfl
  | cons v rest ih => rw [literalItems, ih, List.map_cons]

/-- Values of one kind: two truth values, integers, texts or floats, or two lists of such items with
texts that are not empty and hold no comma. Two NaNs, which are not equal, are left out. -/
inductive Value.Told : Value → Value → Prop where
  | bool (a b : Bool) : Told (.bool a) (.bool b)
  | int (m n : Int64) : Told (.int m) (.int n)
  | float {x y : Float} (number : x.isNaN = false ∨ y.isNaN = false) : Told (.float x) (.float y)
  | string (s t : String) : Told (.string s) (.string t)
  | list {items others : List Value}
      (texts : ∀ v ∈ items ++ others, v.literal ≠ [] ∧ ',' ∉ v.literal)
      (told : ∀ (i : Nat) (v w : Value), items[i]? = some v → others[i]? = some w → Told v w) :
      Told (.list items) (.list others)

theorem equalItems_of_forall {items others : List Value} (long : items.length = others.length)
    (equal : ∀ (i : Nat) (v w : Value), items[i]? = some v → others[i]? = some w →
      v.equals w = true) : equalItems items others = true := by
  induction items generalizing others with
  | nil =>
    rw [List.length_nil] at long
    rw [List.eq_nil_of_length_eq_zero long.symm, equalItems]
  | cons v items ih =>
    cases others with
    | nil => cases long
    | cons w others =>
      rw [equalItems, equal 0 v w rfl rfl, Bool.true_and]
      exact ih (Nat.succ.inj long) fun i => equal (i + 1)

/-- **Values of one kind with one literal are equal.** -/
theorem Value.Told.equals_of_literal {v w : Value} (told : v.Told w)
    (same : v.literal = w.literal) : v.equals w = true := by
  induction told with
  | bool a b =>
    have bits : a = b := by cases a <;> cases b <;> first | rfl | cases same
    rw [bits, equals, beq_self_eq_true]
  | int m n => rw [Integer.print_injective same, equals, beq_self_eq_true]
  | float number =>
    obtain rfl := Layout.print_plain_injective same
    rw [equals, beq_self_of_isNaN_eq_false (or_self_iff.1 number)]
  | string s t => rw [String.ext same, equals, beq_self_eq_true]
  | @list items others texts told ih =>
    have texts := List.forall_mem_append.1 texts
    rw [literal, literal, literalItems_eq_map, literalItems_eq_map] at same
    have literals : items.map literal = others.map literal :=
      Text.join_inj (List.forall_mem_map.2 texts.1) (List.forall_mem_map.2 texts.2) same
    have long := congrArg List.length literals
    rw [List.length_map, List.length_map] at long
    rw [equals]
    refine equalItems_of_forall long fun i v w here there => ih i v w here there ?_
    have item := congrArg (·[i]?) literals
    rw [List.getElem?_map, List.getElem?_map, here, there] at item
    exact Option.some.inj item

/-- A comma within an item is like one between items. -/
example : (Value.list [.string "a, b"]).literal = (Value.list [.string "a", .string "b"]).literal :=
  rfl

end RecordMapper
