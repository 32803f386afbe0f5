import RecordMapper.Proofs.Query.RenamedForms
import RecordMapper.Proofs.Query.Splicing

/-!
Other names for the placeholders of a text.

A text is taken as a template: percent signs stand around its placeholders and nowhere else, and a
renaming puts another name into each hole. The forms of the grammar are the same under both names,
and where placeholders keep to themselves the same text is put in for both
(`Template.substitute_eq_of_parts`). So **the names of placeholders do not matter**: the renamed
text is read into the renamed tree, or both texts are refused (`Parser.parse_rename`), if no name is
one of the keywords `CASE` and `END`. Those two are looked for in the names of placeholders as well,
though not in field references, and found there (`Parser.parse_rename_disturbed`).
-/

namespace RecordMapper

open Text

/-! ### Renaming templates, bindings and trees -/

/-- The slot with another name in the hole. -/
def Slot.rename (ρ : String → String) : Slot → Slot
  | .char c => .char c
  | .hole name => .hole (ρ name)

namespace Template

/-- The template with other names in its holes. -/
def rename (ρ : String → String) (x : Template) : Template :=
  x.map (Slot.rename ρ)

/-- The names in the holes. -/
def holes : Template → List String
  | [] => []
  | .char _ :: x => holes x
  | .hole name :: x => name :: holes x

end Template

namespace Bindings

/-- The names that are bound. -/
def names (b : Bindings) : List String :=
  Assoc.keys b.values

/-- The same values under other names. -/
def rename (ρ : String → String) (b : Bindings) : Bindings :=
  ⟨b.values.map fun entry => (ρ entry.1, entry.2)⟩

end Bindings

mutual

/-- The expression with other names in its placeholders. -/
def Expr.rename (ρ : String → String) : Expr → Expr
  | .field ref => .field ref
  | .var name value => .var (ρ name) value
  | .raw sql => .raw sql
  | .scalar value a => .scalar value a
  | .math operands a => .math (renameOperands ρ operands) a
  | .func name distinct args a => .func name distinct (renameArguments ρ args) a
  | .case branches default a => .case (renameBranches ρ branches) (renameDefault ρ default) a

/-- The condition with other names in its placeholders. -/
def Condition.rename (ρ : String → String) : Condition → Condition
  | .simple lhs op rhs => .simple (lhs.rename ρ) op (rhs.rename ρ)
  | .nested children => .nested (renameChildren ρ children)

/-- The operands of a chain with other names. -/
def renameOperands (ρ : String → String) : List (Option MathOp × Expr) → List (Option MathOp × Expr)
  | [] => []
  | (op, e) :: rest => (op, e.rename ρ) :: renameOperands ρ rest

/-- The arguments of a call with other names. -/
def renameArguments (ρ : String → String) : List Expr → List Expr
  | [] => []
  | e :: rest => e.rename ρ :: renameArguments ρ rest

/-- The branches of a case distinction with other names. -/
def renameBranches (ρ : String → String) : List (Condition × Expr) → List (Condition × Expr)
  | [] => []
  | (c, e) :: rest => (c.rename ρ, e.rename ρ) :: renameBranches ρ rest

/-- An optional expression with other names. -/
def renameDefault (ρ : String → String) : Option Expr → Option Expr
  | none => none
  | some e => some (e.rename ρ)

/-- Joined conditions with other names. -/
def renameChildren (ρ : String → String) :
    List (Option BoolOp × Condition) → List (Option BoolOp × Condition)
  | [] => []
  | (op, c) :: rest => (op, c.rename ρ) :: renameChildren ρ rest

end

section Trees

variable (ρ : String → String)

/-- The second expression is the first with other names. -/
def Expr.Renames (e e' : Expr) : Prop :=
  e.rename ρ = e'

/-- The second condition is the first with other names. -/
def Condition.Renames (c c' : Condition) : Prop :=
  c.rename ρ = c'

variable {ρ}

theorem Expr.isRaw_rename (e : Expr) : (e.rename ρ).isRaw = e.isRaw := by
  cases e <;> rfl

theorem renameOperands_eq {operands operands' : List (Option MathOp × Expr)}
    (each : List.Forall₂ (Labelled (Expr.Renames ρ)) operands operands') :
    renameOperands ρ operands = operands' := by
  induction each with
  | nil => rfl
  | cons first _ ih =>
    obtain ⟨op, same⟩ := first
    rw [renameOperands, same, ih]

theorem renameArguments_eq {args args' : List Expr}
    (each : List.Forall₂ (Expr.Renames ρ) args args') : renameArguments ρ args = args' := by
  induction each with
  | nil => rfl
  | cons same _ ih => rw [renameArguments, same, ih]

theorem renameBranches_eq {branches branches' : List (Condition × Expr)}
    (each : List.Forall₂ (fun branch branch' => Condition.Renames ρ branch.1 branch'.1
      ∧ Expr.Renames ρ branch.2 branch'.2) branches branches') :
    renameBranches ρ branches = branches' := by
  induction each with
  | nil => rfl
  | @cons branch branch' _ _ same _ ih =>
    obtain ⟨c, e⟩ := branch
    obtain ⟨c', e'⟩ := branch'
    rw [renameBranches, same.1, same.2, ih]

theorem renameChildren_eq {children children' : List (Option BoolOp × Condition)}
    (each : List.Forall₂ (Labelled (Condition.Renames ρ)) children children') :
    renameChildren ρ children = children' := by
  induction each with
  | nil => rfl
  | cons first _ ih =>
    obtain ⟨op, same⟩ := first
    rw [renameChildren, same, ih]

/-- Trees of renamed parts are renamed. -/
theorem congruence_rename : Congruence (Expr.Renames ρ) (Condition.Renames ρ) where
  field _ := rfl
  scalar _ _ := rfl
  math a each := by rw [Expr.Renames, Expr.rename, renameOperands_eq each]
  func name distinct _ _ a each := by rw [Expr.Renames, Expr.rename, renameArguments_eq each]
  case a each same := by
    rw [Expr.Renames, Expr.rename, renameBranches_eq each]
    cases same with
    | none => rfl
    | some same => rw [renameDefault, same]
  simple op left right := by rw [Condition.Renames, Condition.rename, left, right]
  nested each := by rw [Condition.Renames, Condition.rename, renameChildren_eq each]
  isRaw same := by rw [← same, Expr.isRaw_rename]

end Trees

/-! ### Templates under both names -/

namespace Template

variable {ρ : String → String} {b : Bindings} {x y : Template} {names : Text → Text → Prop}

theorem holes_rename : (x.rename ρ).holes = x.holes.map ρ := by
  induction x with
  | nil => rfl
  | cons slot x ih =>
    cases slot with
    | char c => exact ih
    | hole name => exact congrArg (List.cons (ρ name)) ih

theorem mem_rename_char {c : Char} : .char c ∈ x.rename ρ ↔ .char c ∈ x := by
  induction x with
  | nil => exact Iff.rfl
  | cons slot x ih =>
    rw [rename, List.map_cons, List.mem_cons, List.mem_cons, ← rename, ih]
    cases slot <;> simp [Slot.rename]

theorem write_rename (fill : String → Text) (x : Template) :
    (x.rename ρ).write fill = x.write fun name => fill (ρ name) := by
  induction x with
  | nil => rfl
  | cons slot x ih =>
    cases slot with
    | char c => exact congrArg (List.cons c) ih
    | hole name => exact congrArg (fill (ρ name) ++ ·) ih

theorem write_congr {fill fill' : String → Text} (same : ∀ name ∈ x.holes, fill name = fill' name) :
    x.write fill = x.write fill' := by
  induction x with
  | nil => rfl
  | cons slot x ih =>
    cases slot with
    | char c => rw [write_char, write_char, ih same]
    | hole name =>
      obtain ⟨first, others⟩ := List.forall_mem_cons.1 same
      rw [write_hole, write_hole, first, ih others]

/-- The text of a template and that of the renamed template are renamed. -/
theorem renamed_text (unmarked : .char '%' ∉ x)
    (each : ∀ name ∈ x.holes, names name.toList (ρ name).toList
      ∧ IsAsciiWord name.toList ∧ IsAsciiWord (ρ name).toList) :
    Renamed names x.text (x.rename ρ).text := by
  induction x with
  | nil => exact .nil
  | cons slot x ih =>
    rw [List.mem_cons, not_or] at unmarked
    cases slot with
    | char c => exact .char (fun same => unmarked.1 (by rw [same])) (ih unmarked.2 each)
    | hole name =>
      obtain ⟨⟨pair, word, word'⟩, others⟩ := List.forall_mem_cons.1 each
      rw [rename, List.map_cons, Slot.rename, text_hole, text_hole]
      exact .placeholder pair word word' (ih unmarked.2 others)

/-- The names of a template, each with its other name. -/
def paired (ρ : String → String) (x : Template) : Text → Text → Prop :=
  fun v w => ∃ name ∈ x.holes, v = name.toList ∧ w = (ρ name).toList

/-- Texts that are renamed are those of a template. -/
theorem exists_of_renamed {s t : Text} (renamed : Renamed (x.paired ρ) s t) :
    ∃ y : Template, y.text = s ∧ (y.rename ρ).text = t ∧ .char '%' ∉ y ∧ y.holes ⊆ x.holes := by
  induction renamed with
  | nil => exact ⟨[], rfl, rfl, List.not_mem_nil, List.nil_subset _⟩
  | @char c _ _ other _ ih =>
    obtain ⟨y, rfl, rfl, unmarked, part⟩ := ih
    refine ⟨.char c :: y, rfl, rfl, ?_, part⟩
    rw [List.mem_cons, not_or]
    refine ⟨fun same => ?_, unmarked⟩
    cases same
    exact other rfl
  | placeholder pair _ _ _ ih =>
    obtain ⟨name, mem, rfl, rfl⟩ := pair
    obtain ⟨y, rfl, rfl, unmarked, part⟩ := ih
    refine ⟨.hole name :: y, text_hole .., text_hole .., ?_, List.cons_subset.2 ⟨mem, part⟩⟩
    rw [List.mem_cons, not_or]
    exact ⟨fun same => (by cases same), unmarked⟩

theorem scanned_of_unmarked (unmarked : .char '%' ∉ y)
    (bound : ∀ name ∈ y.holes, b.bound name = true) : Bindings.Scanned b.bound y := by
  induction y with
  | nil => trivial
  | cons slot y ih =>
    rw [List.mem_cons, not_or] at unmarked
    cases slot with
    | char c =>
      refine ⟨if_neg fun found => unmarked.1 ?_, ih unmarked.2 bound⟩
      rw [found.1]
    | hole name =>
      obtain ⟨first, others⟩ := List.forall_mem_cons.1 bound
      exact ⟨first, ih unmarked.2 others⟩

end Template

/-! ### Bindings under both names -/

namespace Bindings

variable {ρ : String → String} {b : Bindings}

theorem mem_names {name : String} : name ∈ b.names ↔ b.bound name = true := by
  rw [names, bound, get?, Option.isSome_iff_ne_none, ne_eq, Assoc.get?_eq_none_iff, not_not]

theorem names_rename : (b.rename ρ).names = b.names.map ρ := by
  simp [names, rename, Assoc.keys, Function.comp_def]

/-- A value is found under the other name of its name. -/
theorem get?_rename {name : String} (injective : ∀ m ∈ b.names, ρ m = ρ name → m = name) :
    (b.rename ρ).get? (ρ name) = b.get? name := by
  obtain ⟨pairs⟩ := b
  rw [rename, get?, get?]
  rw [names] at injective
  dsimp only at injective ⊢
  induction pairs with
  | nil => rfl
  | cons entry pairs ih =>
    obtain ⟨first, others⟩ := List.forall_mem_cons.1 injective
    rw [List.map_cons, Assoc.get?, Assoc.get?]
    by_cases same : entry.1 = name
    · rw [if_pos same, if_pos (congrArg ρ same)]
    · rw [if_neg same, if_neg (mt first same)]
      exact ih others

/-- Placeholders keep to themselves in a text that is tokenized as the body of a case distinction,
if names hold no spaces. -/
theorem Separate.flattened {t : Text} (separate : b.Separate t)
    (solid : ∀ name ∈ b.names, ' ' ∉ name.toList) : b.Separate (' ' :: t.flattenBlanks) := by
  have solid : ∀ name, b.bound name = true → ' ' ∉ name.toList := fun name isBound =>
    solid name (mem_names.2 isBound)
  have isBound_of_get? : ∀ {name value}, b.get? name = some value → b.bound name = true := by
    intro name value found
    rw [bound, found, Option.isSome_some]
  have part : ∀ {u : Text}, ' ' ∉ u → '%' :: u <:+: ' ' :: t.flattenBlanks → '%' :: u <:+: t := by
    intro u free inside
    have free' : ' ' ∉ '%' :: u := by
      rw [List.mem_cons, not_or]
      exact ⟨by decide, free⟩
    rcases List.infix_cons_iff.1 inside with start | later
    · exact absurd (List.cons_prefix_cons.1 start).1 (by decide)
    · exact isInfix_of_flattenBlanksFrom free' later
  refine ⟨separate.names, fun name value found inside => ?_, fun m n isBound isBound' inside => ?_,
    fun before name value behind m free free' found inside isBound start => ?_⟩
  · refine separate.values name value found (part ?_ inside)
    simp [solid name (isBound_of_get? found)]
  · refine separate.shared m n isBound isBound' (part ?_ inside)
    simp [solid m isBound, solid n isBound']
  · have front : ' ' ∉ before := fun mem => solid m isBound (start.subset (by simp [mem]))
    have back : ' ' ∉ behind := fun mem => solid m isBound (start.subset (by simp [mem]))
    refine separate.beside before name value behind m free free' found (part ?_ inside) isBound start
    simp [placeholder, front, back, solid name (isBound_of_get? found)]

/-- No placeholder is in a text without percent signs. -/
theorem separate_of_not_mem {s t : Text} (separate : b.Separate s) (free : '%' ∉ t) :
    b.Separate t := by
  have absent : ∀ {u : Text}, ¬ '%' :: u <:+: t := fun inside =>
    free (inside.subset (List.mem_cons_self ..))
  exact ⟨separate.names, fun _ _ _ inside => absurd inside absent, fun _ _ _ _ => absent,
    fun _ _ _ _ _ _ _ _ inside => absurd inside absent⟩

end Bindings

/-! ### Renamed queries -/

/-- A text whose placeholders, all of them bound, are given other names, each name another one. -/
structure Template.Renames (ρ : String → String) (b : Bindings) (x : Template) : Prop where
  /-- Percent signs stand around placeholders only. -/
  unmarked : .char '%' ∉ x
  bound : ∀ name ∈ x.holes, name ∈ b.names
  words : ∀ name ∈ x.holes, IsAsciiWord name.toList ∧ IsAsciiWord (ρ name).toList
  values : ∀ entry ∈ b.values, '%' ∉ entry.2.literal
  injective : ∀ m ∈ b.names, ∀ n ∈ b.names, ρ m = ρ n → m = n

/-- Neither the grammar nor the substitution finds anything but placeholders in the names of a text
or around them, before they are renamed and behind. -/
structure Template.Undisturbed (ρ : String → String) (b : Bindings) (x : Template) : Prop where
  keywords : ∀ name ∈ x.holes, ¬ IsKeyword name.toList ∧ ¬ IsKeyword (ρ name).toList
  /-- No name appears where a line break becomes a space. -/
  solid : ∀ name ∈ b.names, ' ' ∉ name.toList ∧ ' ' ∉ (ρ name).toList
  apart : b.Separate x.text
  apart' : (b.rename ρ).Separate (x.rename ρ).text

namespace Template

variable {ρ : String → String} {b : Bindings} {x : Template} {s t : Text}

/-- Parts of a text and of the renamed text that are equal but for the names in them. -/
structure Parts (ρ : String → String) (b : Bindings) (x : Template) (s t : Text) : Prop where
  renamed : Renamed (x.paired ρ) s t
  apart : b.Separate s
  apart' : (b.rename ρ).Separate t

section

variable (renames : x.Renames ρ b) (undisturbed : x.Undisturbed ρ b)

include renames in
theorem Renames.get?_eq {name : String} (mem : name ∈ x.holes) :
    (b.rename ρ).get? (ρ name) = b.get? name :=
  Bindings.get?_rename fun m mem' => renames.injective m mem' name (renames.bound name mem)

include renames in
/-- The same text is put in for both names. -/
theorem substitute_eq_of_parts (parts : x.Parts ρ b s t) :
    b.substitute s = (b.rename ρ).substitute t := by
  obtain ⟨y, rfl, rfl, unmarked, inside⟩ := exists_of_renamed parts.renamed
  have bound : ∀ name ∈ y.holes, b.bound name = true := fun name mem =>
    Bindings.mem_names.1 (renames.bound name (inside mem))
  have same : ∀ name ∈ y.holes, (b.rename ρ).get? (ρ name) = b.get? name := fun name mem =>
    renames.get?_eq (inside mem)
  have scanned : Bindings.Scanned (b.rename ρ).bound (y.rename ρ) := by
    refine scanned_of_unmarked (mt mem_rename_char.1 unmarked) ?_
    rw [holes_rename, List.forall_mem_map]
    intro name mem
    rw [Bindings.bound, same name mem]
    exact bound name mem
  rw [parts.apart.substitute_text (scanned_of_unmarked unmarked bound),
    parts.apart'.substitute_text scanned, write_rename]
  refine write_congr fun name mem => ?_
  obtain ⟨value, found⟩ := Option.isSome_iff_exists.1 (bound name mem)
  rw [Bindings.content, Bindings.content, same name mem, found]

include renames in
theorem grammar_substitute_eq (parts : x.Parts ρ b s t) :
    Grammar.substitute (some b) s = Grammar.substitute (some (b.rename ρ)) t :=
  substitute_eq_of_parts renames parts

/-- Every name has one other name. -/
theorem right_unique_paired (ρ : String → String) (x : Template) :
    ∀ v w w', x.paired ρ v w → x.paired ρ v w' → w = w' := by
  rintro _ _ _ ⟨m, -, rfl, rfl⟩ ⟨n, -, same, rfl⟩
  rw [String.toList_inj.1 same]

include renames in
/-- Every other name has one name. -/
theorem left_unique_paired : ∀ v v' w, x.paired ρ v w → x.paired ρ v' w → v = v' := by
  rintro _ _ _ ⟨m, mem, rfl, rfl⟩ ⟨n, mem', rfl, same⟩
  rw [renames.injective m (renames.bound m mem) n (renames.bound n mem') (String.toList_inj.1 same)]

include undisturbed in
theorem areSafe_paired : AreSafe (x.paired ρ) := by
  rintro _ _ ⟨name, mem, rfl, rfl⟩
  exact undisturbed.keywords name mem

include undisturbed in
theorem similarity_parts : Similarity (x.paired ρ) (x.Parts ρ b) where
  renamed parts := parts.renamed
  part parts inside inside' renamed :=
    ⟨renamed, parts.apart.of_isInfix inside, parts.apart'.of_isInfix inside'⟩
  flattened parts := by
    refine ⟨.char (by decide) parts.renamed.flattenBlanks, parts.apart.flattened fun name mem =>
      (undisturbed.solid name mem).1, parts.apart'.flattened fun name mem => ?_⟩
    rw [Bindings.names_rename, List.mem_map] at mem
    obtain ⟨old, mem, rfl⟩ := mem
    exact (undisturbed.solid old mem).2
  unmarked free :=
    ⟨.of_not_mem free, Bindings.separate_of_not_mem undisturbed.apart free,
      Bindings.separate_of_not_mem undisturbed.apart' free⟩

include renames undisturbed

/-- **The forms of the grammar are the same under both names.** -/
theorem simulation_parts :
    Simulation (some b) (some (b.rename ρ)) (x.Parts ρ b) (Expr.Renames ρ)
      (Condition.Renames ρ) where
  toCongruence := congruence_rename
  trim := (similarity_parts undisturbed).trim
  isEmpty parts := parts.renamed.isEmpty_eq
  emptied parts := by rw [grammar_substitute_eq renames parts]
  field? parts := Form.field?_eq_of_renamed parts.renamed
  bound? parts := by
    refine rel_bind (Form.rel_placeholder? parts.renamed) ?_
    rintro n n' ⟨name, mem, same, same'⟩
    obtain rfl := String.toList_inj.1 same
    obtain rfl := String.toList_inj.1 same'
    rw [renames.get?_eq mem]
    cases b.get? n with
    | none => exact .none
    | some value => exact .some rfl
  scalar? parts := by
    rw [Grammar.scalar?, Grammar.scalar?, grammar_substitute_eq renames parts]
  raw parts := by
    rw [grammar_substitute_eq renames parts]
    rfl
  split? := CmpOp.pairs_split? (similarity_parts undisturbed) (areSafe_paired undisturbed)
  connected := Connected.pairs_tokens (similarity_parts undisturbed) (areSafe_paired undisturbed)
  connector parts := by
    rw [BoolOp.ofKeyword?, BoolOp.ofKeyword?, parts.renamed.sameLetters_eq (by decide),
      parts.renamed.sameLetters_eq (by decide)]
  chain parts := Chain.pairs_splitAlias (similarity_parts undisturbed) (areSafe_paired undisturbed)
    parts (right_unique_paired ρ x) (left_unique_paired renames)
  sign parts := by
    simp only [MathOp.ofSymbol?, beq_eq_decide, parts.renamed.eq_singleton_iff]
  items := FieldList.pairs_items (similarity_parts undisturbed) (areSafe_paired undisturbed)
  call? := Form.pairs_call? (similarity_parts undisturbed) (areSafe_paired undisturbed)
  distinct := Grammar.pairs_distinct (similarity_parts undisturbed)
  case? := Form.pairs_case? (similarity_parts undisturbed) (areSafe_paired undisturbed)
  keyword parts w mem := by
    have unmarked : ∀ w ∈ CaseBody.keywords, '%' ∉ w := by decide
    exact parts.renamed.eq_iff (unmarked w mem)

theorem parts_text : x.Parts ρ b x.text (x.rename ρ).text where
  renamed := renamed_text renames.unmarked fun name mem =>
    ⟨⟨name, mem, rfl, rfl⟩, renames.words name mem⟩
  apart := undisturbed.apart
  apart' := undisturbed.apart'

end

end Template

/-! ### The parser -/

namespace Parser

/-- **The names of placeholders do not matter**: the text of a template under other names, with the
values bound to those, is read into the tree of the text with these names in it, or both texts are
refused. -/
theorem parse_rename {ρ : String → String} {b : Bindings} {x : Template} (renames : x.Renames ρ b)
    (undisturbed : x.Undisturbed ρ b) :
    (expression (x.rename ρ).text (some (b.rename ρ))).toOption
        = (expression x.text (some b)).toOption.map (Expr.rename ρ)
      ∧ (condition (x.rename ρ).text (some (b.rename ρ))).toOption
        = (condition x.text (some b)).toOption.map (Condition.rename ρ) := by
  have sim := Template.simulation_parts renames undisturbed
  have parts := Template.parts_text renames undisturbed
  have expressions : (expression x.text (some b)).toOption.map (Expr.rename ρ)
      = (expression (x.rename ρ).text (some (b.rename ρ))).toOption.map id :=
    (sim.expression_alike parts).map_toOption
  have conditions : (condition x.text (some b)).toOption.map (Condition.rename ρ)
      = (condition (x.rename ρ).text (some (b.rename ρ))).toOption.map id :=
    (sim.condition_alike parts).map_toOption
  rw [Option.map_id] at expressions conditions
  exact ⟨expressions.symm, conditions.symm⟩

section Samples

/-- The ends of an interval. -/
def interval : Bindings :=
  .ofList [("low", .int 1), ("high", .int 9)]

/-- A field between the ends of an interval. -/
def inside : Template :=
  interval.slots "%low% < {a} AND {a} < %high%".toList

/-- Other names for the ends of an interval. -/
def shorter (name : String) : String :=
  if name = "low" then "l" else if name = "high" then "h" else name

theorem parse_rename_interval :
    inside.Renames shorter interval ∧ inside.Undisturbed shorter interval
      ∧ ((expression (inside.rename shorter).text (some (interval.rename shorter))).toOption
          = (expression inside.text (some interval)).toOption.map (Expr.rename shorter)
        ∧ (condition (inside.rename shorter).text (some (interval.rename shorter))).toOption
          = (condition inside.text (some interval)).toOption.map (Condition.rename shorter))
      ∧ (condition (inside.rename shorter).text (some (interval.rename shorter))).toOption.map
          Condition.print = some "%l% < {a} AND {a} < %h%".toList := by
  have renames : inside.Renames shorter interval :=
    ⟨by decide +kernel, by decide +kernel, by decide +kernel, by decide +kernel, by decide +kernel⟩
  have undisturbed : inside.Undisturbed shorter interval :=
    ⟨by decide +kernel, by decide +kernel, Bindings.separate_of_keepsApart (by decide +kernel),
      Bindings.separate_of_keepsApart (by decide +kernel)⟩
  exact ⟨renames, undisturbed, parse_rename renames undisturbed, by decide +kernel⟩

/-- Keywords and another letter, for the names `a`, `b` and `c`. -/
def asKeywords (name : String) : String :=
  if name = "a" then "case" else if name = "b" then "end" else if name = "c" then "d" else name

/-- A name that is a keyword hides the operator behind it, two of them are taken for a case
distinction, and a name that stands between two placeholders is put in there. -/
theorem parse_rename_disturbed :
    (∃ b x, Template.Renames asKeywords b x ∧ b.Separate x.text
        ∧ (b.rename asKeywords).Separate (x.rename asKeywords).text
        ∧ (condition x.text (some b)).toOption.map Condition.print = some "%a% = 1".toList
        ∧ (condition (x.rename asKeywords).text (some (b.rename asKeywords))).toOption.isNone = true)
      ∧ (∃ b x, Template.Renames asKeywords b x ∧ b.Separate x.text
        ∧ (b.rename asKeywords).Separate (x.rename asKeywords).text
        ∧ (expression x.text (some b)).toOption.map Expr.print = some "%a% + %b%".toList
        ∧ (expression (x.rename asKeywords).text (some (b.rename asKeywords))).toOption.map Expr.print
          = some "1 + 2".toList)
      ∧ ∃ b x, Template.Renames asKeywords b x
        ∧ (∀ name ∈ x.holes, ¬ IsKeyword name.toList ∧ ¬ IsKeyword (asKeywords name).toList)
        ∧ (expression x.text (some b)).toOption.map Expr.print = some "%x1y%".toList
        ∧ (expression (x.rename asKeywords).text (some (b.rename asKeywords))).toOption.map Expr.print
          = some "2c3".toList := by
  refine ⟨⟨.ofList [("a", .int 1)], Bindings.slots (.ofList [("a", .int 1)]) "%a% = 1".toList,
      ⟨?_, ?_, ?_, ?_, ?_⟩, ?_, ?_, ?_, ?_⟩,
    ⟨addends "1" "2", (addends "1" "2").slots "%a% + %b%".toList,
      ⟨?_, ?_, ?_, ?_, ?_⟩, ?_, ?_, ?_, ?_⟩,
    ⟨.ofList [("c", .int 1), ("x", .int 2), ("y", .int 3)],
      [.hole "x", .char 'c', .hole "y"], ⟨?_, ?_, ?_, ?_, ?_⟩, ?_, ?_, ?_⟩⟩
  all_goals first
    | decide +kernel
    | exact Bindings.separate_of_keepsApart (by decide +kernel)

end Samples

end Parser

end RecordMapper
