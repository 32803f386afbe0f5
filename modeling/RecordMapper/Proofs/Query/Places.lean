import RecordMapper.Query.Select

/-!
The places of field references.

A statement is made of expressions and conditions, each of which is made of further ones
(`Node.parts`), and a place is a path through them: the number of a part, the number of a part of
that part, and so on. Two places are compared from their beginning, so that the order of places is
that of reading the statement from left to right. A field reference occurs at a place if it is the
node there (`Select.fieldAt?`).

`Select.references` visits the field references without places. **It visits each of them once for
every place at which it occurs, from left to right** (`Select.exists_enumeration`): no position in
which an expression can stand is forgotten.
-/

namespace RecordMapper

/-! ### Nodes and places -/

/-- A part of a statement. -/
inductive Node where
  | expr (e : Expr)
  | condition (c : Condition)

namespace Node

/-- The parts that a node is made of, from left to right. -/
def parts : Node → List Node
  | .expr (.math operands _) => operands.map fun operand => .expr operand.2
  | .expr (.func _ _ args _) => args.map .expr
  | .expr (.case branches default _) =>
    branches.flatMap (fun branch => [.condition branch.1, .expr branch.2])
      ++ default.toList.map .expr
  | .expr _ => []
  | .condition (.simple lhs _ rhs) => [.expr lhs, .expr rhs]
  | .condition (.nested children) => children.map fun child => .condition child.2

/-- The node at a place. -/
def at? : Node → List Nat → Option Node
  | n, [] => some n
  | n, i :: place => n.parts[i]?.bind fun part => part.at? place

/-- The field references of a node. -/
def references : Node → List FieldRef
  | .expr e => e.references
  | .condition c => c.references

end Node

/-- The reference, if the node is one. -/
def Node.field? : Node → Option FieldRef
  | .expr e => e.field?
  | .condition _ => none

/-- The field reference at a place. -/
def Node.fieldAt? (n : Node) (place : List Nat) : Option FieldRef :=
  (n.at? place).bind field?

/-- The field reference at a place among several nodes: the first number tells which of them the
place is in. -/
def fieldAmong? (nodes : List Node) : List Nat → Option FieldRef
  | [] => none
  | i :: place => nodes[i]?.bind fun n => n.fieldAt? place

namespace Select

/-- The parts that a statement is made of: the select list, the filter and the ordering. -/
def parts (s : Select) : List Node :=
  s.fields.map .expr ++ s.filter.toList.map .condition ++ s.orderBy.map fun o => .expr o.expr

/-- The field reference at a place of a statement. -/
def fieldAt? (s : Select) (place : List Nat) : Option FieldRef :=
  fieldAmong? s.parts place

end Select

/-! ### References of parts -/

theorem operandReferences_eq_flatMap (operands : List (Option MathOp × Expr)) :
    operandReferences operands = operands.flatMap fun operand => operand.2.references := by
  induction operands with
  | nil => rfl
  | cons operand rest ih => rw [operandReferences, ih, List.flatMap_cons]

theorem argumentReferences_eq_flatMap (args : List Expr) :
    argumentReferences args = args.flatMap Expr.references := by
  induction args with
  | nil => rfl
  | cons e rest ih => rw [argumentReferences, ih, List.flatMap_cons]

theorem branchReferences_eq_flatMap (branches : List (Condition × Expr)) :
    branchReferences branches
      = branches.flatMap fun branch => branch.1.references ++ branch.2.references := by
  induction branches with
  | nil => rfl
  | cons branch rest ih => rw [branchReferences, ih, List.flatMap_cons]

theorem childReferences_eq_flatMap (children : List (Option BoolOp × Condition)) :
    childReferences children = children.flatMap fun child => child.2.references := by
  induction children with
  | nil => rfl
  | cons child rest ih => rw [childReferences, ih, List.flatMap_cons]

/-- A node that is no field reference has those of its parts. -/
theorem Node.references_eq (n : Node) :
    n.references = n.field?.toList ++ n.parts.flatMap references := by
  cases n with
  | expr e =>
    cases e with
    | field ref => rfl
    | math operands a =>
      rw [references, Expr.references, operandReferences_eq_flatMap, parts, List.flatMap_map]
      rfl
    | func name distinct args a =>
      rw [references, Expr.references, argumentReferences_eq_flatMap, parts, List.flatMap_map]
      rfl
    | case branches default a =>
      have inBranches : branchReferences branches
          = (branches.flatMap fun branch => [Node.condition branch.1, .expr branch.2]).flatMap
            references := by
        rw [branchReferences_eq_flatMap, List.flatMap_assoc]
        simp [references]
      have inDefault : defaultReferences default
          = (default.toList.map Node.expr).flatMap references := by
        cases default <;> simp [defaultReferences, references]
      rw [references, Expr.references, inBranches, inDefault, parts, List.flatMap_append]
      rfl
    | _ => rfl
  | condition c =>
    cases c with
    | simple lhs op rhs => simp [references, Condition.references, parts, field?]
    | nested children =>
      rw [references, Condition.references, childReferences_eq_flatMap, parts, List.flatMap_map]
      rfl

/-! ### Parts are smaller -/

theorem Node.sizeOf_lt_of_mem_parts {n part : Node} (mem : part ∈ n.parts) :
    sizeOf part < sizeOf n := by
  cases n with
  | expr e =>
    cases e with
    | math operands a =>
      obtain ⟨⟨op, e⟩, there, rfl⟩ := List.mem_map.1 mem
      have smaller := List.sizeOf_lt_of_mem there
      simp only [Prod.mk.sizeOf_spec, expr.sizeOf_spec, Expr.math.sizeOf_spec] at smaller ⊢
      omega
    | func name distinct args a =>
      obtain ⟨e, there, rfl⟩ := List.mem_map.1 mem
      have smaller := List.sizeOf_lt_of_mem there
      simp only [expr.sizeOf_spec, Expr.func.sizeOf_spec] at smaller ⊢
      omega
    | case branches default a =>
      rcases List.mem_append.1 mem with mem | mem
      · obtain ⟨⟨c, e⟩, there, mem⟩ := List.mem_flatMap.1 mem
        have smaller := List.sizeOf_lt_of_mem there
        have either : part = .condition c ∨ part = .expr e := by simpa using mem
        rcases either with rfl | rfl <;>
          simp only [Prod.mk.sizeOf_spec, expr.sizeOf_spec, condition.sizeOf_spec,
            Expr.case.sizeOf_spec] at smaller ⊢ <;>
          omega
      · obtain ⟨e, there, rfl⟩ := List.mem_map.1 mem
        obtain rfl := Option.mem_toList.1 there
        simp only [expr.sizeOf_spec, Expr.case.sizeOf_spec, Option.some.sizeOf_spec]
        omega
    | _ => cases mem
  | condition c =>
    cases c with
    | simple lhs op rhs =>
      have either : part = .expr lhs ∨ part = .expr rhs := by simpa [parts] using mem
      rcases either with rfl | rfl <;>
        simp only [expr.sizeOf_spec, condition.sizeOf_spec, Condition.simple.sizeOf_spec] <;>
        omega
    | nested children =>
      obtain ⟨⟨op, c⟩, there, rfl⟩ := List.mem_map.1 mem
      have smaller := List.sizeOf_lt_of_mem there
      simp only [Prod.mk.sizeOf_spec, condition.sizeOf_spec, Condition.nested.sizeOf_spec]
        at smaller ⊢
      omega

/-! ### Enumerations -/

/-- The references are those at these places, each of them once, from left to right. -/
structure Enumerates (found : List (List Nat × FieldRef)) (references : List FieldRef)
    (fieldAt? : List Nat → Option FieldRef) : Prop where
  visited : found.map Prod.snd = references
  ordered : found.Pairwise fun one other => one.1 < other.1
  places : ∀ place ref, (place, ref) ∈ found ↔ fieldAt? place = some ref

/-- The place in the nodes behind a first one, as a place among all of them. -/
def behindFirst : List Nat → List Nat
  | [] => []
  | i :: place => (i + 1) :: place

theorem behindFirst_eq_cons_iff {one place : List Nat} {j : Nat} :
    behindFirst one = j :: place ↔ ∃ i, j = i + 1 ∧ one = i :: place := by
  cases one with
  | nil => simp [behindFirst]
  | cons i one =>
    constructor
    · intro same
      cases same
      exact ⟨i, rfl, rfl⟩
    · rintro ⟨_, rfl, same⟩
      cases same
      rfl

theorem behindFirst_lt {one other : List Nat} (before : one < other) (inside : one ≠ []) :
    behindFirst one < behindFirst other := by
  cases one with
  | nil => exact absurd rfl inside
  | cons i one =>
    cases other with
    | nil => exact absurd before (List.not_lt_nil _)
    | cons j other =>
      rcases List.cons_lt_cons_iff.1 before with left | ⟨rfl, within⟩
      · exact List.cons_lt_cons_iff.2 (.inl (Nat.succ_lt_succ left))
      · exact List.cons_lt_cons_iff.2 (.inr ⟨rfl, within⟩)

theorem exists_enumeration_of_nodes {nodes : List Node}
    (each : ∀ n ∈ nodes, ∃ found, Enumerates found n.references n.fieldAt?) :
    ∃ found, Enumerates found (nodes.flatMap Node.references) (fieldAmong? nodes) := by
  induction nodes with
  | nil =>
    refine ⟨[], rfl, .nil, fun place ref => ?_⟩
    cases place <;> simp [fieldAmong?]
  | cons n rest ih =>
    obtain ⟨⟨first, visited, ordered, places⟩, each⟩ := List.forall_mem_cons.1 each
    obtain ⟨others, visited', ordered', places'⟩ := ih each
    have inside : ∀ f ∈ others, f.1 ≠ [] := by
      rintro ⟨place, ref⟩ mem rfl
      cases (places' _ _).1 mem
    refine ⟨first.map (fun f => (0 :: f.1, f.2)) ++ others.map (fun f => (behindFirst f.1, f.2)),
      ?_, List.pairwise_append.2 ⟨?_, ?_, ?_⟩, ?_⟩
    · rw [List.flatMap_cons, ← visited, ← visited', List.map_append, List.map_map, List.map_map]
      rfl
    · refine List.pairwise_map.2 (ordered.imp fun before => ?_)
      exact List.cons_lt_cons_iff.2 (.inr ⟨rfl, before⟩)
    · refine List.pairwise_map.2 (ordered'.imp_of_mem fun mem _ before => ?_)
      exact behindFirst_lt before (inside _ mem)
    · intro one mem other mem'
      obtain ⟨f, -, rfl⟩ := List.mem_map.1 mem
      obtain ⟨⟨place, ref⟩, there, rfl⟩ := List.mem_map.1 mem'
      cases place with
      | nil => exact absurd rfl (inside _ there)
      | cons i place => exact List.cons_lt_cons_iff.2 (.inl (Nat.succ_pos i))
    · intro place ref
      rw [List.mem_append, List.mem_map, List.mem_map]
      rcases place with _ | ⟨_ | i, place⟩
      · refine iff_of_false ?_ (fun there => by cases there)
        rintro (⟨f, -, same⟩ | ⟨⟨place, r⟩, there, same⟩)
        · cases same
        · cases place with
          | nil => exact inside _ there rfl
          | cons i place => cases same
      · show _ ↔ n.fieldAt? place = some ref
        rw [← places]
        simp [behindFirst_eq_cons_iff]
      · show _ ↔ fieldAmong? rest (i :: place) = some ref
        rw [← places']
        simp [behindFirst_eq_cons_iff]

/-- Places in a node are places in its parts, apart from that of the node itself. -/
theorem Node.fieldAt?_eq (n : Node) (place : List Nat) :
    n.fieldAt? place = if place = [] then n.field? else fieldAmong? n.parts place := by
  cases place with
  | nil => rfl
  | cons i place =>
    rw [if_neg (List.cons_ne_nil i place), fieldAt?, at?, Option.bind_assoc]
    rfl

/-- **The field references of a node are those at its places, from left to right.** -/
theorem Node.exists_enumeration (n : Node) :
    ∃ found, Enumerates found n.references n.fieldAt? := by
  have each : ∀ part ∈ n.parts, ∃ found, Enumerates found part.references part.fieldAt? :=
    fun part mem => part.exists_enumeration
  obtain ⟨found, visited, ordered, places⟩ := exists_enumeration_of_nodes each
  refine ⟨n.field?.toList.map (fun ref => ([], ref)) ++ found, ?_,
    List.pairwise_append.2 ⟨?_, ordered, ?_⟩, ?_⟩
  · rw [references_eq, List.map_append, visited, List.map_map]
    exact congrArg (· ++ _) (List.map_id _)
  · cases n.field? <;> simp
  · intro one mem other mem'
    obtain ⟨ref, -, rfl⟩ := List.mem_map.1 mem
    obtain ⟨place, ref'⟩ := other
    cases place with
    | nil => cases (places _ _).1 mem'
    | cons i place => exact List.nil_lt_cons ..
  · intro place ref
    rw [fieldAt?_eq, List.mem_append, places]
    cases place with
    | nil => simp [fieldAmong?]
    | cons i place => simp
termination_by sizeOf n
decreasing_by exact Node.sizeOf_lt_of_mem_parts mem

namespace Select

theorem references_eq_flatMap (s : Select) :
    s.references = s.parts.flatMap Node.references := by
  have fields : argumentReferences s.fields
      = (s.fields.map Node.expr).flatMap Node.references := by
    rw [argumentReferences_eq_flatMap, List.flatMap_map]
    rfl
  have ordering : (s.orderBy.flatMap fun o => o.expr.references)
      = (s.orderBy.map fun o => Node.expr o.expr).flatMap Node.references := by
    rw [List.flatMap_map]
    rfl
  rw [references, parts, List.flatMap_append, List.flatMap_append, fields, ordering]
  cases s.filter with
  | none => rfl
  | some c => simp [Node.references]

/-- **The field references of a statement are those at its places, from left to right.** -/
theorem exists_enumeration (s : Select) :
    ∃ found, Enumerates found s.references s.fieldAt? := by
  rw [references_eq_flatMap]
  exact exists_enumeration_of_nodes fun n _ => n.exists_enumeration

end Select

end RecordMapper
