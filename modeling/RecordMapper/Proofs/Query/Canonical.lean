import RecordMapper.Proofs.Number.Integer
import RecordMapper.Proofs.Text.Linked
import RecordMapper.Query.Printing
import RecordMapper.Query.Tokens

/-!
Canonical trees, and the shape of their text.

A canonical tree is one that query text can hold: its names are ASCII words, its literals integers
and strings, its chains and groups have at least two members, and nothing inside it has an alias.
The text of an expression is linked by signs and that of a condition by connectors, and the text of
an operand is solid (`Expr.Canonical.shape`, `Condition.Canonical.shape`).
-/

namespace RecordMapper

open Text

/-! ### Canonical trees -/

mutual

/-- An expression that query text can hold, with no alias below the root. No function has a reserved
name. -/
inductive Expr.Canonical (reserved : Text → Prop) : Expr → Prop
  | field {ref : FieldRef} (name : IsAsciiWord ref.name.toList)
    (table : ∀ table ∈ ref.table, IsAsciiWord table.toList) : Expr.Canonical reserved (.field ref)
  | int (n : Int64) (a : Option String) : Expr.Canonical reserved (.scalar (.int n) a)
  | string (s : String) (a : Option String) : Expr.Canonical reserved (.scalar (.string s) a)
  | math {first : Expr} {rest : List (Option MathOp × Expr)} (a : Option String)
    (head : Expr.Canonical reserved first) (bare_head : first.alias? = none) (more : rest ≠ [])
    (operators : ∀ operand ∈ rest, operand.1.isSome = true)
    (operands : ∀ operand ∈ rest, Expr.Canonical reserved operand.2)
    (bare : ∀ operand ∈ rest, operand.2.alias? = none) :
    Expr.Canonical reserved (.math ((none, first) :: rest) a)
  | func {name : String} {distinct : Bool} {args : List Expr} (a : Option String)
    (identifier : IsIdentifier name.toList) (free : ¬ reserved name.toList)
    (nonempty : distinct = true → args ≠ []) (arguments : ∀ e ∈ args, Expr.Canonical reserved e)
    (bare : ∀ e ∈ args, e.alias? = none) : Expr.Canonical reserved (.func name distinct args a)
  | case {branches : List (Condition × Expr)} {default : Option Expr} (a : Option String)
    (nonempty : branches ≠ [])
    (conditions : ∀ branch ∈ branches, Condition.Canonical reserved branch.1)
    (values : ∀ branch ∈ branches, Expr.Canonical reserved branch.2)
    (bare : ∀ branch ∈ branches, branch.2.alias? = none)
    (otherwise : ∀ e ∈ default, Expr.Canonical reserved e)
    (bare_otherwise : ∀ e ∈ default, e.alias? = none) :
    Expr.Canonical reserved (.case branches default a)

/-- A condition that query text can hold. -/
inductive Condition.Canonical (reserved : Text → Prop) : Condition → Prop
  | simple {lhs rhs : Expr} (op : CmpOp) (left : Expr.Canonical reserved lhs)
    (bare_left : lhs.alias? = none) (right : Expr.Canonical reserved rhs)
    (bare_right : rhs.alias? = none) : Condition.Canonical reserved (.simple lhs op rhs)
  | nested {first : Condition} {rest : List (Option BoolOp × Condition)}
    (head : Condition.Canonical reserved first) (more : rest ≠ [])
    (operators : ∀ child ∈ rest, child.1.isSome = true)
    (children : ∀ child ∈ rest, Condition.Canonical reserved child.2) :
    Condition.Canonical reserved (.nested ((none, first) :: rest))

end

/-! ### Operands and grouped conditions -/

/-- The text of an expression as an operand of a chain. -/
def Expr.printOperand : Expr → Text
  | .math operands none => '(' :: (printOperands operands ++ [')'])
  | e => e.print

/-- The text of a condition inside another one. -/
def Condition.printChild : Condition → Text
  | .nested children => '(' :: (printChildren children ++ [')'])
  | c => c.print

theorem printOperands_cons (op : Option MathOp) (e : Expr) (rest : List (Option MathOp × Expr)) :
    printOperands ((op, e) :: rest)
      = (match op with
        | some op => [' ', op.symbol, ' ']
        | none => []) ++ e.printOperand ++ printOperands rest := by
  rw [printOperands.eq_def]
  rfl

theorem printChildren_cons (op : Option BoolOp) (c : Condition)
    (rest : List (Option BoolOp × Condition)) :
    printChildren ((op, c) :: rest)
      = (match op with
        | some op => ' ' :: (op.keyword ++ [' '])
        | none => []) ++ c.printChild ++ printChildren rest := by
  rw [printChildren.eq_def]
  rfl

/-! ### Shapes -/

/-- The text between the braces of a field reference. -/
def FieldRef.printName (ref : FieldRef) : Text :=
  match ref.table with
  | some table => table.toList ++ '.' :: ref.name.toList
  | none => ref.name.toList

theorem FieldRef.print_eq (ref : FieldRef) :
    ref.print = '\x7b' :: (ref.printName ++ ['\x7d']) ++ printAlias ref.aliasName := by
  unfold FieldRef.print FieldRef.printName
  cases ref.table with
  | none => rfl
  | some table => simp

theorem FieldRef.isReference_printName {ref : FieldRef} (name : IsAsciiWord ref.name.toList)
    (table : ∀ table ∈ ref.table, IsAsciiWord table.toList) : IsReference ref.printName := by
  unfold FieldRef.printName
  split
  · rename_i t found
    exact .inr ⟨t.toList, ref.name.toList, table t found, name, rfl⟩
  · exact .inl name

theorem solid_print_int (n : Int) : Solid (Integer.print n) := by
  have digits : ∀ c ∈ Integer.digits n.natAbs, c.isDigit = true :=
    fun c mem => Integer.isDigit_of_mem_digits mem
  unfold Integer.print
  split
  · exact .negative (Integer.digits_ne_nil _) digits
  · exact .digits (Integer.digits_ne_nil _) digits

/-- Operands behind a text that is linked continue it. -/
theorem linked_operands {rest : List (Option MathOp × Expr)} {x : Text} (front : Linked signs x)
    (operators : ∀ operand ∈ rest, operand.1.isSome = true)
    (solid : ∀ operand ∈ rest, Solid operand.2.printOperand) :
    Linked signs (x ++ printOperands rest) := by
  induction rest generalizing x with
  | nil =>
    rw [printOperands, List.append_nil]
    exact front
  | cons operand rest ih =>
    obtain ⟨op, e⟩ := operand
    obtain ⟨op, rfl⟩ := Option.isSome_iff_exists.1 (operators _ (List.mem_cons_self ..))
    have next := Linked.link front (mem_signs op) (solid _ (List.mem_cons_self ..))
    have others := ih next (fun operand mem => operators operand (List.mem_cons_of_mem _ mem))
      (fun operand mem => solid operand (List.mem_cons_of_mem _ mem))
    rw [printOperands_cons]
    simpa using others

theorem linked_printOperands {first : Expr} {rest : List (Option MathOp × Expr)}
    (head : Solid first.printOperand) (operators : ∀ operand ∈ rest, operand.1.isSome = true)
    (solid : ∀ operand ∈ rest, Solid operand.2.printOperand) :
    Linked signs (printOperands ((none, first) :: rest)) := by
  rw [printOperands_cons]
  exact linked_operands (.solid head) operators solid

/-- Conditions behind a text that is linked continue it. -/
theorem linked_children {rest : List (Option BoolOp × Condition)} {x : Text}
    (front : Linked connectors x) (operators : ∀ child ∈ rest, child.1.isSome = true)
    (linked : ∀ child ∈ rest, Linked connectors child.2.printChild) :
    Linked connectors (x ++ printChildren rest) := by
  induction rest generalizing x with
  | nil =>
    rw [printChildren, List.append_nil]
    exact front
  | cons child rest ih =>
    obtain ⟨op, c⟩ := child
    obtain ⟨op, rfl⟩ := Option.isSome_iff_exists.1 (operators _ (List.mem_cons_self ..))
    have mem : op.keyword ∈ connectors := by
      refine List.mem_append_right _ ?_
      cases op <;> simp
    have next := (front.append mem (linked _ (List.mem_cons_self ..))).linked
    have others := ih next (fun child mem => operators child (List.mem_cons_of_mem _ mem))
      (fun child mem => linked child (List.mem_cons_of_mem _ mem))
    rw [printChildren_cons]
    simpa using others

/-- The arguments of a call are balanced. -/
theorem balanced_arguments {args : List Expr} (balanced : ∀ e ∈ args, Balanced e.print) :
    Balanced (Text.join [',', ' '] (printArguments args)) := by
  induction args with
  | nil => exact .nil
  | cons e args ih =>
    have others := ih fun e mem => balanced e (List.mem_cons_of_mem _ mem)
    have first := balanced e (List.mem_cons_self ..)
    cases args with
    | nil =>
      rw [printArguments, printArguments, join_singleton]
      exact first
    | cons e' args =>
      rw [printArguments, printArguments, join_cons_cons, ← printArguments]
      exact first.join (by simp) (by simp [glueChars]) others

/-- The parts of a case distinction are balanced behind the space they start with. -/
theorem balanced_parts {branches : List (Condition × Expr)} {default : Option Expr}
    (conditions : ∀ branch ∈ branches, Balanced branch.1.print)
    (values : ∀ branch ∈ branches, Linked connectors branch.2.print)
    (otherwise : ∀ e ∈ default, Linked connectors e.print) :
    printBranches branches ++ printDefault default = []
      ∨ ∃ body, printBranches branches ++ printDefault default = ' ' :: body
        ∧ Balanced body ∧ HasEnding body := by
  have word : ∀ w ∈ CaseBody.keywords, Balanced w := by
    intro w mem
    simp only [CaseBody.keywords, List.mem_cons, List.not_mem_nil, or_false] at mem
    rcases mem with rfl | rfl | rfl
    all_goals exact balanced_of_word (by simp [CaseBody.whenKeyword, CaseBody.thenKeyword,
      CaseBody.elseKeyword]) rfl rfl
  induction branches with
  | nil =>
    cases default with
    | none => exact .inl rfl
    | some e =>
      have value := otherwise e rfl
      have parts := balanced_words (word CaseBody.elseKeyword (by simp [CaseBody.keywords]))
        value.balanced
      exact .inr ⟨_, rfl, parts, value.ending.append (CaseBody.elseKeyword ++ [' '])⟩
  | cons branch branches ih =>
    obtain ⟨c, e⟩ := branch
    have value : Linked connectors e.print := values _ (List.mem_cons_self ..)
    have opened := balanced_words (word CaseBody.whenKeyword (by simp [CaseBody.keywords]))
      (conditions _ (List.mem_cons_self ..))
    have divided := balanced_words opened
      (word CaseBody.thenKeyword (by simp [CaseBody.keywords]))
    have first := balanced_words divided value.balanced
    have others := ih (fun branch mem => conditions branch (List.mem_cons_of_mem _ mem))
      fun branch mem => values branch (List.mem_cons_of_mem _ mem)
    right
    rcases others with none | ⟨body, split, balanced, ending⟩
    · refine ⟨_, ?_, first, value.ending.append _⟩
      rw [printBranches, List.append_assoc, none]
      simp [CaseBody.whenKeyword, CaseBody.thenKeyword]
    · refine ⟨_, ?_, balanced_words first balanced, ending.append _⟩
      rw [printBranches, List.append_assoc, split]
      simp [CaseBody.whenKeyword, CaseBody.thenKeyword]

theorem signs_subset_comparisons : signs ⊆ comparisons :=
  List.subset_append_left _ _

theorem comparisons_subset_connectors : comparisons ⊆ connectors :=
  List.subset_append_left _ _

theorem signs_subset_connectors : signs ⊆ connectors :=
  List.Subset.trans signs_subset_comparisons comparisons_subset_connectors

/-- What a comparison is made of is linked by its operator. -/
theorem chained_comparison {lhs rhs : Expr} (op : CmpOp) (left : Linked signs lhs.print)
    (right : Linked signs rhs.print) :
    Chained comparisons (Condition.print (.simple lhs op rhs)) := by
  have chained := (left.mono signs_subset_comparisons).append (mem_comparisons op)
    (right.mono signs_subset_comparisons)
  simpa [Condition.print] using chained

theorem solid_case {branches : List (Condition × Expr)} {default : Option Expr}
    (nonempty : branches ≠ []) (conditions : ∀ branch ∈ branches, Balanced branch.1.print)
    (values : ∀ branch ∈ branches, Linked connectors branch.2.print)
    (otherwise : ∀ e ∈ default, Linked connectors e.print) :
    Solid (Expr.print (.case branches default none)) := by
  rcases balanced_parts conditions values otherwise with none | ⟨body, split, balanced, ending⟩
  · obtain ⟨branch, branches, rfl⟩ := List.exists_cons_of_ne_nil nonempty
    obtain ⟨c, e⟩ := branch
    simp [printBranches] at none
  · have solid := Solid.case balanced ending
    rw [Expr.print, List.append_assoc caseKeyword, split]
    simpa [printAlias] using solid

theorem solid_field {ref : FieldRef} (name : IsAsciiWord ref.name.toList)
    (table : ∀ table ∈ ref.table, IsAsciiWord table.toList) (bare : ref.aliasName = none) :
    Solid (Expr.print (.field ref)) := by
  rw [Expr.print, FieldRef.print_eq, bare, printAlias, List.append_nil]
  exact .field (FieldRef.isReference_printName name table)

theorem solid_int (n : Int64) : Solid (Expr.print (.scalar (.int n) none)) := by
  rw [Expr.print, Value.print, printAlias, List.append_nil]
  exact solid_print_int n.toInt

theorem solid_string (s : String) : Solid (Expr.print (.scalar (.string s) none)) := by
  rw [Expr.print, Value.print, printAlias, List.append_nil]
  exact .literal s.toList

/-- What stands between the parentheses of a call. -/
def printParameters (distinct : Bool) (args : List Expr) : Text :=
  (if distinct then ['D', 'I', 'S', 'T', 'I', 'N', 'C', 'T', ' '] else [])
    ++ Text.join [',', ' '] (printArguments args)

theorem balanced_parameters {args : List Expr} (distinct : Bool)
    (balanced : ∀ e ∈ args, Balanced e.print) : Balanced (printParameters distinct args) := by
  have arguments := balanced_arguments balanced
  cases distinct with
  | false => exact arguments
  | true =>
    have word : Balanced ['D', 'I', 'S', 'T', 'I', 'N', 'C', 'T'] :=
      balanced_of_word (by simp) rfl rfl
    exact balanced_words word arguments

theorem print_func (name : String) (distinct : Bool) (args : List Expr) (a : Option String) :
    Expr.print (.func name distinct args a)
      = name.toList ++ '(' :: (printParameters distinct args ++ [')']) ++ printAlias a := by
  rw [Expr.print, printParameters]
  simp

theorem solid_func {name : String} {args : List Expr} (distinct : Bool)
    (identifier : IsIdentifier name.toList) (free : ¬ IsKeyword name.toList)
    (balanced : ∀ e ∈ args, Balanced e.print) :
    Solid (Expr.print (.func name distinct args none)) := by
  rw [print_func, printAlias, List.append_nil]
  exact .call identifier free (balanced_parameters distinct balanced)

mutual

/-- **An operand is solid, and an expression is linked by signs.** -/
theorem Expr.Canonical.shape {e : Expr} :
    e.Canonical IsKeyword → e.alias? = none → Solid e.printOperand ∧ Linked signs e.print
  | .field name table, bare => by
    have solid := solid_field name table bare
    exact ⟨solid, .solid solid⟩
  | .int n a, bare => by
    obtain rfl : a = none := bare
    exact ⟨solid_int n, .solid (solid_int n)⟩
  | .string s a, bare => by
    obtain rfl : a = none := bare
    exact ⟨solid_string s, .solid (solid_string s)⟩
  | .math a head bare_head more operators operands bare_operands, bare => by
    obtain rfl : a = none := bare
    have linked := linked_printOperands (head.shape bare_head).1 operators
      fun operand mem => ((operands operand mem).shape (bare_operands operand mem)).1
    constructor
    · exact .group (linked.mono signs_subset_connectors).balanced
    · rw [Expr.print, printAlias, List.append_nil]
      exact linked
  | @Expr.Canonical.func _ name distinct args a identifier free nonempty arguments bare_arguments,
    bare => by
    obtain rfl : a = none := bare
    have balanced : ∀ e ∈ args, Balanced e.print := by
      intro e mem
      have linked := ((arguments e mem).shape (bare_arguments e mem)).2
      exact (linked.mono signs_subset_connectors).balanced
    have solid := solid_func distinct identifier free balanced
    exact ⟨solid, .solid solid⟩
  | .case a nonempty conditions values bare_values otherwise bare_otherwise, bare => by
    obtain rfl : a = none := bare
    have solid := solid_case nonempty
      (fun branch mem => (conditions branch mem).shape.2.balanced)
      (fun branch mem => ((values branch mem).shape (bare_values branch mem)).2.mono
        signs_subset_connectors)
      (fun e mem => ((otherwise e mem).shape (bare_otherwise e mem)).2.mono
        signs_subset_connectors)
    exact ⟨solid, .solid solid⟩

/-- **A condition is linked by connectors, in parentheses and without.** -/
theorem Condition.Canonical.shape {c : Condition} :
    c.Canonical IsKeyword → Linked connectors c.printChild ∧ Linked connectors c.print
  | .simple op left bare_left right bare_right => by
    have chained := chained_comparison op (left.shape bare_left).2 (right.shape bare_right).2
    have linked := chained.linked.mono comparisons_subset_connectors
    exact ⟨linked, linked⟩
  | @Condition.Canonical.nested _ first rest head more operators children => by
    have linked : Linked connectors (printChildren ((none, first) :: rest)) := by
      rw [printChildren_cons]
      exact linked_children head.shape.1 operators fun child mem => (children child mem).shape.1
    constructor
    · exact .solid (.group linked.balanced)
    · rw [Condition.print]
      exact linked

end

end RecordMapper
