import RecordMapper.Proofs.Query.RoundTrip
import RecordMapper.Proofs.Query.WellFormed

/-!
What was read is printed as a text that reads the same.

Parentheses are dropped where a text is read. Printing puts them back around a chain inside another
one, but not around an operand that has an alias, so the alias and what follows it may be read in
another way. A tree is legible if nothing below its root has an alias and its words are ASCII and no
keywords (`Expr.Legible`). A legible tree that comes from the parser is canonical, and **its text is
read as the same tree** (`Parser.expression_print_of_read`).
-/

namespace RecordMapper

open Text

/-! ### Legible trees -/

mutual

/-- An expression whose text shows what it holds: literals are integers and strings, words are ASCII,
no function is called as a keyword, and nothing below the root has an alias. -/
inductive Expr.Legible : Expr → Prop
  | field {ref : FieldRef} (name : IsAsciiWord ref.name.toList)
    (table : ∀ table ∈ ref.table, IsAsciiWord table.toList) : Expr.Legible (.field ref)
  | int (n : Int64) (a : Option String) : Expr.Legible (.scalar (.int n) a)
  | string (s : String) (a : Option String) : Expr.Legible (.scalar (.string s) a)
  | math {operands : List (Option MathOp × Expr)} (a : Option String)
    (each : ∀ operand ∈ operands, Expr.Legible operand.2)
    (bare : ∀ operand ∈ operands, operand.2.alias? = none) : Expr.Legible (.math operands a)
  | func {name : String} {distinct : Bool} {args : List Expr} (a : Option String)
    (word : IsAsciiWord name.toList) (free : ¬ IsKeyword name.toList)
    (nonempty : distinct = true → args ≠ []) (each : ∀ e ∈ args, Expr.Legible e)
    (bare : ∀ e ∈ args, e.alias? = none) : Expr.Legible (.func name distinct args a)
  | case {branches : List (Condition × Expr)} {default : Option Expr} (a : Option String)
    (conditions : ∀ branch ∈ branches, Condition.Legible branch.1)
    (values : ∀ branch ∈ branches, Expr.Legible branch.2)
    (bare : ∀ branch ∈ branches, branch.2.alias? = none)
    (otherwise : ∀ e ∈ default, Expr.Legible e)
    (bare_otherwise : ∀ e ∈ default, e.alias? = none) : Expr.Legible (.case branches default a)

/-- A condition whose text shows what it holds. -/
inductive Condition.Legible : Condition → Prop
  | simple {lhs rhs : Expr} (op : CmpOp) (left : Expr.Legible lhs) (bare_left : lhs.alias? = none)
    (right : Expr.Legible rhs) (bare_right : rhs.alias? = none) :
    Condition.Legible (.simple lhs op rhs)
  | nested {children : List (Option BoolOp × Condition)}
    (each : ∀ child ∈ children, Condition.Legible child.2) : Condition.Legible (.nested children)

end

/-! ### Legible trees that were read -/

/-- Joined items have a first one, which is joined to nothing, and others. -/
theorem IsJoined.exists_cons {κ ι : Type} {items : List (Option κ × ι)} (joined : IsJoined items) :
    ∃ first rest, items = (none, first) :: rest ∧ rest ≠ []
      ∧ ∀ item ∈ rest, item.1.isSome = true := by
  obtain ⟨two, head, tail⟩ := joined
  match items, two with
  | (op, first) :: next :: rest, _ =>
    obtain rfl : op = none := head _ rfl
    exact ⟨first, next :: rest, rfl, nofun, tail⟩

mutual

/-- **A legible expression that is well-formed is canonical.** -/
theorem Expr.Legible.canonical {e : Expr} : e.Legible → e.WellFormed → e.Canonical IsKeyword
  | .field name table, _ => .field name table
  | .int n a, _ => .int n a
  | .string s a, _ => .string s a
  | @Expr.Legible.math operands a each bare, .math joined wellFormed _ => by
    have canonical : ∀ operand ∈ operands, operand.2.Canonical IsKeyword :=
      fun operand mem => (each operand mem).canonical (wellFormed operand mem)
    obtain ⟨first, rest, rfl, more, operators⟩ := joined.exists_cons
    obtain ⟨head, operands⟩ := List.forall_mem_cons.1 canonical
    obtain ⟨bare_head, bare_operands⟩ := List.forall_mem_cons.1 bare
    exact .math a head bare_head more operators operands bare_operands
  | .func a word free nonempty each bare, .func _ identifier wellFormed _ =>
    .func a ⟨word, identifier.start⟩ free nonempty
      (fun e mem => (each e mem).canonical (wellFormed e mem)) bare
  | .case a conditions values bare otherwise bare_otherwise,
    .case nonempty conditions' values' otherwise' _ =>
    .case a nonempty (fun branch mem => (conditions branch mem).canonical (conditions' branch mem))
      (fun branch mem => (values branch mem).canonical (values' branch mem)) bare
      (fun e mem => (otherwise e mem).canonical (otherwise' e mem)) bare_otherwise

/-- **A legible condition that is well-formed is canonical.** -/
theorem Condition.Legible.canonical {c : Condition} :
    c.Legible → c.WellFormed → c.Canonical IsKeyword
  | .simple op left bare_left right bare_right, .simple _ left' right' =>
    .simple op (left.canonical left') bare_left (right.canonical right') bare_right
  | @Condition.Legible.nested children each, .nested joined wellFormed => by
    have canonical : ∀ child ∈ children, child.2.Canonical IsKeyword :=
      fun child mem => (each child mem).canonical (wellFormed child mem)
    obtain ⟨first, rest, rfl, more, operators⟩ := joined.exists_cons
    obtain ⟨head, others⟩ := List.forall_mem_cons.1 canonical
    exact .nested head more operators others

end

namespace Parser

/-- **The text of a legible expression that was read is read as the same expression.** -/
theorem expression_print_of_read {t : Text} {e : Expr} (read : expression t none = .ok e)
    (legible : e.Legible) (named : e.HasReadableAlias) : expression e.print none = .ok e := by
  have yields := (yields_wellFormed t none).1
  rw [read] at yields
  exact read_print.1 e (legible.canonical yields) named

/-- `({a}) * ({b} - 1) AS x`, which is printed without the first parentheses. -/
def product : Expr :=
  .math [
    (none, .field ⟨none, "a", none⟩),
    (some .mul, .math [(none, .field ⟨none, "b", none⟩), (some .sub, .scalar (.int 1) none)] none)]
    (some "x")

theorem legible_product : product.Legible := by
  have a : (Expr.field ⟨none, "a", none⟩).Legible := .field (isAsciiWord_of_checked rfl) nofun
  have b : (Expr.field ⟨none, "b", none⟩).Legible := .field (isAsciiWord_of_checked rfl) nofun
  have difference : (Expr.math [(none, .field ⟨none, "b", none⟩),
      (some .sub, .scalar (.int 1) none)] none).Legible :=
    .math none (by simp [b, Expr.Legible.int]) (by simp [Expr.alias?])
  exact .math _ (by simp [a, difference]) (by simp [Expr.alias?])

theorem expression_print_of_read_product :
    expression product.print none = .ok product := by
  have read : expression "({a}) * ({b} - 1) AS x".toList none = .ok product := rfl
  have named : product.HasReadableAlias := by
    rintro name ⟨⟩
    exact isIdentifier_of_checked rfl
  exact expression_print_of_read read legible_product named

/-- `{a} + ({b} AS x)`. -/
def aliasedOperand : Expr :=
  .math [(none, .field ⟨none, "a", none⟩), (some .add, .field ⟨none, "b", some "x"⟩)] none

/-- The last operand of a chain loses its alias to the chain when the parentheses around it are
dropped. -/
theorem expression_print_aliasedOperand :
    expression "{a} + ({b} AS x)".toList none = .ok aliasedOperand
      ∧ expression aliasedOperand.print none ≠ .ok aliasedOperand := by
  refine ⟨rfl, fun read => ?_⟩
  have named : (expression aliasedOperand.print none).toOption.bind Expr.alias? = some "x" := rfl
  rw [read] at named
  cases named

end Parser

end RecordMapper
