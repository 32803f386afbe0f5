import RecordMapper.Proofs.Query.Rules
import RecordMapper.Query.Parser

/-!
Canonical text is read back.

The parser reads the text of every canonical tree as that tree. The rules are tried in a fixed order,
so for each form the rules before its own must not apply; and the expressions inside a tree have
shorter text, so the induction is on the depth of the parser (`Parser.reads_expressionWithin`). Two
things would not be read back: a function with a keyword for its name, and a case distinction with
the alias `END`, in whatever case.
-/

namespace RecordMapper

open Text

/-- The alias of the root can be read: it is an identifier, and that of a case distinction is not
`END`, in any case. -/
def Expr.HasReadableAlias : Expr → Prop
  | .case _ _ a => ∀ name ∈ a, IsIdentifier name.toList ∧ sameLetters endKeyword name.toList = false
  | e => ∀ name ∈ e.alias?, IsIdentifier name.toList

theorem Expr.hasReadableAlias_of_bare {e : Expr} (bare : e.alias? = none) :
    e.HasReadableAlias := by
  cases e with
  | case branches default a =>
    obtain rfl : a = none := bare
    exact nofun
  | field _ | scalar _ _ | math _ _ | func _ _ _ _ | var _ _ | raw _ =>
    intro name mem
    rw [bare] at mem
    cases mem

namespace Grammar

/-! ### Literals -/

/-- An alias does not go on with the number before it. -/
theorem endsNumber_printAlias (a : Option String) : Form.EndsNumber (printAlias a) := by
  cases a with
  | none => exact nofun
  | some name =>
    rintro c ⟨⟩
    exact ⟨rfl, by decide⟩

/-- **An integer is read back.** -/
theorem scalar?_int (n : Int64) {a : Option String} (named : ∀ name ∈ a, IsAsciiWord name.toList) :
    scalar? none (Expr.print (.scalar (.int n) a)) = .ok (some (.scalar (.int n) a)) := by
  have literal : Form.literal? (Expr.print (.scalar (.int n) a))
      = some (.number (Integer.print n.toInt), a) := by
    rw [Expr.print, Value.print, Form.literal?,
      Form.literalStart?_print n.toInt (endsNumber_printAlias a)]
    simp only [Form.ending?_printAlias named, Option.bind_eq_bind, Option.bind_some]
  have whole : (Integer.print n.toInt).contains '.' = false := by
    have other : '.' ∉ Integer.print n.toInt := by
      intro mem
      rcases Integer.eq_or_isDigit_of_mem_print mem with minus | digit
      · cases minus
      · cases digit
    simpa using other
  have value : number (Integer.print n.toInt) = .ok (.int n) := by
    rw [number, whole]
    simp [Integer.read?_print]
  rw [scalar?, substitute, literal]
  simp only [value]
  rfl

/-- **A string is read back.** -/
theorem scalar?_string (s : String) {a : Option String}
    (named : ∀ name ∈ a, IsAsciiWord name.toList) :
    scalar? none (Expr.print (.scalar (.string s) a)) = .ok (some (.scalar (.string s) a)) := by
  have split : Expr.print (.scalar (.string s) a)
      = '"' :: (escapeQuoted s.toList ++ '"' :: printAlias a) := by
    rw [Expr.print, Value.print]
    simp [printQuoted]
  have literal : Form.literal? (Expr.print (.scalar (.string s) a))
      = some (.string (escapeQuoted s.toList), a) := by
    rw [split, Form.literal?, Form.literalStart?_escapeQuoted]
    simp only [Form.ending?_printAlias named, Option.bind_eq_bind, Option.bind_some]
  rw [scalar?, substitute, literal]
  simp only [Form.unescape_escapeQuoted, String.ofList_toList]

/-! ### Shorter texts -/

theorem printOperand_length_le {rest : List (Option MathOp × Expr)}
    {operand : Option MathOp × Expr} (mem : operand ∈ rest) :
    operand.2.printOperand.length ≤ (printOperands rest).length := by
  induction rest with
  | nil => cases mem
  | cons first rest ih =>
    rw [printOperands_cons, List.length_append, List.length_append]
    rcases List.mem_cons.1 mem with rfl | mem
    · omega
    · have shorter := ih mem
      omega

/-- An operand is shorter than its chain: another one stands beside it. -/
theorem printOperand_length_lt {first : Expr} {rest : List (Option MathOp × Expr)}
    (head : Solid first.printOperand) (more : rest ≠ [])
    (operators : ∀ operand ∈ rest, operand.1.isSome = true) :
    first.printOperand.length < (printOperands ((none, first) :: rest)).length
      ∧ ∀ operand ∈ rest,
        operand.2.printOperand.length < (printOperands ((none, first) :: rest)).length := by
  have length : (printOperands ((none, first) :: rest)).length
      = first.printOperand.length + (printOperands rest).length := by
    rw [printOperands_cons]
    simp
  have positive : 0 < first.printOperand.length := by
    obtain ⟨c, t, split, -⟩ := head.start
    rw [split]
    exact Nat.succ_pos _
  have behind : 0 < (printOperands rest).length := by
    obtain ⟨operand, rest, rfl⟩ := List.exists_cons_of_ne_nil more
    obtain ⟨op, e⟩ := operand
    obtain ⟨op, rfl⟩ := Option.isSome_iff_exists.1 (operators _ (List.mem_cons_self ..))
    rw [printOperands_cons]
    simp
  constructor
  · omega
  · intro operand mem
    have shorter := printOperand_length_le mem
    omega

theorem printArguments_length_le {args : List Expr} {e : Expr} (mem : e ∈ args) :
    e.print.length ≤ (Text.join [',', ' '] (printArguments args)).length := by
  induction args with
  | nil => cases mem
  | cons first args ih =>
    cases args with
    | nil =>
      obtain rfl := List.mem_singleton.1 mem
      rw [printArguments, printArguments, join_singleton]
    | cons second args =>
      rw [printArguments, printArguments, join_cons_cons, ← printArguments, List.length_append,
        List.length_append]
      rcases List.mem_cons.1 mem with rfl | mem
      · omega
      · have shorter := ih mem
        omega

/-- An argument is shorter than its call. -/
theorem argument_length_lt {name : String} {distinct : Bool} {args : List Expr}
    {a : Option String} {e : Expr} (mem : e ∈ args) :
    e.print.length < (Expr.print (.func name distinct args a)).length := by
  have shorter := printArguments_length_le mem
  simp only [Expr.print, List.length_append, List.length_cons]
  omega

theorem printBranches_length_le {branches : List (Condition × Expr)} {branch : Condition × Expr}
    (mem : branch ∈ branches) :
    branch.1.print.length ≤ (printBranches branches).length
      ∧ branch.2.print.length ≤ (printBranches branches).length := by
  induction branches with
  | nil => cases mem
  | cons first branches ih =>
    obtain ⟨c, e⟩ := first
    simp only [printBranches, List.length_append]
    rcases List.mem_cons.1 mem with rfl | mem
    · constructor
      · show c.print.length ≤ _
        omega
      · show e.print.length ≤ _
        omega
    · have shorter := ih mem
      omega

/-- What stands in a case distinction is shorter than it. -/
theorem part_length_lt {branches : List (Condition × Expr)} {default : Option Expr}
    {a : Option String} :
    (∀ branch ∈ branches,
        branch.1.print.length < (Expr.print (.case branches default a)).length
          ∧ branch.2.print.length < (Expr.print (.case branches default a)).length)
      ∧ ∀ e ∈ default, e.print.length < (Expr.print (.case branches default a)).length := by
  have length : (Expr.print (.case branches default a)).length
      = 8 + (printBranches branches).length + (printDefault default).length
        + (printAlias a).length := by
    simp [Expr.print, caseKeyword, endKeyword]
    omega
  constructor
  · intro branch mem
    have shorter := printBranches_length_le mem
    omega
  · rintro e ⟨⟩
    simp only [printDefault, List.length_append] at length
    omega

/-! ### Expressions -/

section Step

variable {parse : Text → Result Expr} {n : Nat}

theorem isTrimmed_printAlias {x : Text} (trimmed : IsTrimmed x) {a : Option String}
    (named : ∀ name ∈ a, IsAsciiWord name.toList) : IsTrimmed (x ++ printAlias a) := by
  cases a with
  | none =>
    rw [printAlias, List.append_nil]
    exact trimmed
  | some name =>
    have word := named name rfl
    have back : IsTrimmed name.toList := by
      refine ⟨word.1, ?_, ?_⟩
      · intro c first
        exact isBlank_of_isAsciiWord (word.2 c (List.mem_of_mem_head? first))
      · intro c last
        exact isBlank_of_isAsciiWord (word.2 c (List.mem_of_mem_getLast? last))
    have whole := trimmed.append [' ', 'A', 'S', ' '] back
    rwa [List.append_assoc] at whole

/-- The alias of a linked text is split off. -/
theorem splitAlias_print {x : Text} (linked : Linked signs x)
    {a : Option String} (named : ∀ name ∈ a, IsIdentifier name.toList) :
    Form.splitAlias (x ++ printAlias a) = (x, a.map String.toList) := by
  cases a with
  | none =>
    rw [printAlias, List.append_nil]
    exact Form.splitAlias_of_linked linked
  | some name => exact Form.splitAlias_printAlias linked.isTrimmed (named name rfl)

/-- A field reference is read back. -/
theorem expression_field {ref : FieldRef} (word : IsAsciiWord ref.name.toList)
    (table : ∀ table ∈ ref.table, IsAsciiWord table.toList)
    (named : ∀ name ∈ ref.aliasName, IsAsciiWord name.toList) :
    expression none parse (Expr.print (.field ref)) = .ok (.field ref) := by
  have split : Expr.print (.field ref)
      = '\x7b' :: (ref.printName ++ '\x7d' :: printAlias ref.aliasName) := by
    rw [Expr.print, FieldRef.print_eq]
    simp
  have trimmed : IsTrimmed (Expr.print (.field ref)) := by
    rw [Expr.print, FieldRef.print_eq]
    have solid := Solid.field (FieldRef.isReference_printName word table)
    exact isTrimmed_printAlias solid.isTrimmed named
  refine expression_of_field trimmed ?_
  rw [split, Form.field?_printName word table, Form.ending?_printAlias named]
  rfl

/-- A literal is read back. -/
theorem expression_int (m : Int64) {a : Option String}
    (named : ∀ name ∈ a, IsAsciiWord name.toList) :
    expression none parse (Expr.print (.scalar (.int m) a)) = .ok (.scalar (.int m) a) := by
  have solid : Solid (Integer.print m.toInt) := solid_print_int m.toInt
  have trimmed := solid.isTrimmed
  refine expression_of_scalar (isTrimmed_printAlias trimmed named) ?_ (bound?_none _) (scalar?_int m named)
  obtain ⟨c, t, split⟩ := List.exists_cons_of_ne_nil trimmed.nonempty
  have other : c ≠ '\x7b' := by
    rintro rfl
    have mem : '\x7b' ∈ Integer.print m.toInt := by simp [split]
    rcases Integer.eq_or_isDigit_of_mem_print mem with minus | digit
    · cases minus
    · cases digit
  rw [split]
  exact Form.field?_cons_eq_none other _

theorem expression_string (s : String) {a : Option String}
    (named : ∀ name ∈ a, IsAsciiWord name.toList) :
    expression none parse (Expr.print (.scalar (.string s) a)) = .ok (.scalar (.string s) a) := by
  have trimmed := (Solid.literal s.toList).isTrimmed
  refine expression_of_scalar (isTrimmed_printAlias trimmed named) ?_ (bound?_none _)
    (scalar?_string s named)
  exact Form.field?_cons_eq_none (by decide) _

/-- Behind the first operand of a chain stands a sign. -/
theorem exists_sign {rest : List (Option MathOp × Expr)} (more : rest ≠ [])
    (operators : ∀ operand ∈ rest, operand.1.isSome = true) :
    ∃ k ∈ signs, ∃ behind, printOperands rest = ' ' :: (k ++ ' ' :: behind) := by
  obtain ⟨operand, rest, rfl⟩ := List.exists_cons_of_ne_nil more
  obtain ⟨op, e⟩ := operand
  obtain ⟨op, rfl⟩ := Option.isSome_iff_exists.1 (operators _ (List.mem_cons_self ..))
  refine ⟨[op.symbol], mem_signs op, e.printOperand ++ printOperands rest, ?_⟩
  rw [printOperands_cons]
  simp

section Chains

variable {first : Expr} {rest : List (Option MathOp × Expr)} (head : Solid first.printOperand)
  (more : rest ≠ []) (operators : ∀ operand ∈ rest, operand.1.isSome = true)
  (solid : ∀ operand ∈ rest, Solid operand.2.printOperand)
  (read_first : parse first.printOperand = .ok first)
  (read : ∀ operand ∈ rest, parse operand.2.printOperand = .ok operand.2)
include head more operators solid read_first read

/-- A chain is read back. -/
theorem expression_math {a : Option String} (named : ∀ name ∈ a, IsIdentifier name.toList) :
    expression none parse (Expr.print (.math ((none, first) :: rest) a))
      = .ok (.math ((none, first) :: rest) a) := by
  have linked := linked_printOperands head operators solid
  have words : ∀ name ∈ a, IsAsciiWord name.toList := by
    intro name mem
    exact (named name mem).word
  obtain ⟨k, sign, behind, split⟩ := exists_sign more operators
  have unnamed : Form.ending? (printOperands rest ++ printAlias a) = none := by
    rw [split, List.cons_append, List.append_assoc, List.cons_append]
    exact Form.ending?_sign sign _
  have ends : Form.EndsNumber (printOperands rest ++ printAlias a) := by
    rw [split]
    rintro c ⟨⟩
    exact ⟨rfl, by decide⟩
  have whole : Expr.print (.math ((none, first) :: rest) a)
      = first.printOperand ++ (printOperands rest ++ printAlias a) := by
    rw [Expr.print, printOperands_cons]
    simp
  have noField : Form.field? (Expr.print (.math ((none, first) :: rest) a)) = none := by
    rw [whole]
    exact Form.field?_of_solid head unnamed
  have noLiteral : Form.literal? (Expr.print (.math ((none, first) :: rest) a)) = none := by
    rw [whole]
    exact Form.literal?_of_solid head unnamed ends
  have trimmed : IsTrimmed (Expr.print (.math ((none, first) :: rest) a)) :=
    isTrimmed_printAlias linked.isTrimmed words
  have found := chain?_of_tokens head more operators solid read_first read
    (splitAlias_print linked named) (Chain.tokens_operands head more operators solid)
  have texts : (a.map String.toList).map String.ofList = a := by
    rw [Option.map_map]
    cases a with
    | none => rfl
    | some name => exact congrArg some String.ofList_toList
  rw [texts] at found
  exact expression_of_chain trimmed noField (bound?_none _) noLiteral found

/-- A chain in parentheses is read as the chain. -/
theorem expression_group :
    expression none parse ('(' :: (printOperands ((none, first) :: rest) ++ [')']))
      = .ok (.math ((none, first) :: rest) none) := by
  have balanced := ((linked_printOperands head operators solid).mono
    signs_subset_connectors).balanced
  have linked : Linked signs ('(' :: (printOperands ((none, first) :: rest) ++ [')'])) :=
    .solid (.group balanced)
  have noField := Form.field?_cons_eq_none (c := '(') (by decide)
    (printOperands ((none, first) :: rest) ++ [')'])
  have noLiteral := Form.literal?_cons_eq_none (c := '(') (by decide) (by decide) rfl
    (printOperands ((none, first) :: rest) ++ [')'])
  have found := chain?_of_tokens head more operators solid read_first read
    (Form.splitAlias_of_linked linked) (Chain.tokens_group head more operators solid)
  exact expression_of_chain linked.isTrimmed noField (bound?_none _) noLiteral found

end Chains

/-- A call is read back. -/
theorem expression_func {name : String} {distinct : Bool} {args : List Expr} {a : Option String}
    (identifier : IsIdentifier name.toList) (free : ¬ IsKeyword name.toList)
    (nonempty : distinct = true → args ≠ []) (linked : ∀ e ∈ args, Linked signs e.print)
    (read : ∀ e ∈ args, parse e.print = .ok e) (named : ∀ name ∈ a, IsIdentifier name.toList) :
    expression none parse (Expr.print (.func name distinct args a))
      = .ok (.func name distinct args a) := by
  have words : ∀ name ∈ a, IsAsciiWord name.toList := by
    intro name mem
    exact (named name mem).word
  have balanced := balanced_parameters distinct fun e mem =>
    ((linked e mem).mono signs_subset_connectors).balanced
  have solid := Solid.call identifier free balanced
  have trimmed : IsTrimmed (Expr.print (.func name distinct args a)) := by
    rw [print_func]
    exact isTrimmed_printAlias solid.isTrimmed words
  have noField : Form.field? (Expr.print (.func name distinct args a)) = none := by
    rw [print_func, List.append_assoc]
    exact Form.field?_of_word identifier.word _
  have noLiteral : Form.literal? (Expr.print (.func name distinct args a)) = none := by
    rw [print_func, List.append_assoc]
    exact Form.literal?_of_identifier identifier _
  have unwrapped := unwrapped?_of_word identifier.word
    ('(' :: (printParameters distinct args ++ [')']))
  have noChain : chain? parse (Expr.print (.func name distinct args a)) = .ok none := by
    rw [print_func]
    exact chain?_of_solid (splitAlias_print (.solid solid) named) solid unwrapped
  exact expression_of_call trimmed noField (bound?_none _) noLiteral noChain
    (call?_print linked identifier nonempty read words)

/-- A case distinction is read back, if its alias is not `END`. -/
theorem expression_case {branches : List (Condition × Expr)} {default : Option Expr}
    {a : Option String} (nonempty : branches ≠ [])
    (named : ∀ name ∈ a, IsIdentifier name.toList) (other : Form.IsCaseAlias a)
    (conditions : ∀ branch ∈ branches, Linked connectors branch.1.print
      ∧ condition none parse branch.1.print = .ok branch.1)
    (values : ∀ branch ∈ branches, Linked connectors branch.2.print
      ∧ parse branch.2.print = .ok branch.2)
    (otherwise : ∀ e ∈ default, Linked connectors e.print ∧ parse e.print = .ok e) :
    expression none parse (Expr.print (.case branches default a))
      = .ok (.case branches default a) := by
  have words : ∀ name ∈ a, IsAsciiWord name.toList := by
    intro name mem
    exact (named name mem).word
  have solid : Solid (Expr.print (.case branches default none)) := solid_case nonempty
    (fun branch mem => (conditions branch mem).1.balanced) (fun branch mem => (values branch mem).1)
    fun e mem => (otherwise e mem).1
  have whole : Expr.print (.case branches default a)
      = Expr.print (.case branches default none) ++ printAlias a := by
    simp [Expr.print, printAlias]
  have word : IsAsciiWord caseKeyword := isAsciiWord_of_checked rfl
  obtain ⟨body, -, start⟩ := exists_parts default nonempty
  have trimmed : IsTrimmed (Expr.print (.case branches default a)) := by
    rw [whole]
    exact isTrimmed_printAlias solid.isTrimmed words
  have noField : Form.field? (Expr.print (.case branches default a)) = none := by
    rw [start]
    exact Form.field?_of_word word _
  have noLiteral : Form.literal? (Expr.print (.case branches default a)) = none := by
    rw [start]
    exact Form.literal?_cons_eq_none (by decide) (by decide) rfl _
  have unwrapped : unwrapped? (Expr.print (.case branches default none)) = none := by
    rw [start]
    exact unwrapped?_of_word word _
  have noChain : chain? parse (Expr.print (.case branches default a)) = .ok none := by
    rw [whole]
    exact chain?_of_solid (splitAlias_print (.solid solid) named) solid unwrapped
  have noCall : call? parse (Expr.print (.case branches default a)) = .ok none := by
    rw [call?, start, Form.call?_caseKeyword rfl (by decide)]
  exact expression_of_case trimmed noField (bound?_none _) noLiteral noChain noCall
    (case?_print nonempty other conditions values otherwise)

variable (reads : Reads parse n) {e : Expr} (canonical : e.Canonical IsKeyword)
include reads canonical

/-- **An expression is read back**, if the shorter ones inside it are. -/
theorem expression_print (named : e.HasReadableAlias) (short : e.print.length ≤ n) :
    expression none parse e.print = .ok e := by
  cases canonical with
  | field name table => exact expression_field name table fun a mem => (named a mem).word
  | int m a => exact expression_int m fun a mem => (named a mem).word
  | string s a => exact expression_string s fun a mem => (named a mem).word
  | @math first rest a head bare_head more operators operands bare =>
    have solid := (head.shape bare_head).1
    obtain ⟨first_lt, rest_lt⟩ := printOperand_length_lt solid more operators
    have chain_le : (printOperands ((none, first) :: rest)).length ≤ n := by
      rw [Expr.print, List.length_append] at short
      omega
    have read_first := (reads first head bare_head).2 (by omega)
    refine expression_math solid more operators
      (fun operand mem => ((operands operand mem).shape (bare operand mem)).1) read_first
      (fun operand mem => ?_) named
    have shorter := rest_lt operand mem
    exact (reads operand.2 (operands operand mem) (bare operand mem)).2 (by omega)
  | @func name distinct args a identifier free nonempty arguments bare =>
    refine expression_func identifier free nonempty
      (fun e mem => ((arguments e mem).shape (bare e mem)).2) (fun e mem => ?_) named
    have shorter : e.print.length < (Expr.print (.func name distinct args a)).length :=
      argument_length_lt mem
    exact (reads e (arguments e mem) (bare e mem)).1 (Nat.lt_of_lt_of_le shorter short)
  | case a nonempty conditions values bare otherwise bare_otherwise =>
    obtain ⟨branch_lt, default_lt⟩ := part_length_lt
    refine expression_case nonempty (fun name mem => (named name mem).1)
      (fun name mem => ⟨(named name mem).1.word, (named name mem).2⟩) (fun branch mem => ?_)
      (fun branch mem => ?_) fun e mem => ?_
    · have shorter := Nat.lt_of_lt_of_le (branch_lt branch mem).1 short
      exact ⟨(conditions branch mem).shape.2,
        condition_print reads (conditions branch mem) (Nat.le_of_lt shorter)⟩
    · have shorter := Nat.lt_of_lt_of_le (branch_lt branch mem).2 short
      have linked := ((values branch mem).shape (bare branch mem)).2
      exact ⟨linked.mono signs_subset_connectors,
        (reads branch.2 (values branch mem) (bare branch mem)).1 shorter⟩
    · have shorter := Nat.lt_of_lt_of_le (default_lt e mem) short
      have linked := ((otherwise e mem).shape (bare_otherwise e mem)).2
      exact ⟨linked.mono signs_subset_connectors,
        (reads e (otherwise e mem) (bare_otherwise e mem)).1 shorter⟩

/-- An operand is read back, if the shorter ones inside it are. -/
theorem expression_printOperand (bare : e.alias? = none) (short : e.printOperand.length ≤ n) :
    expression none parse e.printOperand = .ok e := by
  have named := Expr.hasReadableAlias_of_bare bare
  cases canonical with
  | @math first rest a head bare_head more operators operands bare_operands =>
    obtain rfl : a = none := bare
    have solid := (head.shape bare_head).1
    obtain ⟨first_lt, rest_lt⟩ := printOperand_length_lt solid more operators
    have chain_le : (printOperands ((none, first) :: rest)).length ≤ n := by
      simp only [Expr.printOperand, List.length_cons, List.length_append] at short
      omega
    have read_first := (reads first head bare_head).2 (by omega)
    refine expression_group solid more operators
      (fun operand mem => ((operands operand mem).shape (bare_operands operand mem)).1) read_first
      fun operand mem => ?_
    have shorter := rest_lt operand mem
    exact (reads operand.2 (operands operand mem) (bare_operands operand mem)).2 (by omega)
  | field name table => exact expression_print reads (.field name table) named short
  | int m a => exact expression_print reads (.int m a) named short
  | string s a => exact expression_print reads (.string s a) named short
  | func a identifier free nonempty arguments bare_arguments =>
    exact expression_print reads (.func a identifier free nonempty arguments bare_arguments) named
      short
  | case a nonempty conditions values bare_values otherwise bare_otherwise =>
    exact expression_print reads
      (.case a nonempty conditions values bare_values otherwise bare_otherwise) named short

end Step

end Grammar

/-! ### The parser -/

namespace Parser

/-- A parser of enough depth reads the expressions with short text. -/
theorem reads_expressionWithin (depth : Nat) :
    Grammar.Reads (expressionWithin none depth) depth := by
  induction depth with
  | zero =>
    intro e _ _
    constructor
    · intro short
      cases short
    · intro short
      cases short
  | succ depth ih =>
    intro e canonical bare
    constructor
    · intro short
      exact Grammar.expression_print ih canonical (Expr.hasReadableAlias_of_bare bare)
        (Nat.le_of_lt_succ short)
    · intro short
      exact Grammar.expression_printOperand ih canonical bare (Nat.le_of_lt_succ short)

/-- **Canonical text is read back**: the parser reads the text of a canonical expression or
condition as the tree it was printed from. -/
theorem read_print :
    (∀ e : Expr, e.Canonical IsKeyword → e.HasReadableAlias → expression e.print none = .ok e)
      ∧ ∀ c : Condition, c.Canonical IsKeyword → condition c.print none = .ok c := by
  constructor
  · intro e canonical named
    exact Grammar.expression_print (reads_expressionWithin e.print.length) canonical named
      (Nat.le_refl _)
  · intro c canonical
    have read := Grammar.condition_print (reads_expressionWithin (c.print.length + 1)) canonical
      (Nat.le_succ _)
    rw [condition, bareCondition, read]
    rfl

section Sample

/-- A condition with a group in it, and a keyword in a literal. -/
def eligible : Condition :=
  .nested [
    (none, .simple (.field ⟨none, "age", none⟩) .ge (.scalar (.int 18) none)),
    (some .and, .nested [
      (none, .simple (.field ⟨some "user", "role", none⟩) .notLike (.scalar (.string "END") none)),
      (some .or, .simple (.field ⟨none, "guest", none⟩) .is (.scalar (.int (-1)) none))])]

/-- A case distinction with a chain inside a chain. -/
def price : Expr :=
  .case
    [(eligible, .math [
      (none, .field ⟨none, "net", none⟩),
      (some .mul, .math [
        (none, .scalar (.int 2) none),
        (some .sub, .func "SUM" true [.field ⟨none, "tax", none⟩] none)] none)] none)]
    (some (.scalar (.string "no \"price\"") none)) (some "total")

theorem canonical_name {name : String} (word : IsAsciiWord name.toList) :
    (Expr.field ⟨none, name, none⟩).Canonical IsKeyword :=
  .field word nofun

theorem canonical_eligible : eligible.Canonical IsKeyword := by
  have age : (Expr.field ⟨none, "age", none⟩).Canonical IsKeyword :=
    canonical_name (isAsciiWord_of_checked rfl)
  have guest : (Expr.field ⟨none, "guest", none⟩).Canonical IsKeyword :=
    canonical_name (isAsciiWord_of_checked rfl)
  have role : (Expr.field ⟨some "user", "role", none⟩).Canonical IsKeyword := by
    refine .field (isAsciiWord_of_checked rfl) ?_
    rintro table ⟨⟩
    exact isAsciiWord_of_checked rfl
  refine .nested (.simple .ge age rfl (.int 18 none) rfl) nofun (by simp) ?_
  intro child mem
  obtain rfl := List.mem_singleton.1 mem
  refine .nested (.simple .notLike role rfl (.string "END" none) rfl) nofun (by simp) ?_
  intro child mem
  obtain rfl := List.mem_singleton.1 mem
  exact .simple .is guest rfl (.int (-1) none) rfl

theorem canonical_price : price.Canonical IsKeyword := by
  have sum : (Expr.func "SUM" true [.field ⟨none, "tax", none⟩] none).Canonical IsKeyword := by
    have identifier : IsIdentifier "SUM".toList := isIdentifier_of_checked rfl
    refine .func none identifier (by decide +kernel) nofun ?_ (by simp [Expr.alias?])
    intro e mem
    obtain rfl := List.mem_singleton.1 mem
    exact canonical_name (isAsciiWord_of_checked rfl)
  have factor : (Expr.math [(none, .scalar (.int 2) none),
      (some .sub, .func "SUM" true [.field ⟨none, "tax", none⟩] none)] none).Canonical
        IsKeyword := by
    refine .math none (.int 2 none) rfl nofun (by simp) ?_ (by simp [Expr.alias?])
    intro operand mem
    obtain rfl := List.mem_singleton.1 mem
    exact sum
  have net : (Expr.field ⟨none, "net", none⟩).Canonical IsKeyword :=
    canonical_name (isAsciiWord_of_checked rfl)
  refine .case (some "total") nofun ?_ ?_ (by simp [Expr.alias?]) ?_ (by simp [Expr.alias?])
  · intro branch mem
    obtain rfl := List.mem_singleton.1 mem
    exact canonical_eligible
  · intro branch mem
    obtain rfl := List.mem_singleton.1 mem
    refine .math none net rfl nofun (by simp) ?_ (by simp [Expr.alias?])
    intro operand mem
    obtain rfl := List.mem_singleton.1 mem
    exact factor
  · rintro e ⟨⟩
    exact .string _ none

theorem read_print_price :
    expression price.print none = .ok price ∧ condition eligible.print none = .ok eligible := by
  have named : price.HasReadableAlias := by
    rintro name ⟨⟩
    exact ⟨isIdentifier_of_checked rfl, by decide +kernel⟩
  exact ⟨read_print.1 price canonical_price named, read_print.2 eligible canonical_eligible⟩

end Sample

section Keywords

/-- The function names that the parser takes for keywords, written as the keywords are. -/
def IsUpperKeyword (t : Text) : Prop :=
  t = caseKeyword ∨ t = endKeyword

instance (t : Text) : Decidable (IsUpperKeyword t) :=
  inferInstanceAs (Decidable (_ ∨ _))

/-- `CASE WHEN {a} = 1 THEN 2 END AS end`. -/
def endAlias : Expr :=
  .case [(.simple (.field ⟨none, "a", none⟩) .eq (.scalar (.int 1) none), .scalar (.int 2) none)]
    none (some "end")

/-- `case({a}) + end({a})`. -/
def keywordCalls : Expr :=
  .math [
    (none, .func "case" false [.field ⟨none, "a", none⟩] none),
    (some .add, .func "end" false [.field ⟨none, "a", none⟩] none)] none

/-- Keywords count in any case: the alias `end` is taken for the end of a case distinction, and two
calls of `case` and `end` for a case distinction. -/
theorem expression_print_keywords :
    (endAlias.Canonical IsUpperKeyword
        ∧ (∀ name ∈ endAlias.alias?, IsIdentifier name.toList ∧ ¬ IsUpperKeyword name.toList)
        ∧ expression endAlias.print none ≠ .ok endAlias)
      ∧ keywordCalls.Canonical IsUpperKeyword ∧ keywordCalls.alias? = none
        ∧ expression keywordCalls.print none ≠ .ok keywordCalls := by
  have field : (Expr.field ⟨none, "a", none⟩).Canonical IsUpperKeyword :=
    .field (isAsciiWord_of_checked rfl) nofun
  have arguments : ∀ e ∈ [Expr.field ⟨none, "a", none⟩], e.Canonical IsUpperKeyword := by
    intro e mem
    obtain rfl := List.mem_singleton.1 mem
    exact field
  refine ⟨⟨?_, ?_, ?_⟩, ?_, rfl, ?_⟩
  · refine .case (some "end") nofun ?_ ?_ (by simp [Expr.alias?]) nofun nofun
    · intro branch mem
      obtain rfl := List.mem_singleton.1 mem
      exact .simple .eq field rfl (.int 1 none) rfl
    · intro branch mem
      obtain rfl := List.mem_singleton.1 mem
      exact .int 2 none
  · rintro name ⟨⟩
    exact ⟨isIdentifier_of_checked rfl, by decide +kernel⟩
  · intro read
    have unnamed : (expression endAlias.print none).toOption.bind Expr.alias? = none := by
      decide +kernel
    rw [read] at unnamed
    cases unnamed
  · have caseName : IsIdentifier "case".toList := isIdentifier_of_checked rfl
    have endName : IsIdentifier "end".toList := isIdentifier_of_checked rfl
    have first : (Expr.func "case" false [.field ⟨none, "a", none⟩] none).Canonical
        IsUpperKeyword :=
      .func none caseName (by decide +kernel) nofun arguments (by simp [Expr.alias?])
    refine .math none first rfl nofun (by simp) ?_ (by simp [Expr.alias?])
    intro operand mem
    obtain rfl := List.mem_singleton.1 mem
    exact .func none endName (by decide +kernel) nofun arguments (by simp [Expr.alias?])
  · intro read
    have raw : (expression keywordCalls.print none).toOption.map Expr.isRaw = some true := by
      decide +kernel
    rw [read] at raw
    cases raw

end Keywords

end Parser

end RecordMapper
