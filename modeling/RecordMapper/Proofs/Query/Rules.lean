import RecordMapper.Proofs.Query.Comparison
import RecordMapper.Proofs.Query.Form
import RecordMapper.Proofs.Query.Tokens
import RecordMapper.Query.Grammar

/-!
The rules of the grammar on printed trees.

Each rule reads the text of a tree of its form, if `parse` reads the shorter texts inside it
(`Grammar.Reads`). So a condition is read from its tokens, a chain from its operands, a call from
its arguments and a case distinction from its parts.
-/

namespace RecordMapper.Grammar

open Text

/-- `parse` reads the canonical expressions whose text is shorter than `n`. -/
def Reads (parse : Text → Result Expr) (n : Nat) : Prop :=
  ∀ e : Expr, e.Canonical IsKeyword → e.alias? = none →
    (e.print.length < n → parse e.print = .ok e)
      ∧ (e.printOperand.length < n → parse e.printOperand = .ok e)

variable {parse : Text → Result Expr} {n : Nat}

/-! ### Conditions -/

/-- A comparison that is split between two sides is read from these. -/
theorem comparison_of_split? {t left right : Text} {op : CmpOp}
    (split : CmpOp.split? t = some (left, op, right)) (nonempty : t.trim.isEmpty = false)
    (nonempty_left : left.trim.isEmpty = false) (nonempty_right : right.trim.isEmpty = false) :
    comparison none parse t = (do
      let lhs ← parse left.trim
      let rhs ← parse right.trim
      .ok (.simple lhs op rhs)) := by
  unfold comparison
  simp only [substitute, nonempty, split, nonempty_left, nonempty_right]
  rfl

/-- Blanks between the operator and trimmed sides do not matter. -/
theorem comparison_of_sides {t lhs rhs : Text} {op : CmpOp}
    (split : CmpOp.split? t = some (lhs ++ [' '], op, ' ' :: rhs)) (whole : IsTrimmed t)
    (left : IsTrimmed lhs) (right : IsTrimmed rhs) :
    comparison none parse t = (do
      let l ← parse lhs
      let r ← parse rhs
      .ok (.simple l op r)) := by
  have nonempty : t.trim.isEmpty = false := by
    rw [whole.trim_eq]
    exact whole.isEmpty_eq_false
  have trim_left : trim (lhs ++ [' ']) = lhs :=
    @IsTrimmed.trim_append _ left [] [' '] nofun (by simp [isBlank])
  have trim_right : trim (' ' :: rhs) = rhs := by
    have trimmed : trim ([' '] ++ (rhs ++ [])) = rhs := right.trim_append (by simp [isBlank]) nofun
    simpa using trimmed
  have nonempty_left := left.isEmpty_eq_false
  have nonempty_right := right.isEmpty_eq_false
  rw [comparison_of_split? split nonempty (by rwa [trim_left]) (by rwa [trim_right]), trim_left,
    trim_right]

/-- A comparison is read back. -/
theorem comparison_print (reads : Reads parse n) {lhs rhs : Expr} (op : CmpOp)
    (left : lhs.Canonical IsKeyword) (bare_left : lhs.alias? = none)
    (right : rhs.Canonical IsKeyword) (bare_right : rhs.alias? = none)
    (short : (Condition.print (.simple lhs op rhs)).length ≤ n) :
    comparison none parse (Condition.print (.simple lhs op rhs)) = .ok (.simple lhs op rhs) := by
  have linked_left := (left.shape bare_left).2
  have linked_right := (right.shape bare_right).2
  have whole := (chained_comparison op linked_left linked_right).linked.isTrimmed
  have split : Condition.print (.simple lhs op rhs)
      = lhs.print ++ ' ' :: (op.text ++ ' ' :: rhs.print) := by
    simp [Condition.print]
  have found := CmpOp.split?_append linked_left linked_right op
  rw [← split] at found
  have lengths := congrArg List.length split
  simp only [List.length_append, List.length_cons] at lengths
  have read_left : parse lhs.print = .ok lhs := (reads lhs left bare_left).1 (by omega)
  have read_right : parse rhs.print = .ok rhs := (reads rhs right bare_right).1 (by omega)
  rw [comparison_of_sides found whole linked_left.isTrimmed linked_right.isTrimmed, read_left,
    read_right]
  rfl

/-- No condition is a connector: it is longer than one. -/
theorem connector?_token {c : Condition} (canonical : c.Canonical IsKeyword) :
    connector? c.token = none := by
  cases canonical with
  | nested _ _ _ _ => rfl
  | @simple lhs rhs op left bare_left right bare_right =>
    have left_length := List.length_pos_iff.2 (left.shape bare_left).2.isTrimmed.nonempty
    have right_length := List.length_pos_iff.2 (right.shape bare_right).2.isTrimmed.nonempty
    have op_length : 0 < op.text.length := by cases op <;> decide
    have differ : ∀ connector : BoolOp,
        sameLetters connector.keyword (Condition.print (.simple lhs op rhs)) = false := by
      intro connector
      have small : connector.keyword.length ≤ 3 := by cases connector <;> decide
      rw [Bool.eq_false_iff]
      intro same
      have lengths := (sameLetters_iff.1 same).length_eq
      simp only [Condition.print, List.length_append, List.length_cons] at lengths
      omega
    show BoolOp.ofKeyword? (Condition.print (.simple lhs op rhs)) = none
    simp [BoolOp.ofKeyword?, differ]

theorem connector?_keyword (op : BoolOp) : connector? (.text op.keyword) = some op := by
  cases op <;> rfl

/-- Conditions with connectors in front of them are read one by one. -/
theorem joined_childTokens {rest : List (Option BoolOp × Condition)}
    (operators : ∀ child ∈ rest, child.1.isSome = true)
    (canonical : ∀ child ∈ rest, child.2.Canonical IsKeyword)
    (read : ∀ child ∈ rest, conditionOfToken none parse child.2.token = .ok child.2) :
    joined none parse none (childTokens rest) = .ok rest := by
  induction rest with
  | nil =>
    rw [childTokens, joined]
  | cons child rest ih =>
    obtain ⟨op, c⟩ := child
    obtain ⟨op, rfl⟩ := Option.isSome_iff_exists.1 (operators _ (List.mem_cons_self ..))
    have others := ih (fun child mem => operators child (List.mem_cons_of_mem _ mem))
      (fun child mem => canonical child (List.mem_cons_of_mem _ mem))
      (fun child mem => read child (List.mem_cons_of_mem _ mem))
    have first : conditionOfToken none parse c.token = .ok c := read _ (List.mem_cons_self ..)
    have noConnector : connector? c.token = none :=
      connector?_token (canonical _ (List.mem_cons_self ..))
    show joined none parse none (.text op.keyword :: c.token :: childTokens rest) = _
    rw [joined.eq_def]
    simp only [connector?_keyword]
    rw [joined.eq_def]
    simp only [noConnector, first, others]
    rfl

/-- The tokens of a group are read as the group. -/
theorem conditionOfTokens_childTokens {first : Condition} {rest : List (Option BoolOp × Condition)}
    (head : first.Canonical IsKeyword) (more : rest ≠ [])
    (operators : ∀ child ∈ rest, child.1.isSome = true)
    (canonical : ∀ child ∈ rest, child.2.Canonical IsKeyword)
    (read_first : conditionOfToken none parse first.token = .ok first)
    (read : ∀ child ∈ rest, conditionOfToken none parse child.2.token = .ok child.2) :
    conditionOfTokens none parse (childTokens ((none, first) :: rest))
      = .ok (.nested ((none, first) :: rest)) := by
  have others := joined_childTokens operators canonical read
  have noConnector := connector?_token head
  obtain ⟨child, rest, rfl⟩ := List.exists_cons_of_ne_nil more
  obtain ⟨op, c⟩ := child
  obtain ⟨op, rfl⟩ := Option.isSome_iff_exists.1 (operators _ (List.mem_cons_self ..))
  show conditionOfTokens none parse
    (first.token :: .text op.keyword :: (c.token :: childTokens rest)) = _
  rw [conditionOfTokens, noConnector]
  · simp only [read_first]
    show (joined none parse none (childTokens ((some op, c) :: rest))).bind _ = _
    rw [others]
    rfl
  · nofun

theorem length_print_le_printChild (c : Condition) : c.print.length ≤ c.printChild.length := by
  cases c with
  | simple _ _ _ => exact Nat.le_refl _
  | nested children =>
    simp only [Condition.print, Condition.printChild, List.length_cons, List.length_append]
    omega

/-- The text of a child is no longer than that of the group. -/
theorem length_child_le {child : Option BoolOp × Condition}
    {children : List (Option BoolOp × Condition)} (mem : child ∈ children) :
    child.2.print.length ≤ (Condition.print (.nested children)).length := by
  rw [Condition.print]
  exact Nat.le_trans (length_print_le_printChild child.2) (Connected.length_printChild_le mem)

/-- **A condition is read from its token.** -/
theorem conditionOfToken_token (reads : Reads parse n) {c : Condition} :
    c.Canonical IsKeyword → c.print.length ≤ n → conditionOfToken none parse c.token = .ok c
  | .simple op left bare_left right bare_right, short => by
    show conditionOfToken none parse (.text _) = _
    rw [conditionOfToken]
    exact comparison_print reads op left bare_left right bare_right short
  | @Condition.Canonical.nested _ first rest head more operators children, short => by
    show conditionOfToken none parse (.nested _) = _
    rw [conditionOfToken]
    have shorter := length_child_le (List.mem_cons_self (a := (none, first)) (l := rest))
    have read_first := conditionOfToken_token reads head (Nat.le_trans shorter short)
    refine conditionOfTokens_childTokens head more operators children read_first ?_
    intro child mem
    exact conditionOfToken_token reads (children child mem)
      (Nat.le_trans (length_child_le (List.mem_cons_of_mem _ mem)) short)

/-- **A condition is read back**, if the expressions in it are. -/
theorem condition_print (reads : Reads parse n) {c : Condition} (canonical : c.Canonical IsKeyword)
    (short : c.print.length ≤ n) : condition none parse c.print = .ok c := by
  have read := conditionOfToken_token reads canonical short
  rw [condition]
  cases c with
  | simple lhs op rhs =>
    rw [Connected.tokens_comparison canonical, conditionOfTokens]
    exact read
  | nested children =>
    rw [Connected.tokens_nested canonical]
    have unfolded : conditionOfToken none parse (.nested (childTokens children))
        = conditionOfTokens none parse (childTokens children) := by
      rw [conditionOfToken]
    exact unfolded.symm.trans read

/-! ### Chains -/

/-- An operand is no sign. -/
theorem ofSymbol?_of_ending {x : Text} (ending : HasEnding x) : MathOp.ofSymbol? x = none := by
  rw [MathOp.ofSymbol?, List.find?_eq_none]
  intro op _
  have other : x ≠ [op.symbol] := ending.ne (by cases op <;> decide +kernel)
  simpa using other

theorem ofSymbol?_symbol (op : MathOp) : MathOp.ofSymbol? [op.symbol] = some op := by
  cases op <;> rfl

theorem operand_printOperand {e : Expr} (solid : Solid e.printOperand)
    (read : parse e.printOperand = .ok e) (whole : Text) :
    operand parse whole e.printOperand = .ok e := by
  rw [operand, ofSymbol?_of_ending solid.ending]
  exact read

/-- Operands with signs in front of them are read one by one. -/
theorem links_operandTexts {rest : List (Option MathOp × Expr)} (whole : Text)
    (operators : ∀ operand ∈ rest, operand.1.isSome = true)
    (solid : ∀ operand ∈ rest, Solid operand.2.printOperand)
    (read : ∀ operand ∈ rest, parse operand.2.printOperand = .ok operand.2) :
    links parse whole (Chain.operandTexts rest) = .ok rest := by
  induction rest with
  | nil => rfl
  | cons first rest ih =>
    obtain ⟨op, e⟩ := first
    obtain ⟨op, rfl⟩ := Option.isSome_iff_exists.1 (operators _ (List.mem_cons_self ..))
    have others := ih (fun operand mem => operators operand (List.mem_cons_of_mem _ mem))
      (fun operand mem => solid operand (List.mem_cons_of_mem _ mem))
      (fun operand mem => read operand (List.mem_cons_of_mem _ mem))
    have value := operand_printOperand (solid _ (List.mem_cons_self ..))
      (read _ (List.mem_cons_self ..)) whole
    show links parse whole ([op.symbol] :: e.printOperand :: Chain.operandTexts rest) = _
    rw [links, ofSymbol?_symbol]
    simp only [value, others]
    rfl

theorem length_operandTexts {rest : List (Option MathOp × Expr)}
    (operators : ∀ operand ∈ rest, operand.1.isSome = true) :
    (Chain.operandTexts rest).length = 2 * rest.length := by
  induction rest with
  | nil => rfl
  | cons operand rest ih =>
    obtain ⟨op, e⟩ := operand
    obtain ⟨op, rfl⟩ := Option.isSome_iff_exists.1 (operators _ (List.mem_cons_self ..))
    have others := ih fun operand mem => operators operand (List.mem_cons_of_mem _ mem)
    show (Chain.operandTexts rest).length + 2 = _
    rw [others, List.length_cons]
    omega

theorem mapM_text? (texts : List Text) : (texts.map Token.text).mapM Token.text? = some texts := by
  induction texts with
  | nil => rfl
  | cons x texts ih => simp [ih, Token.text?]

/-- Tokens that all have a text are flat. -/
theorem eq_map_of_mapM_text? {tokens : List Token} {texts : List Text}
    (found : tokens.mapM Token.text? = some texts) : tokens = texts.map Token.text := by
  induction tokens generalizing texts with
  | nil =>
    cases found
    rfl
  | cons token tokens ih =>
    rw [List.mapM_cons] at found
    obtain ⟨t, first, more⟩ := Option.bind_eq_some_iff.1 found
    obtain ⟨others, rest, same⟩ := Option.bind_eq_some_iff.1 more
    cases same
    cases token with
    | text t' =>
      cases first
      rw [List.map_cons, ih rest]
    | nested tokens => cases first

/-- An odd number of texts are operands with signs between them. -/
theorem chain?_eq_of_texts {t body : Text} {a : Option Text} (split : Form.splitAlias t = (body, a))
    {x : Text} {texts : List Text} (tokens : Chain.tokens body = (x :: texts).map .text)
    (many : texts ≠ []) (even : texts.length % 2 = 0) :
    chain? parse t = Except.map some (do
      let first ← operand parse t x
      let others ← links parse t texts
      .ok (.math ((none, first) :: others) (a.map String.ofList))) := by
  have positive := List.length_pos_iff.2 many
  have length : (Chain.tokens body).length = texts.length + 1 := by
    rw [tokens, List.length_map, List.length_cons]
  have long : ¬ (Chain.tokens body).length < 3 := by omega
  have odd : ¬ (Chain.tokens body).length % 2 = 0 := by omega
  rw [chain?, split]
  simp only [if_neg long, if_neg odd]
  rw [tokens, mapM_text?]
  dsimp only
  cases operand parse t x with
  | error e => rfl
  | ok first =>
    show (links parse t texts).bind _ = Except.map some ((links parse t texts).bind _)
    cases links parse t texts <;> rfl

theorem chain?_of_texts {t body : Text} {a : Option Text} (split : Form.splitAlias t = (body, a))
    {x : Text} {texts : List Text} (tokens : Chain.tokens body = (x :: texts).map .text)
    (many : texts ≠ []) (even : texts.length % 2 = 0) {e : Expr}
    (value : operand parse t x = .ok e) {rest : List (Option MathOp × Expr)}
    (others : links parse t texts = .ok rest) :
    chain? parse t = .ok (some (.math ((none, e) :: rest) (a.map String.ofList))) := by
  rw [chain?_eq_of_texts split tokens many even, value]
  simp only [others]
  rfl

section Chains

variable {first : Expr} {rest : List (Option MathOp × Expr)} (head : Solid first.printOperand)
  (more : rest ≠ []) (operators : ∀ operand ∈ rest, operand.1.isSome = true)
  (solid : ∀ operand ∈ rest, Solid operand.2.printOperand)
  (read_first : parse first.printOperand = .ok first)
  (read : ∀ operand ∈ rest, parse operand.2.printOperand = .ok operand.2)
include head more operators solid read_first read

/-- **A chain is read from its operands and signs.** -/
theorem chain?_of_tokens {t body : Text} {a : Option Text} (split : Form.splitAlias t = (body, a))
    (tokens : Chain.tokens body = (first.printOperand :: Chain.operandTexts rest).map .text) :
    chain? parse t = .ok (some (.math ((none, first) :: rest) (a.map String.ofList))) := by
  have texts := length_operandTexts operators
  have positive := List.length_pos_iff.2 more
  refine chain?_of_texts split tokens ?_ (by omega) (operand_printOperand head read_first t)
    (links_operandTexts t operators solid read)
  rintro none
  rw [none, List.length_nil] at texts
  omega

end Chains

/-- One token that is the whole text is no chain. -/
theorem chain?_of_whole {t body : Text} {a : Option Text} (split : Form.splitAlias t = (body, a))
    (single : Chain.tokens body = [.text body]) : chain? parse t = .ok none := by
  rw [chain?, split]
  simp only [single]
  cases a with
  | none => simp
  | some a => rfl

/-- A solid text that is no group is no chain, with an alias or without. -/
theorem chain?_of_solid {t x : Text} {a : Option Text} (split : Form.splitAlias t = (x, a))
    (solid : Solid x) (unwrapped : unwrapped? x = none) : chain? parse t = .ok none :=
  chain?_of_whole split (Chain.tokens_solid solid unwrapped)

/-! ### Calls -/

theorem mapM_printArguments {args : List Expr} (read : ∀ e ∈ args, parse e.print = .ok e) :
    (printArguments args).mapM parse = .ok args := by
  induction args with
  | nil => rfl
  | cons e args ih =>
    have others := ih fun e mem => read e (List.mem_cons_of_mem _ mem)
    rw [printArguments, List.mapM_cons, read e (List.mem_cons_self ..)]
    show ((printArguments args).mapM parse).bind _ = _
    rw [others]
    rfl

theorem linked_of_mem_printArguments {args : List Expr}
    (linked : ∀ e ∈ args, Linked signs e.print) : ∀ x ∈ printArguments args, Linked signs x := by
  induction args with
  | nil => exact nofun
  | cons e args ih =>
    intro x mem
    rw [printArguments] at mem
    rcases List.mem_cons.1 mem with rfl | mem
    · exact linked e (List.mem_cons_self ..)
    · exact ih (fun e mem => linked e (List.mem_cons_of_mem _ mem)) x mem

/-- **The arguments of a call are read back.** -/
theorem fieldList_join {args : List Expr} (linked : ∀ e ∈ args, Linked signs e.print)
    (read : ∀ e ∈ args, parse e.print = .ok e) :
    fieldList parse (Text.join [',', ' '] (printArguments args)) = .ok args := by
  rw [fieldList, FieldList.items_join (linked_of_mem_printArguments linked)]
  exact mapM_printArguments read

/-- Joined arguments are trimmed: they start with the first argument and end with the last. -/
theorem isTrimmed_join {e : Expr} {args : List Expr}
    (linked : ∀ e' ∈ e :: args, Linked signs e'.print) :
    IsTrimmed (Text.join [',', ' '] (printArguments (e :: args))) := by
  induction args generalizing e with
  | nil =>
    rw [printArguments, printArguments, join_singleton]
    exact (linked e (List.mem_cons_self ..)).isTrimmed
  | cons e' args ih =>
    have first := (linked e (List.mem_cons_self ..)).isTrimmed
    have others := ih fun e mem => linked e (List.mem_cons_of_mem _ mem)
    rw [printArguments, printArguments, join_cons_cons, ← printArguments]
    exact first.append [',', ' '] others

/-- Arguments do not start with the word that asks for distinct ones. -/
theorem after?_distinctKeyword {x : Text} (linked : Linked signs x) (rest : Text) :
    after? true distinctKeyword (x ++ rest) = none := by
  have missed : ((after? true ['D', 'I', 'S', 'T', 'I', 'N', 'C', 'T'] (x ++ rest)).filter
      fun rest => rest.head?.any isAsciiBlank) = none :=
    filter_after?_linked rfl (by simp) rfl linked rest
  have split : distinctKeyword = ['D', 'I', 'S', 'T', 'I', 'N', 'C', 'T'] ++ [' '] := rfl
  rw [split, after?_append_left]
  cases found : after? true ['D', 'I', 'S', 'T', 'I', 'N', 'C', 'T'] (x ++ rest) with
  | none => rfl
  | some behind =>
    rw [found] at missed
    cases behind with
    | nil => rfl
    | cons c behind =>
      have differ : ' ' ≠ c := by
        rintro rfl
        cases missed
      rw [Option.bind_some, after?_cons_eq_none rfl differ]

section Calls

variable {args : List Expr} (linked : ∀ e ∈ args, Linked signs e.print)
include linked

theorem isTrimmed_parameters (distinct : Bool) (nonempty : args ≠ []) :
    IsTrimmed (printParameters distinct args) := by
  obtain ⟨e, args, rfl⟩ := List.exists_cons_of_ne_nil nonempty
  have trimmed := isTrimmed_join linked
  cases distinct with
  | false => exact trimmed
  | true =>
    have word : IsTrimmed ['D', 'I', 'S', 'T', 'I', 'N', 'C', 'T'] :=
      ⟨by simp, by simp [isBlank], by simp [isBlank]⟩
    exact word.append [' '] trimmed

theorem after?_distinctKeyword_join (nonempty : args ≠ []) :
    after? true distinctKeyword (Text.join [',', ' '] (printArguments args)) = none := by
  obtain ⟨e, args, rfl⟩ := List.exists_cons_of_ne_nil nonempty
  have first := linked e (List.mem_cons_self ..)
  cases args with
  | nil =>
    rw [printArguments, printArguments, join_singleton]
    have missed := after?_distinctKeyword first []
    rwa [List.append_nil] at missed
  | cons e' args =>
    rw [printArguments, printArguments, join_cons_cons, List.append_assoc]
    exact after?_distinctKeyword first _

/-- The form of a call gives its parameters and its alias. -/
theorem form_call?_print {name : String} {distinct : Bool} {a : Option String}
    (identifier : IsIdentifier name.toList) (named : ∀ name ∈ a, IsAsciiWord name.toList) :
    Form.call? (Expr.print (.func name distinct args a))
      = some ⟨name, printParameters distinct args, a⟩ := by
  have balanced := balanced_parameters distinct fun e mem =>
    ((linked e mem).mono signs_subset_connectors).balanced
  have split : Expr.print (.func name distinct args a)
      = name.toList ++ '(' :: (printParameters distinct args ++ ')' :: printAlias a) := by
    rw [print_func]
    simp
  rw [split, Form.call?_append identifier balanced, Form.ending?_printAlias named,
    String.ofList_toList]
  rfl

/-- **A call is read back**, whatever alias it has. -/
theorem call?_print {name : String} {distinct : Bool} {a : Option String}
    (identifier : IsIdentifier name.toList) (nonempty : distinct = true → args ≠ [])
    (read : ∀ e ∈ args, parse e.print = .ok e) (named : ∀ name ∈ a, IsAsciiWord name.toList) :
    call? parse (Expr.print (.func name distinct args a))
      = .ok (some (.func name distinct args a)) := by
  have list := fieldList_join linked read
  rw [call?, form_call?_print linked identifier named]
  simp only
  cases distinct with
  | true =>
    have trimmed := isTrimmed_parameters linked true (nonempty rfl)
    obtain ⟨e, args, rfl⟩ := List.exists_cons_of_ne_nil (nonempty rfl)
    have split : printParameters true (e :: args)
        = distinctKeyword ++ Text.join [',', ' '] (printArguments (e :: args)) := rfl
    have start := trimStart_of_start (isTrimmed_join linked).start
    rw [trimmed.trim_eq, split, after?_append]
    simp only [start, list]
    rfl
  | false =>
    have split : printParameters false args = Text.join [',', ' '] (printArguments args) := rfl
    by_cases empty : args = []
    · rw [empty]
      rfl
    · rw [(isTrimmed_parameters linked false empty).trim_eq, split,
        after?_distinctKeyword_join linked empty]
      simp only [list]
      rfl

end Calls

/-! ### Case distinctions -/

/-- A condition or a value is no keyword. -/
theorem contains_keywords_of_ending {x : Text} (ending : HasEnding x) :
    CaseBody.keywords.contains x = false := by
  have other : x ∉ CaseBody.keywords := by
    simp only [CaseBody.keywords, List.mem_cons, List.not_mem_nil, or_false, not_or]
    exact ⟨ending.ne (by decide +kernel), ending.ne (by decide +kernel),
      ending.ne (by decide +kernel)⟩
  simpa using other

/-- The default is read behind its keyword. -/
theorem caseParts_default (body : Text) {e : Expr} (ending : HasEnding e.print)
    (read : parse e.print = .ok e) :
    caseParts none parse body true [CaseBody.elseKeyword, e.print] = .ok ([], some e) := by
  have other : CaseBody.elseKeyword ≠ CaseBody.whenKeyword := by decide
  have value : caseOperand body CaseBody.elseKeyword [e.print] = .ok (e.print, []) := by
    rw [caseOperand, contains_keywords_of_ending ending]
    rfl
  have default : caseDefault parse body [e.print] = .ok e := by
    rw [caseDefault, value]
    show (parse e.print).bind _ = _
    rw [read]
    rfl
  rw [caseParts, if_neg other, if_pos ⟨rfl, rfl⟩, default]
  · rfl
  · nofun

/-- **The branches and the default are read from their tokens.** -/
theorem caseParts_partTexts (body : Text) {branches : List (Condition × Expr)}
    {default : Option Expr} {hasBranch : Bool} (some_branch : hasBranch = true ∨ branches ≠ [])
    (conditions : ∀ branch ∈ branches, HasEnding branch.1.print
      ∧ condition none parse branch.1.print = .ok branch.1)
    (values : ∀ branch ∈ branches, HasEnding branch.2.print
      ∧ parse branch.2.print = .ok branch.2)
    (otherwise : ∀ e ∈ default, HasEnding e.print ∧ parse e.print = .ok e) :
    caseParts none parse body hasBranch (CaseBody.partTexts branches default)
      = .ok (branches, default) := by
  induction branches generalizing hasBranch with
  | nil =>
    obtain rfl : hasBranch = true := some_branch.resolve_right fun differ => differ rfl
    cases default with
    | none => rfl
    | some e =>
      obtain ⟨ending, read⟩ := otherwise e rfl
      exact caseParts_default body ending read
  | cons branch branches ih =>
    obtain ⟨c, e⟩ := branch
    obtain ⟨c_ending, c_read⟩ := conditions _ (List.mem_cons_self ..)
    obtain ⟨e_ending, e_read⟩ := values _ (List.mem_cons_self ..)
    have others := ih (.inl rfl) (fun branch mem => conditions branch (List.mem_cons_of_mem _ mem))
      (fun branch mem => values branch (List.mem_cons_of_mem _ mem))
    show caseParts none parse body hasBranch (CaseBody.whenKeyword :: c.print
      :: CaseBody.thenKeyword :: e.print :: CaseBody.partTexts branches default) = _
    rw [caseParts, if_pos rfl]
    simp only [contains_keywords_of_ending c_ending, contains_keywords_of_ending e_ending]
    show (condition none parse c.print).bind _ = _
    rw [c_read]
    show (parse e.print).bind _ = _
    rw [e_read]
    show (caseParts none parse body true (CaseBody.partTexts branches default)).bind _ = _
    rw [others]
    rfl

/-- The parts of a case distinction start with a blank and the first keyword, and stand between its
own keywords. -/
theorem exists_parts {branches : List (Condition × Expr)} (default : Option Expr)
    (nonempty : branches ≠ []) :
    ∃ body, printBranches branches ++ printDefault default = ' ' :: 'W' :: body
      ∧ ∀ a, Expr.print (.case branches default a)
        = caseKeyword ++ ' ' :: 'W' :: (body ++ ' ' :: (endKeyword ++ printAlias a)) := by
  obtain ⟨branch, branches, rfl⟩ := List.exists_cons_of_ne_nil nonempty
  obtain ⟨c, e⟩ := branch
  refine ⟨_, rfl, fun a => ?_⟩
  rw [Expr.print]
  simp [printBranches]

/-- **A case distinction is read back**, whatever alias it has. -/
theorem case?_print {branches : List (Condition × Expr)} {default : Option Expr}
    {a : Option String} (nonempty : branches ≠ []) (named : Form.IsCaseAlias a)
    (conditions : ∀ branch ∈ branches, Linked connectors branch.1.print
      ∧ condition none parse branch.1.print = .ok branch.1)
    (values : ∀ branch ∈ branches, Linked connectors branch.2.print
      ∧ parse branch.2.print = .ok branch.2)
    (otherwise : ∀ e ∈ default, Linked connectors e.print ∧ parse e.print = .ok e) :
    case? none parse (Expr.print (.case branches default a))
      = .ok (some (.case branches default a)) := by
  have linked : ∀ branch ∈ branches, Linked connectors branch.1.print := by
    intro branch mem
    exact (conditions branch mem).1
  have linked_values : ∀ branch ∈ branches, Linked connectors branch.2.print := by
    intro branch mem
    exact (values branch mem).1
  have linked_default : ∀ e ∈ default, Linked connectors e.print := by
    intro e mem
    exact (otherwise e mem).1
  obtain ⟨body, split, whole⟩ := exists_parts default nonempty
  have balanced : Balanced ('W' :: body) := by
    rcases balanced_parts (fun branch mem => (linked branch mem).balanced) linked_values
      linked_default with none | ⟨body', split', balanced, -⟩
    · rw [none] at split
      cases split
    · rw [split] at split'
      cases split'
      exact balanced
  have form : Form.case? (Expr.print (.case branches default a))
      = some ⟨false, 'W' :: body, false, a⟩ := by
    rw [whole]
    exact Form.case?_append rfl body named
  have tokens := CaseBody.tokens_parts split balanced linked linked_values linked_default
  have texts : ((CaseBody.partTexts branches default).map Token.text).map Token.print
      = CaseBody.partTexts branches default := by
    rw [List.map_map]
    exact List.map_id _
  have parts : caseBody none parse ('W' :: body) = .ok (branches, default) := by
    rw [caseBody, tokens, texts]
    exact caseParts_partTexts ('W' :: body) (.inr nonempty)
      (fun branch mem => ⟨(linked branch mem).ending, (conditions branch mem).2⟩)
      (fun branch mem => ⟨(linked_values branch mem).ending, (values branch mem).2⟩)
      fun e mem => ⟨(linked_default e mem).ending, (otherwise e mem).2⟩
  rw [case?, form]
  simp only [parts]
  rfl

/-! ### The order of the rules -/

/-- Blanks around an expression do not matter. -/
theorem expression_trim {bindings : Option Bindings} (t : Text) :
    expression bindings parse t = expression bindings parse t.trim := by
  rw [expression, expression, trim_trim]

theorem bound?_none (t : Text) : bound? none t = none :=
  rfl

/-- The rule by which a trimmed text is read as an expression, and those that were tried before and
do not apply. -/
inductive ReadBy (bindings : Option Bindings) (parse : Text → Result Expr) (t : Text) : Expr → Prop
  | field {ref : FieldRef} (found : Form.field? t = some ref) : ReadBy bindings parse t (.field ref)
  | bound {e : Expr} (found : bound? bindings t = some e) : ReadBy bindings parse t e
  | scalar {e : Expr} (found : scalar? bindings t = .ok (some e)) : ReadBy bindings parse t e
  | chain {e : Expr} (found : chain? parse t = .ok (some e)) : ReadBy bindings parse t e
  | call {e : Expr} (noChain : chain? parse t = .ok none) (found : call? parse t = .ok (some e)) :
    ReadBy bindings parse t e
  | case {e : Expr} (noChain : chain? parse t = .ok none) (noCall : call? parse t = .ok none)
    (found : case? bindings parse t = .ok (some e)) : ReadBy bindings parse t e
  | raw (noChain : chain? parse t = .ok none) (noCall : call? parse t = .ok none)
    (noCase : case? bindings parse t = .ok none) :
    ReadBy bindings parse t (.raw (String.ofList (substitute bindings t)))

/-- **Every expression is read by one of the rules.** -/
theorem readBy_of_expression {bindings : Option Bindings} {t : Text} {e : Expr}
    (read : expression bindings parse t = .ok e) : ReadBy bindings parse t.trim e := by
  unfold expression at read
  generalize t.trim = t at read
  dsimp only at read
  split at read
  · cases read
  split at read
  · rename_i ref found
    cases read
    exact .field found
  split at read
  · rename_i e found
    cases read
    exact .bound found
  obtain ⟨scalar, literal, more⟩ := Result.exists_of_bind read
  cases scalar with
  | some e' =>
    cases more
    exact .scalar literal
  | none =>
  obtain ⟨chained, chain, more⟩ := Result.exists_of_bind more
  cases chained with
  | some e' =>
    cases more
    exact .chain chain
  | none =>
  obtain ⟨called, call, more⟩ := Result.exists_of_bind more
  cases called with
  | some e' =>
    cases more
    exact .call chain call
  | none =>
  obtain ⟨distinguished, distinction, more⟩ := Result.exists_of_bind more
  cases distinguished with
  | some e' =>
    cases more
    exact .case chain call distinction
  | none =>
    cases more
    exact .raw chain call distinction

section Found

variable {bindings : Option Bindings} {t : Text} {e : Expr}

/-! What a rule finds is an expression of its own kind. -/

theorem exists_var_of_bound? (found : bound? bindings t = some e) :
    ∃ name value, e = .var name value := by
  obtain ⟨b, -, found⟩ := Option.bind_eq_some_iff.1 found
  obtain ⟨name, -, found⟩ := Option.bind_eq_some_iff.1 found
  obtain ⟨value, -, rfl⟩ := Option.map_eq_some_iff.1 found
  exact ⟨name, value, rfl⟩

theorem exists_value_of_scalar? (found : scalar? bindings t = .ok (some e)) :
    ∃ value a, e = .scalar value a := by
  rw [scalar?] at found
  split at found
  · cases found
  · obtain ⟨value, -, same⟩ := Result.exists_of_bind found
    cases same
    exact ⟨_, _, rfl⟩
  · cases found
    exact ⟨_, _, rfl⟩

theorem exists_func_of_call? (found : call? parse t = .ok (some e)) :
    ∃ name distinct args a, e = .func name distinct args a := by
  rw [call?] at found
  split at found
  · cases found
  dsimp only at found
  split at found
  all_goals
    obtain ⟨args, -, same⟩ := Result.exists_of_bind found
    cases same
    exact ⟨_, _, _, _, rfl⟩

theorem exists_parts_of_case? (found : case? bindings parse t = .ok (some e)) :
    ∃ c branches default, Form.case? t = some c ∧ c.opened = c.closed
      ∧ e = .case branches default c.aliasName := by
  rw [case?] at found
  split at found
  · cases found
  rename_i c read
  split at found
  · cases found
  rename_i both
  obtain ⟨parts, -, same⟩ := Result.exists_of_bind found
  cases same
  exact ⟨c, _, _, read, not_not.1 both, rfl⟩

end Found

section Order

variable {bindings : Option Bindings} {t : Text} (trimmed : IsTrimmed t)
include trimmed

theorem expression_eq :
    expression bindings parse t = match Form.field? t with
      | some ref => .ok (.field ref)
      | none =>
        match bound? bindings t with
        | some e => .ok e
        | none => do
          if let some e ← scalar? bindings t then return e
          if let some e ← chain? parse t then return e
          if let some e ← call? parse t then return e
          if let some e ← case? bindings parse t then return e
          return .raw (String.ofList (substitute bindings t)) := by
  have nonempty := trimmed.isEmpty_eq_false
  rw [expression]
  simp only [trimmed.trim_eq, nonempty]
  rfl

theorem expression_of_field {ref : FieldRef} (found : Form.field? t = some ref) :
    expression bindings parse t = .ok (.field ref) := by
  rw [expression_eq trimmed, found]

variable (noField : Form.field? t = none)
include noField

theorem expression_of_bound {e : Expr} (found : bound? bindings t = some e) :
    expression bindings parse t = .ok e := by
  rw [expression_eq trimmed, noField, found]

variable (unbound : bound? bindings t = none)
include unbound

theorem expression_of_scalar {e : Expr} (found : scalar? bindings t = .ok (some e)) :
    expression bindings parse t = .ok e := by
  rw [expression_eq trimmed, noField, unbound, found]
  rfl

variable (noLiteral : Form.literal? (substitute bindings t) = none)
include noLiteral

omit trimmed noField unbound in
theorem scalar?_of_literal : scalar? bindings t = .ok none := by
  rw [scalar?, noLiteral]

/-- A text that is a chain is read as one, or not at all. -/
theorem expression_eq_of_chain {read : Result Expr} (found : chain? parse t = read.map some) :
    expression bindings parse t = read := by
  rw [expression_eq trimmed, noField, unbound, scalar?_of_literal noLiteral, found]
  cases read <;> rfl

theorem expression_of_chain {e : Expr} (found : chain? parse t = .ok (some e)) :
    expression bindings parse t = .ok e :=
  expression_eq_of_chain trimmed noField unbound noLiteral found

variable (noChain : chain? parse t = .ok none)
include noChain

theorem expression_of_call {e : Expr} (found : call? parse t = .ok (some e)) :
    expression bindings parse t = .ok e := by
  rw [expression_eq trimmed, noField, unbound, scalar?_of_literal noLiteral, noChain, found]
  rfl

theorem expression_of_case (noCall : call? parse t = .ok none) {e : Expr}
    (found : case? bindings parse t = .ok (some e)) : expression bindings parse t = .ok e := by
  rw [expression_eq trimmed, noField, unbound, scalar?_of_literal noLiteral, noChain, noCall, found]
  rfl

end Order

end RecordMapper.Grammar
