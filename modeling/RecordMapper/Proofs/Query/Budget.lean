import RecordMapper.Proofs.Query.Asked
import RecordMapper.Proofs.Query.Weight
import RecordMapper.Query.Parser

/-!
The parser always ends.

Whatever weight is given to characters, the grammar asks `parse` for nothing but texts that are
lighter than the one at hand (`Grammar.Asks.lt`): two readers that agree on the lighter texts lead
every rule to the same result (`Grammar.expression_congr`). So the weight of a text bounds how deep
the parser goes. **With a budget of one more than the bytes of the text it never reaches the
bottom**, a larger budget changes nothing, and every text read inside another one has fewer bytes
(`Parser.reads_smaller`).
-/

namespace RecordMapper

open Text

namespace Grammar

/-! ### What is asked for -/

variable {bindings : Option Bindings} {parse parse' : Text → Result Expr} {w : Weight}
  {t u x : Text}

/-- A side of what is compared is lighter than the condition. -/
theorem lt_of_hasSide (compares : Connected.Compares t x) (hasSide : CmpOp.HasSide x u) :
    w.of u < w.of t := by
  obtain ⟨token, mem, has⟩ := compares
  obtain ⟨left, op, right, found, -, -, rfl | rfl⟩ := hasSide
  all_goals
    have le := (Connected.each_tokens w t token mem).of_hasText has
    obtain ⟨first, second⟩ := CmpOp.lt_of_split? w found
  · exact Nat.lt_of_le_of_lt (trim_le w left) (Nat.lt_of_lt_of_le first le)
  · exact Nat.lt_of_le_of_lt (trim_le w right) (Nat.lt_of_lt_of_le second le)

/-- What stands behind a keyword of a case distinction is lighter than it. -/
theorem lt_of_standsBehind {c : Form.Case} (found : Form.case? t = some c) {ahead : List Text}
    (stands : CaseBody.StandsBehind ahead u (CaseBody.texts c.body)) : w.of u < w.of t := by
  obtain ⟨-, keyword, -, here⟩ := stands
  have among : u ∈ CaseBody.texts c.body := here.subset (by simp)
  obtain ⟨token, mem, rfl⟩ := List.mem_map.1 among
  exact CaseBody.lt_of_mem_tokens w found mem

/-- **What is asked for is lighter than the text.** -/
theorem Asks.lt (asks : Asks t u) : w.of u < w.of t := by
  cases asks with
  | unwrapped _ single other => exact Chain.lt_of_unwrapped w single other
  | operand several mem _ =>
    obtain ⟨texts, found, -⟩ := Chain.exists_texts (Form.splitAlias t).1
    rw [found, List.length_map] at several
    rw [found] at mem
    obtain ⟨_, member, same⟩ := List.mem_map.1 mem
    cases same
    exact Nat.lt_of_lt_of_le (Chain.lt_of_operand w found (by omega) member)
      (Form.le_of_splitAlias w t)
  | @argument call _ found mem =>
    have inside := (FieldList.isInfix_of_mem_items mem).trans call.isInfix_list
    exact Nat.lt_of_le_of_lt (w.le_of_sublist inside.sublist) (Form.lt_of_call? w found)
  | value found _ isValue => exact lt_of_standsBehind found isValue
  | side compares hasSide =>
    obtain ⟨c, v, found, -, isCondition, compares⟩ := compares
    exact Nat.lt_trans (lt_of_hasSide compares hasSide) (lt_of_standsBehind found isCondition)

/-- **A condition depends on lighter texts only.** -/
theorem condition_congr (agree : ∀ u, w.of u < w.of t → parse u = parse' u) :
    condition bindings parse t = condition bindings parse' t :=
  condition_of_asked fun _ compares =>
    ⟨rfl, fun u hasSide => agree u (lt_of_hasSide compares hasSide)⟩

/-- **A list depends on texts that are no heavier.** -/
theorem fieldList_congr (agree : ∀ u, w.of u ≤ w.of t → parse u = parse' u) :
    fieldList parse t = fieldList parse' t :=
  fieldList_of_asked fun i mem => agree i (FieldList.le_of_mem_items w mem)

/-- **An expression depends on texts that are lighter than it is without blanks around it.** -/
theorem expression_congr (agree : ∀ u, w.of u < w.of t.trim → parse u = parse' u) :
    expression bindings parse t = expression bindings parse' t :=
  expression_of_asked rfl rfl (fun _ _ => rfl) fun u asks => agree u asks.lt

end Grammar

/-! ### Budgets -/

namespace Parser

/-- Reads an expression with a budget: `bottom` reads what is nested as deep as that. -/
def expressionAbove (bindings : Option Bindings) (bottom : Text → Result Expr) :
    (budget : Nat) → Text → Result Expr
  | 0 => bottom
  | budget + 1 => Grammar.expression bindings (expressionAbove bindings bottom budget)

theorem expressionWithin_eq (bindings : Option Bindings) (depth : Nat) :
    expressionWithin bindings depth
      = expressionAbove bindings (fun _ => Error.invalidExpression .tooDeep) depth := by
  induction depth with
  | zero => rfl
  | succ depth ih =>
    funext t
    rw [expressionWithin, expressionAbove, ih]

variable {bindings : Option Bindings} (w : Weight)

/-- A text that is lighter than two budgets is read alike with both, whatever is below. -/
theorem expressionAbove_eq {n : Nat} {t : Text} (light : w.of t < n) {budget budget' : Nat}
    (enough : n ≤ budget) (enough' : n ≤ budget') (bottom bottom' : Text → Result Expr) :
    expressionAbove bindings bottom budget t = expressionAbove bindings bottom' budget' t := by
  induction n generalizing t budget budget' with
  | zero => cases light
  | succ n ih =>
    obtain ⟨budget, rfl⟩ := Nat.exists_eq_succ_of_ne_zero (Nat.ne_zero_of_lt enough)
    obtain ⟨budget', rfl⟩ := Nat.exists_eq_succ_of_ne_zero (Nat.ne_zero_of_lt enough')
    refine Grammar.expression_congr (w := w) fun u less => ?_
    have trimmed := trim_le w t
    exact ih (by omega) (Nat.le_of_succ_le_succ enough) (Nat.le_of_succ_le_succ enough')

/-- A depth that is enough for a longer text is enough. -/
theorem expressionWithin_eq_expression {t : Text} {depth : Nat} (enough : t.length < depth) :
    expressionWithin bindings depth t = expression t bindings := by
  rw [expression, expressionWithin_eq, expressionWithin_eq]
  refine expressionAbove_eq .chars (n := t.length + 1) ?_ enough (Nat.le_refl _) _ _
  rw [Weight.of_chars]
  exact Nat.lt_succ_self _

theorem bareCondition_eq {t : Text} (depth : Nat) (enough : t.length < depth) :
    bareCondition t bindings = Grammar.condition bindings (expressionWithin bindings depth) t := by
  refine Grammar.condition_congr (w := .chars) fun u less => ?_
  rw [Weight.of_chars, Weight.of_chars] at less
  rw [expressionWithin_eq_expression (Nat.lt_succ_of_lt less),
    expressionWithin_eq_expression (Nat.lt_trans less enough)]

/-- **What is read inside a text is read as it would be for itself.** -/
theorem expression_eq_grammar (t : Text) :
    expression t bindings = Grammar.expression bindings (fun u => expression u bindings) t := by
  refine Grammar.expression_congr (w := .chars) fun u less => expressionWithin_eq_expression ?_
  have le := Nat.lt_of_lt_of_le less (trim_le .chars t)
  rw [Weight.of_chars, Weight.of_chars] at le
  exact le

theorem bareCondition_eq_grammar (t : Text) :
    bareCondition t bindings = Grammar.condition bindings (fun u => expression u bindings) t := by
  refine Grammar.condition_congr (w := .chars) fun u less => expressionWithin_eq_expression ?_
  rw [Weight.of_chars, Weight.of_chars] at less
  exact Nat.lt_succ_of_lt less

theorem fields_eq_grammar (t : Text) :
    fields t bindings = Grammar.fieldList (fun u => expression u bindings) t := by
  refine Grammar.fieldList_congr (w := .chars) fun u le => expressionWithin_eq_expression ?_
  rw [Weight.of_chars, Weight.of_chars] at le
  exact Nat.lt_succ_of_le le

/-- Blanks around an expression do not matter. -/
theorem expression_trim (t : Text) : expression t.trim bindings = expression t bindings := by
  rw [expression_eq_grammar, expression_eq_grammar t, Grammar.expression_trim t]

/-- Reads a list of expressions with a budget. -/
def fieldsAbove (bindings : Option Bindings) (bottom : Text → Result Expr) (budget : Nat)
    (t : Text) : Result (List Expr) :=
  Grammar.fieldList (expressionAbove bindings bottom budget) t

/-- Reads a condition with a budget. -/
def conditionAbove (bindings : Option Bindings) (bottom : Text → Result Expr) (budget : Nat)
    (t : Text) : Result Condition :=
  Error.within (.adhoc ("failed to parse condition `" ++ String.ofList t ++ "`"))
    (Grammar.condition bindings (expressionAbove bindings bottom budget) t)

/-- **The parser ends: what it reads inside a text is smaller, and a budget of one more than the
bytes of the text is never exhausted.** A rule for expressions depends on `parse` at texts with
fewer bytes than the text without blanks around it, so one that fails on all others goes unnoticed;
so do the conditions of a case distinction, which are read from tokens with fewer bytes, and the
sides of the comparisons in a condition. Whatever stands at the bottom, a sufficient budget leads to
the result of the parser. -/
theorem reads_smaller (t : Text) (bindings : Option Bindings) :
    (∀ parse parse' : Text → Result Expr,
      (∀ u, u.bytes.length < t.trim.bytes.length → parse u = parse' u) →
        Grammar.expression bindings parse t = Grammar.expression bindings parse' t)
    ∧ (∀ c, Form.case? t.trim = some c → ∀ token ∈ CaseBody.tokens c.body,
        token.print.bytes.length < t.trim.bytes.length)
    ∧ (∀ parse parse' : Text → Result Expr,
      (∀ u, u.bytes.length < t.bytes.length → parse u = parse' u) →
        Grammar.condition bindings parse t = Grammar.condition bindings parse' t)
    ∧ ∀ bottom budget, t.bytes.length < budget →
      expressionAbove bindings bottom budget t = expression t bindings
        ∧ fieldsAbove bindings bottom budget t = fields t bindings
        ∧ conditionAbove bindings bottom budget t = condition t bindings := by
  simp only [← Weight.of_bytes]
  refine ⟨fun parse parse' => Grammar.expression_congr,
    fun c found token mem => CaseBody.lt_of_mem_tokens .bytes found mem,
    fun parse parse' => Grammar.condition_congr, fun bottom budget enough => ?_⟩
  have length := Weight.bytes.length_le t
  have same : ∀ u, Weight.chars.of u ≤ Weight.chars.of t →
      expressionAbove bindings bottom budget u = expressionWithin bindings (t.length + 1) u := by
    intro u le
    rw [Weight.of_chars, Weight.of_chars] at le
    rw [expressionWithin_eq]
    refine expressionAbove_eq .chars (n := t.length + 1) ?_ (by omega) (Nat.le_refl _) _ _
    rw [Weight.of_chars]
    omega
  refine ⟨same t (Nat.le_refl _), Grammar.fieldList_congr same, ?_⟩
  rw [conditionAbove, condition, bareCondition,
    Grammar.condition_congr (w := .chars) fun u less => same u (Nat.le_of_lt less)]

end Parser

end RecordMapper
