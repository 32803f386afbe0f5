import RecordMapper.Proofs.Query.Excerpts
import RecordMapper.Proofs.Query.Rules

/-!
What a reader of expressions asks for.

A rule of the grammar reads the texts inside the one at hand by `parse`. `Grammar.Asks` says which
texts these are: what is left of a chain that was unwrapped, the operands of a chain, the arguments
of a call, the values of a case distinction, and the sides of the comparisons in its conditions. The
bindings matter where a placeholder may stand: in the text itself and in what is compared. So **two
readers that agree on the texts that are asked for lead to the same result**, the same error
included, under bindings that put the same values in there (`Grammar.expression_of_asked`,
`Grammar.condition_of_asked`).
-/

namespace RecordMapper

open Text

theorem mapM_congr {α β : Type} {f g : α → Result β} {l : List α} (same : ∀ a ∈ l, f a = g a) :
    l.mapM f = l.mapM g := by
  induction l with
  | nil => rfl
  | cons a l ih =>
    obtain ⟨first, others⟩ := List.forall_mem_cons.1 same
    rw [List.mapM_cons, List.mapM_cons, first, ih others]

/-! ### Parts that are read further -/

/-- The text is flat in the token, at some depth of nesting. -/
inductive Token.HasText (x : Text) : Token → Prop
  | text : HasText x (.text x)
  | nested {tokens : List Token} {token : Token} (mem : token ∈ tokens)
    (inside : HasText x token) : HasText x (.nested tokens)

theorem Token.Each.of_hasText {p : Text → Prop} {token : Token} {x : Text} (each : token.Each p)
    (has : token.HasText x) : p x := by
  induction has with
  | text =>
    cases each with
    | text holds => exact holds
  | nested mem _ ih =>
    cases each with
    | nested each => exact ih (each _ mem)

theorem Token.each_of_hasText {p : Text → Prop} : (token : Token) →
    (∀ x, token.HasText x → p x) → token.Each p
  | .text t, holds => .text (holds t .text)
  | .nested _, holds => .nested fun token mem =>
    each_of_hasText token fun x has => holds x (.nested mem has)

/-- The text is compared in the condition, at some depth of groups. -/
def Connected.Compares (t x : Text) : Prop :=
  ∃ token ∈ tokens t, token.HasText x

/-- The text is a side of the comparison, trimmed. -/
def CmpOp.HasSide (t u : Text) : Prop :=
  ∃ left op right, split? t = some (left, op, right) ∧ left.trim ≠ [] ∧ right.trim ≠ []
    ∧ (u = left.trim ∨ u = right.trim)

namespace CaseBody

/-- The keywords of a body and the texts between them. -/
def texts (body : Text) : List Text :=
  (tokens body).map Token.print

/-- The text stands behind one of the keywords, and is none itself. -/
def StandsBehind (ahead : List Text) (u : Text) (texts : List Text) : Prop :=
  u ∉ keywords ∧ ∃ keyword ∈ ahead, [keyword, u] <:+: texts

/-- The text stands where a condition does. -/
def IsCondition (body v : Text) : Prop :=
  StandsBehind [whenKeyword] v (texts body)

/-- The text stands where a value or the default does. -/
def IsValue (body u : Text) : Prop :=
  StandsBehind [thenKeyword, elseKeyword] u (texts body)

theorem StandsBehind.of_isInfix {ahead texts more : List Text} {u : Text}
    (stands : StandsBehind ahead u texts) (part : texts <:+: more) : StandsBehind ahead u more := by
  obtain ⟨other, keyword, mem, here⟩ := stands
  exact ⟨other, keyword, mem, here.trans part⟩

end CaseBody

namespace Form

/-- The parentheses of a call ask for distinct arguments. -/
def Call.isDistinct (c : Call) : Bool :=
  (after? true Grammar.distinctKeyword c.arguments.trim).isSome

/-- The list of the arguments of a call. -/
def Call.list (c : Call) : Text :=
  match after? true Grammar.distinctKeyword c.arguments.trim with
  | some rest => rest.trimStart
  | none => c.arguments.trim

theorem Call.isInfix_list (c : Call) : c.list <:+: c.arguments := by
  rw [list]
  split
  · rename_i rest found
    obtain ⟨word, -, split⟩ := after?_eq_some_iff.1 found
    have behind : rest <:+: c.arguments.trim := ⟨word, [], by simp [split]⟩
    exact (isInfix_trimStart rest).trans (behind.trans (isInfix_trim c.arguments))
  · exact isInfix_trim c.arguments

end Form

namespace Grammar

/-- What is compared in the conditions of a case distinction. -/
def Compares (t x : Text) : Prop :=
  ∃ c v, Form.case? t = some c ∧ c.opened = c.closed ∧ CaseBody.IsCondition c.body v
    ∧ Connected.Compares v x

/-- The reader of a trimmed text asks for another one. -/
inductive Asks (t : Text) : Text → Prop
  | unwrapped {inner : Text} (unnamed : Form.splitAlias t = (t, none))
    (single : Chain.tokens t = [.text inner]) (other : inner ≠ t) : Asks t inner
  | operand {u : Text} (several : 3 ≤ (Chain.tokens (Form.splitAlias t).1).length)
    (mem : .text u ∈ Chain.tokens (Form.splitAlias t).1) (other : MathOp.ofSymbol? u = none) :
    Asks t u
  | argument {call : Form.Call} {u : Text} (found : Form.call? t = some call)
    (mem : u ∈ FieldList.items call.list) : Asks t u
  | value {c : Form.Case} {u : Text} (found : Form.case? t = some c) (both : c.opened = c.closed)
    (isValue : CaseBody.IsValue c.body u) : Asks t u
  | side {x u : Text} (compares : Compares t x) (hasSide : CmpOp.HasSide x u) : Asks t u

variable {bindings bindings' : Option Bindings} {parse parse' : Text → Result Expr} {t : Text}

/-! ### Conditions -/

/-- A comparison is read alike: the same values are put into it, and its sides are read alike. -/
def Alike (bindings bindings' : Option Bindings) (parse parse' : Text → Result Expr) (x : Text) :
    Prop :=
  substitute bindings x = substitute bindings' x ∧ ∀ u, CmpOp.HasSide x u → parse u = parse' u

theorem comparison_of_asked (alike : Alike bindings bindings' parse parse' t) :
    comparison bindings parse t = comparison bindings' parse' t := by
  obtain ⟨same, sides⟩ := alike
  unfold comparison
  rw [same]
  split
  · rfl
  split
  · rfl
  · rename_i left op right found
    split
    · rfl
    · rename_i both
      rw [Bool.or_eq_true, not_or, List.isEmpty_iff, List.isEmpty_iff] at both
      rw [sides _ ⟨left, op, right, found, both.1, both.2, .inl rfl⟩,
        sides _ ⟨left, op, right, found, both.1, both.2, .inr rfl⟩]

mutual

theorem conditionOfTokens_of_asked : {tokens : List Token} →
    (∀ token ∈ tokens, token.Each (Alike bindings bindings' parse parse')) →
    conditionOfTokens bindings parse tokens = conditionOfTokens bindings' parse' tokens
  | [], _ => rfl
  | [token], each => conditionOfToken_of_asked (each token (List.mem_singleton_self _))
  | first :: second :: rest, each => by
    obtain ⟨head, others⟩ := List.forall_mem_cons.1 each
    rw [conditionOfTokens, conditionOfTokens, conditionOfToken_of_asked head,
      joined_of_asked others]
    · nofun
    · nofun

theorem conditionOfToken_of_asked : {token : Token} →
    token.Each (Alike bindings bindings' parse parse') →
    conditionOfToken bindings parse token = conditionOfToken bindings' parse' token
  | .text _, .text alike => comparison_of_asked alike
  | .nested _, .nested each => conditionOfTokens_of_asked each

theorem joined_of_asked : {pending : Option BoolOp} → {tokens : List Token} →
    (∀ token ∈ tokens, token.Each (Alike bindings bindings' parse parse')) →
    joined bindings parse pending tokens = joined bindings' parse' pending tokens
  | none, [], _ => by rw [joined, joined]
  | some _, [], _ => by rw [joined, joined]
  | pending, token :: rest, each => by
    obtain ⟨head, others⟩ := List.forall_mem_cons.1 each
    rw [joined.eq_def, joined.eq_def]
    simp only [conditionOfToken_of_asked head, joined_of_asked others]

end

/-- **A condition depends on what it compares.** -/
theorem condition_of_asked
    (alike : ∀ x, Connected.Compares t x → Alike bindings bindings' parse parse' x) :
    condition bindings parse t = condition bindings' parse' t :=
  conditionOfTokens_of_asked fun token mem =>
    token.each_of_hasText fun x has => alike x ⟨token, mem, has⟩

/-! ### Chains -/

theorem operand_of_asked (whole : Text)
    (same : MathOp.ofSymbol? t = none → parse t = parse' t) :
    operand parse whole t = operand parse' whole t := by
  rw [operand, operand]
  cases operator : MathOp.ofSymbol? t with
  | none => rw [same operator]
  | some op => rfl

theorem links_of_asked (whole : Text) : {texts : List Text} →
    (∀ t ∈ texts, MathOp.ofSymbol? t = none → parse t = parse' t) →
    links parse whole texts = links parse' whole texts
  | [], _ => rfl
  | [_], _ => rfl
  | sign :: t :: rest, same => by
    obtain ⟨-, behind⟩ := List.forall_mem_cons.1 same
    obtain ⟨first, others⟩ := List.forall_mem_cons.1 behind
    rw [links, links, operand_of_asked whole first, links_of_asked whole others]

theorem chain?_of_asked (asked : ∀ u, Asks t u → parse u = parse' u) :
    chain? parse t = chain? parse' t := by
  unfold chain?
  rcases split : Form.splitAlias t with ⟨body, a⟩
  dsimp only
  split
  · split
    · rename_i inner single
      obtain rfl : body = t := Form.splitAlias_eq_of_none split
      split
      · rfl
      · rename_i other
        rw [asked inner (.unwrapped split single other)]
    · rfl
  rename_i many
  split
  · rfl
  split
  · rename_i first rest texts
    have found := eq_map_of_mapM_text? texts
    have operands : ∀ u ∈ first :: rest, MathOp.ofSymbol? u = none → parse u = parse' u := by
      intro u mem other
      refine asked u (.operand ?_ ?_ other)
      · rw [split]
        exact Nat.le_of_not_lt many
      · rw [split, found]
        exact List.mem_map_of_mem mem
    obtain ⟨head, others⟩ := List.forall_mem_cons.1 operands
    rw [operand_of_asked t head, links_of_asked t others]
  · rfl

/-! ### Calls -/

/-- **A list depends on its items.** -/
theorem fieldList_of_asked (asked : ∀ i ∈ FieldList.items t, parse i = parse' i) :
    fieldList parse t = fieldList parse' t :=
  mapM_congr asked

/-- A call reads the list of its arguments. -/
theorem call?_eq (parse : Text → Result Expr) (t : Text) :
    call? parse t = match Form.call? t with
      | none => .ok none
      | some call => fieldList parse call.list >>= fun args =>
        .ok (some (.func call.name call.isDistinct args call.aliasName)) := by
  unfold call? Form.Call.list Form.Call.isDistinct
  cases Form.call? t with
  | none => rfl
  | some call =>
    dsimp only
    cases after? true distinctKeyword call.arguments.trim <;> rfl

theorem call?_of_asked (asked : ∀ u, Asks t u → parse u = parse' u) :
    call? parse t = call? parse' t := by
  rw [call?_eq, call?_eq]
  split
  · rfl
  · rename_i call found
    rw [fieldList_of_asked fun i mem => asked i (.argument found mem)]

/-! ### Case distinctions -/

theorem caseDefault_of_asked {body : Text} {texts : List Text}
    (asked : ∀ u, u ∉ CaseBody.keywords → [u] <+: texts → parse u = parse' u) :
    caseDefault parse body texts = caseDefault parse' body texts := by
  cases texts with
  | nil => rfl
  | cons t rest =>
    rw [caseDefault, caseDefault, caseOperand]
    split
    · rfl
    · rename_i other
      show (parse t >>= _) = (parse' t >>= _)
      rw [asked t (by simpa using other) (List.prefix_append [t] rest)]

/-- What is no branch is the default, or an error. -/
theorem caseParts_otherwise (body : Text) (hasBranch : Bool) {keyword : Text} (tokens : List Text)
    (other : keyword ≠ CaseBody.whenKeyword) :
    caseParts bindings parse body hasBranch (keyword :: tokens)
      = if keyword = CaseBody.elseKeyword ∧ hasBranch then do
          let e ← caseDefault parse body tokens
          .ok ([], some e)
        else Error.invalidExpression (.unexpectedInCase (String.ofList keyword)
          (String.ofList body)) := by
  cases hasBranch
  all_goals
    rw [caseParts.eq_def]
    exact if_neg other

theorem caseParts_of_asked {body : Text} {hasBranch : Bool} {texts : List Text}
    (conditions : ∀ v, CaseBody.StandsBehind [CaseBody.whenKeyword] v texts →
      condition bindings parse v = condition bindings' parse' v)
    (values : ∀ u, CaseBody.StandsBehind [CaseBody.thenKeyword, CaseBody.elseKeyword] u texts →
      parse u = parse' u) :
    caseParts bindings parse body hasBranch texts
      = caseParts bindings' parse' body hasBranch texts := by
  fun_induction caseParts bindings parse body hasBranch texts with
  | case1 => rfl
  | case2 => rfl
  | case3 _ c separator t rest named =>
    rw [caseParts, if_pos rfl]
    exact (if_pos named).symm
  | case4 _ c separator t rest other unseparated =>
    rw [caseParts, if_pos rfl]
    dsimp only
    rw [if_neg other, if_pos unseparated]
  | case5 _ c separator t rest other separated named =>
    rw [caseParts, if_pos rfl]
    dsimp only
    rw [if_neg other, if_neg separated, if_pos named]
  | case6 _ c separator t rest other separated other' ih =>
    obtain rfl : separator = CaseBody.thenKeyword := not_not.1 separated
    have first : [CaseBody.whenKeyword, c]
        <:+: CaseBody.whenKeyword :: c :: CaseBody.thenKeyword :: t :: rest := ⟨[], _, rfl⟩
    have second : [CaseBody.thenKeyword, t]
        <:+: CaseBody.whenKeyword :: c :: CaseBody.thenKeyword :: t :: rest :=
      ⟨[CaseBody.whenKeyword, c], rest, rfl⟩
    have behind : rest <:+: CaseBody.whenKeyword :: c :: CaseBody.thenKeyword :: t :: rest :=
      ⟨[CaseBody.whenKeyword, c, CaseBody.thenKeyword, t], [], by simp⟩
    rw [caseParts, if_pos rfl]
    dsimp only
    rw [if_neg other, if_neg separated, if_neg other',
      conditions c ⟨by simpa using other, _, List.mem_singleton_self _, first⟩,
      values t ⟨by simpa using other', _, List.mem_cons_self .., second⟩,
      ih (fun v stands => conditions v (stands.of_isInfix behind)) fun u stands =>
        values u (stands.of_isInfix behind)]
  | case7 hasBranch tokens short =>
    rw [caseParts, if_pos rfl]
    exact short
  | case8 hasBranch keyword tokens other both =>
    obtain ⟨rfl, seen⟩ := both
    have default : caseDefault parse body tokens = caseDefault parse' body tokens := by
      refine caseDefault_of_asked fun u other first =>
        values u ⟨other, CaseBody.elseKeyword, by simp, ?_⟩
      exact (List.cons_prefix_cons.2 ⟨rfl, first⟩).isInfix
    rw [caseParts_otherwise _ _ _ other, if_pos ⟨rfl, seen⟩, default]
  | case9 hasBranch keyword tokens other neither =>
    rw [caseParts_otherwise _ _ _ other, if_neg neither]

theorem case?_of_asked
    (compared : ∀ x, Compares t x → substitute bindings x = substitute bindings' x)
    (asked : ∀ u, Asks t u → parse u = parse' u) :
    case? bindings parse t = case? bindings' parse' t := by
  unfold case?
  split
  · rfl
  rename_i c found
  split
  · rfl
  rename_i unequal
  have both : c.opened = c.closed := not_not.1 unequal
  have parts : caseBody bindings parse c.body = caseBody bindings' parse' c.body := by
    refine caseParts_of_asked (fun v isCondition => condition_of_asked fun x compares => ?_)
      fun u isValue => asked u (.value found both isValue)
    have here : Compares t x := ⟨c, v, found, both, isCondition, compares⟩
    exact ⟨compared x here, fun u hasSide => asked u (.side here hasSide)⟩
  rw [parts]

/-! ### Expressions -/

/-- **An expression depends on the texts that are asked for**, and on what the bindings put into the
text and into what is compared. -/
theorem expression_of_asked (bound : bound? bindings t.trim = bound? bindings' t.trim)
    (same : substitute bindings t.trim = substitute bindings' t.trim)
    (compared : ∀ x, Compares t.trim x → substitute bindings x = substitute bindings' x)
    (asked : ∀ u, Asks t.trim u → parse u = parse' u) :
    expression bindings parse t = expression bindings' parse' t := by
  unfold expression
  dsimp only
  rw [bound, scalar?, scalar?, same, chain?_of_asked asked, call?_of_asked asked,
    case?_of_asked compared asked]

end Grammar

end RecordMapper
