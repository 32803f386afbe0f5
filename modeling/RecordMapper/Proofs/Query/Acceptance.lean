import Mathlib.Data.List.Induction
import RecordMapper.Proofs.Query.WellFormed

/-!
What is accepted as a condition and as the body of a case distinction.

Both are read from tokens by a loop with a state: conditions with a connector that is pending, the
parts of a case distinction with what has been seen of them. `Grammar.IsGroup` and
`Grammar.IsCaseBody` say the same without a state: which lists of tokens are groups of conditions,
by what stands at each of their places, and which are branches with at most one default behind them.
**Exactly these are accepted, and the tree mirrors them** (`Grammar.conditionOfTokens_mirrors`,
`Grammar.caseBody_eq_ok_iff`).
-/

namespace RecordMapper.Grammar

variable (bindings : Option Bindings) (parse : Text → Result Expr)

/-! ### Groups of conditions -/

/-- The tokens are a group of conditions: one comparison, one group, or comparisons and groups at
the even places and connectors between them. -/
inductive IsGroup : List Token → Prop
  | comparison {t : Text} {c : Condition} (read : comparison bindings parse t = .ok c) :
    IsGroup [.text t]
  | nested {tokens : List Token} (group : IsGroup tokens) : IsGroup [.nested tokens]
  | alternating {tokens : List Token} (several : 3 ≤ tokens.length) (odd : tokens.length % 2 = 1)
    (connectors : ∀ i token, tokens[2 * i + 1]? = some token → (connector? token).isSome = true)
    (others : ∀ i token, tokens[2 * i]? = some token → connector? token = none)
    (texts : ∀ i t, tokens[2 * i]? = some (.text t) → ∃ c, Grammar.comparison bindings parse t = .ok c)
    (groups : ∀ i inner, tokens[2 * i]? = some (.nested inner) → IsGroup inner) : IsGroup tokens

/-- The condition mirrors the tokens: a single token is the condition in it, and of several the even
ones are the children, each with the connector in front of it. -/
inductive Mirrors : List Token → Condition → Prop
  | comparison {t : Text} {c : Condition} (read : comparison bindings parse t = .ok c) :
    Mirrors [.text t] c
  | nested {tokens : List Token} {c : Condition} (group : Mirrors tokens c) :
    Mirrors [.nested tokens] c
  | alternating {tokens : List Token} {children : List (Option BoolOp × Condition)}
    (several : 3 ≤ tokens.length) (length : children.length = (tokens.length + 1) / 2)
    (first : ∀ child, children[0]? = some child → child.1 = none)
    (connectors : ∀ i token child, tokens[2 * i + 1]? = some token →
      children[i + 1]? = some child → child.1 = connector? token)
    (texts : ∀ i t child, tokens[2 * i]? = some (.text t) → children[i]? = some child →
      Grammar.comparison bindings parse t = .ok child.2)
    (groups : ∀ i inner child, tokens[2 * i]? = some (.nested inner) → children[i]? = some child →
      Mirrors inner child.2) : Mirrors tokens (.nested children)

variable {bindings} {parse}

/-- Several tokens are read as the condition of the first one and what is joined to it. -/
theorem conditionOfTokens_eq_ok_iff {first next : Token} {rest : List Token} {c : Condition} :
    conditionOfTokens bindings parse (first :: next :: rest) = .ok c
      ↔ connector? first = none ∧ ∃ c₀ others, conditionOfToken bindings parse first = .ok c₀
        ∧ joined bindings parse none (next :: rest) = .ok others
        ∧ c = .nested ((none, c₀) :: others) := by
  rw [conditionOfTokens]
  · cases connects : connector? first with
    | some op => simp [Error.invalidExpression, Error.throw]
    | none =>
      simp only [true_and, Result.bind_eq_ok_iff]
      constructor
      · rintro ⟨c₀, read, others, behind, ⟨⟩⟩
        exact ⟨c₀, others, read, behind, rfl⟩
      · rintro ⟨c₀, others, read, behind, rfl⟩
        exact ⟨c₀, read, others, behind, rfl⟩
  · simp

/-- A connector and the condition behind it are read together. -/
theorem joined_eq_ok_iff {sign token : Token} {rest : List Token}
    {children : List (Option BoolOp × Condition)} :
    joined bindings parse none (sign :: token :: rest) = .ok children
      ↔ (connector? sign).isSome = true ∧ connector? token = none
        ∧ ∃ c others, conditionOfToken bindings parse token = .ok c
          ∧ joined bindings parse none rest = .ok others
          ∧ children = (connector? sign, c) :: others := by
  cases connects : connector? sign with
  | none => simp [joined, connects, Error.invalidExpression, Error.throw]
  | some op =>
    cases other : connector? token with
    | some _ => simp [joined, connects, other, Error.invalidExpression, Error.throw]
    | none =>
      simp only [joined, connects, other, Result.bind_eq_ok_iff, Option.isSome_some, true_and]
      constructor
      · rintro ⟨c, read, others, behind, ⟨⟩⟩
        exact ⟨c, others, read, behind, rfl⟩
      · rintro ⟨c, others, read, behind, rfl⟩
        exact ⟨c, read, others, behind, rfl⟩

/-- A connector alone is not followed by a condition. -/
theorem joined_singleton_ne_ok (token : Token) (children : List (Option BoolOp × Condition)) :
    joined bindings parse none [token] ≠ .ok children := by
  cases connects : connector? token with
  | none => simp [joined, connects, Error.invalidExpression, Error.throw]
  | some op => simp [joined, connects, Error.invalidExpression, Error.throw]

/-- **What is joined is read if connectors and conditions take turns.** -/
theorem exists_joined_iff {rest : List Token} :
    (∃ children, joined bindings parse none rest = .ok children)
      ↔ rest.length % 2 = 0
        ∧ (∀ i sign, rest[2 * i]? = some sign → (connector? sign).isSome = true)
        ∧ ∀ i token, rest[2 * i + 1]? = some token →
          connector? token = none ∧ ∃ c, conditionOfToken bindings parse token = .ok c := by
  induction rest using List.twoStepInduction with
  | nil => simp [joined]
  | singleton sign => simp [joined_singleton_ne_ok]
  | cons_cons sign token rest ih _ =>
    simp only [joined_eq_ok_iff]
    constructor
    · rintro ⟨_, connects, other, c, others, read, behind, rfl⟩
      obtain ⟨even, signs, tokens⟩ := ih.1 ⟨others, behind⟩
      refine ⟨by simp only [List.length_cons]; omega, fun i => ?_, fun i => ?_⟩
      · cases i with
        | zero => simpa using connects
        | succ i => exact signs i
      · cases i with
        | zero => simpa using ⟨other, c, read⟩
        | succ i => exact tokens i
    · rintro ⟨even, signs, tokens⟩
      obtain ⟨other, c, read⟩ := tokens 0 token rfl
      obtain ⟨others, behind⟩ := ih.2 ⟨by simp only [List.length_cons] at even; omega,
        fun i => signs (i + 1), fun i => tokens (i + 1)⟩
      exact ⟨_, signs 0 sign rfl, other, c, others, read, behind, rfl⟩

/-- What is read is, place by place, the conditions with the connectors in front of them. -/
theorem getElem?_joined {rest : List Token} {children : List (Option BoolOp × Condition)}
    (read : joined bindings parse none rest = .ok children) :
    2 * children.length = rest.length
      ∧ ∀ i child, children[i]? = some child →
        (∀ sign, rest[2 * i]? = some sign → child.1 = connector? sign)
          ∧ ∀ token, rest[2 * i + 1]? = some token →
            conditionOfToken bindings parse token = .ok child.2 := by
  induction rest using List.twoStepInduction generalizing children with
  | nil =>
    simp only [joined, Except.ok.injEq] at read
    simp [← read]
  | singleton sign => exact absurd read (joined_singleton_ne_ok sign children)
  | cons_cons sign token rest ih _ =>
    obtain ⟨-, -, c, others, first, behind, rfl⟩ := joined_eq_ok_iff.1 read
    obtain ⟨length, places⟩ := ih behind
    refine ⟨by simp only [List.length_cons]; omega, fun i child here => ?_⟩
    cases i with
    | zero =>
      obtain rfl : (connector? sign, c) = child := by simpa using here
      simpa using first
    | succ i => exact places i child here

/-- Several tokens are read if connectors and conditions take turns, a condition at each end. -/
theorem exists_conditionOfTokens_iff {tokens : List Token} (several : 2 ≤ tokens.length) :
    (∃ c, conditionOfTokens bindings parse tokens = .ok c)
      ↔ tokens.length % 2 = 1
        ∧ (∀ i token, tokens[2 * i + 1]? = some token → (connector? token).isSome = true)
        ∧ ∀ i token, tokens[2 * i]? = some token →
          connector? token = none ∧ ∃ c, conditionOfToken bindings parse token = .ok c := by
  match tokens with
  | first :: next :: rest =>
    simp only [conditionOfTokens_eq_ok_iff]
    constructor
    · rintro ⟨_, other, c₀, others, read, behind, rfl⟩
      obtain ⟨even, signs, items⟩ := exists_joined_iff.1 ⟨others, behind⟩
      refine ⟨by simp only [List.length_cons] at even ⊢; omega, signs, fun i => ?_⟩
      cases i with
      | zero => simpa using ⟨other, c₀, read⟩
      | succ i => exact items i
    · rintro ⟨odd, signs, items⟩
      obtain ⟨other, c₀, read⟩ := items 0 first rfl
      obtain ⟨others, behind⟩ := exists_joined_iff.2 ⟨by simp only [List.length_cons] at odd ⊢; omega,
        signs, fun i => items (i + 1)⟩
      exact ⟨_, other, c₀, others, read, behind, rfl⟩

/-- Several tokens are read as the conditions at the even places, each with the connector in front
of it. -/
theorem getElem?_conditionOfTokens {tokens : List Token} (several : 2 ≤ tokens.length) {c : Condition}
    (read : conditionOfTokens bindings parse tokens = .ok c) :
    ∃ children, c = .nested children ∧ 2 * children.length = tokens.length + 1
      ∧ (∀ child, children[0]? = some child → child.1 = none)
      ∧ (∀ i token child, tokens[2 * i + 1]? = some token → children[i + 1]? = some child →
        child.1 = connector? token)
      ∧ ∀ i token child, tokens[2 * i]? = some token → children[i]? = some child →
        conditionOfToken bindings parse token = .ok child.2 := by
  match tokens with
  | first :: next :: rest =>
    obtain ⟨-, c₀, others, value, behind, rfl⟩ := conditionOfTokens_eq_ok_iff.1 read
    obtain ⟨length, places⟩ := getElem?_joined behind
    refine ⟨_, rfl, by simp only [List.length_cons] at length ⊢; omega, by simp,
      fun i token child sign here => (places i child here).1 token sign, fun i => ?_⟩
    cases i with
    | zero =>
      intro token child here here'
      obtain rfl : first = token := by simpa using here
      obtain rfl : (none, c₀) = child := by simpa using here'
      exact value
    | succ i => exact fun token child item here => (places i child here).2 token item

theorem sizeOf_lt_of_getElem? {tokens inner : List Token} {i : Nat}
    (here : tokens[i]? = some (.nested inner)) : sizeOf inner < sizeOf tokens := by
  have member := List.sizeOf_lt_of_mem (List.mem_of_getElem? here)
  simp only [Token.nested.sizeOf_spec] at member
  omega

/-- What is read is a group of conditions, and the condition mirrors it. -/
theorem isGroup_of_conditionOfTokens {tokens : List Token} {c : Condition}
    (read : conditionOfTokens bindings parse tokens = .ok c) :
    IsGroup bindings parse tokens ∧ Mirrors bindings parse tokens c := by
  induction size : sizeOf tokens using Nat.strongRecOn generalizing tokens c with
  | ind n ih =>
    subst size
    match tokens with
    | [] =>
      rw [conditionOfTokens] at read
      cases read
    | [.text t] => exact ⟨.comparison read, .comparison read⟩
    | [.nested inner] =>
      have value : conditionOfTokens bindings parse inner = .ok c := read
      obtain ⟨group, mirrors⟩ := ih _ (sizeOf_lt_of_getElem? (i := 0) rfl) value rfl
      exact ⟨.nested group, .nested mirrors⟩
    | first :: next :: rest =>
      have several : 2 ≤ (first :: next :: rest).length := by simp
      obtain ⟨odd, signs, items⟩ := (exists_conditionOfTokens_iff several).1 ⟨c, read⟩
      obtain ⟨children, rfl, length, leading, connectors, conditions⟩ :=
        getElem?_conditionOfTokens several read
      refine ⟨.alternating (by omega) odd signs (fun i token here => (items i token here).1)
        (fun i t here => (items i _ here).2) fun i inner here => ?_,
        .alternating (by omega) (by omega) leading connectors
          (fun i t child here => conditions i _ child here) fun i inner child here here' => ?_⟩
      · obtain ⟨c, value⟩ := (items i _ here).2
        exact (ih _ (sizeOf_lt_of_getElem? here) value rfl).1
      · exact (ih _ (sizeOf_lt_of_getElem? here) (conditions i _ child here here') rfl).2

/-- A group of conditions is read. -/
theorem exists_conditionOfTokens_of_isGroup {tokens : List Token}
    (group : IsGroup bindings parse tokens) :
    ∃ c, conditionOfTokens bindings parse tokens = .ok c := by
  induction group with
  | @comparison t c read => exact ⟨c, read⟩
  | nested _ ih => exact ih
  | @alternating tokens several odd connectors others texts _ groups =>
    refine (exists_conditionOfTokens_iff (by omega)).2 ⟨odd, connectors, fun i token here => ?_⟩
    refine ⟨others i token here, ?_⟩
    cases token with
    | text t => exact texts i t here
    | nested inner => exact groups i inner here

/-- **A condition is read from exactly the groups of tokens, and mirrors them.** -/
theorem conditionOfTokens_mirrors (bindings : Option Bindings) (parse : Text → Result Expr)
    (tokens : List Token) :
    ((∃ c, conditionOfTokens bindings parse tokens = .ok c) ↔ IsGroup bindings parse tokens)
      ∧ ∀ c, conditionOfTokens bindings parse tokens = .ok c → Mirrors bindings parse tokens c :=
  ⟨⟨fun ⟨_, read⟩ => (isGroup_of_conditionOfTokens read).1, exists_conditionOfTokens_of_isGroup⟩,
    fun _ read => (isGroup_of_conditionOfTokens read).2⟩

/-! ### Bodies of case distinctions -/

/-- A case distinction as its parts are written: the condition and the value of each branch, and the
default. -/
structure CaseParts where
  branches : List (Text × Text)
  default : Option Text

namespace CaseParts

/-- The parts with the keywords in front of them. -/
def texts (parts : CaseParts) : List Text :=
  parts.branches.flatMap (fun (c, t) => [CaseBody.whenKeyword, c, CaseBody.thenKeyword, t])
    ++ parts.default.toList.flatMap fun t => [CaseBody.elseKeyword, t]

/-- No part is a keyword. -/
structure Proper (parts : CaseParts) : Prop where
  branches : ∀ branch ∈ parts.branches,
    branch.1 ∉ CaseBody.keywords ∧ branch.2 ∉ CaseBody.keywords
  default : ∀ t ∈ parts.default, t ∉ CaseBody.keywords

variable (bindings) (parse)

/-- The parts are read: each condition as a condition, each value and the default as expressions. -/
structure ReadAs (parts : CaseParts) (branches : List (Condition × Expr)) (default : Option Expr) :
    Prop where
  branches : List.Forall₂ (fun written read =>
    condition bindings parse written.1 = .ok read.1 ∧ parse written.2 = .ok read.2)
    parts.branches branches
  default : Option.Rel (fun written read => parse written = .ok read) parts.default default

end CaseParts

/-- What follows a keyword is no keyword. -/
theorem caseOperand_eq_ok_iff {body keyword t : Text} {texts rest : List Text} :
    caseOperand body keyword texts = .ok (t, rest) ↔ texts = t :: rest ∧ t ∉ CaseBody.keywords := by
  cases texts with
  | nil => simp [caseOperand, Error.invalidExpression, Error.throw]
  | cons t' texts =>
    rw [caseOperand]
    by_cases keyword : t' ∈ CaseBody.keywords
    · simp only [List.contains_iff_mem.2 keyword, if_true, Error.invalidExpression, Error.throw,
        reduceCtorEq, List.cons.injEq, false_iff]
      rintro ⟨⟨rfl, -⟩, other⟩
      exact other keyword
    · simp only [List.contains_iff_mem, keyword, if_false, Except.ok.injEq, Prod.mk.injEq,
        List.cons.injEq, iff_self_and]
      rintro ⟨rfl, -⟩
      exact keyword

/-- The default is read from a text behind its keyword, with nothing behind that. -/
theorem caseDefault_eq_ok_iff {body : Text} {texts : List Text} {e : Expr} :
    caseDefault parse body texts = .ok e
      ↔ ∃ t, texts = [t] ∧ t ∉ CaseBody.keywords ∧ parse t = .ok e := by
  simp only [caseDefault, Result.bind_eq_ok_iff, Prod.exists, caseOperand_eq_ok_iff]
  constructor
  · rintro ⟨t, rest, ⟨rfl, other⟩, e', value, last⟩
    cases rest with
    | nil =>
      obtain rfl : e' = e := by simpa using last
      exact ⟨t, rfl, other, value⟩
    | cons _ _ => cases last
  · rintro ⟨t, rfl, other, value⟩
    exact ⟨t, [], ⟨rfl, other⟩, e, value, rfl⟩

/-- A branch is read with what follows it. -/
theorem caseParts_branch {body c t : Text} (hasBranch : Bool) (rest : List Text)
    (proper : c ∉ CaseBody.keywords) (proper' : t ∉ CaseBody.keywords) :
    caseParts bindings parse body hasBranch
        (CaseBody.whenKeyword :: c :: CaseBody.thenKeyword :: t :: rest) = (do
      let c ← condition bindings parse c
      let e ← parse t
      let (branches, default) ← caseParts bindings parse body true rest
      .ok ((c, e) :: branches, default)) := by
  rw [caseParts]
  simp [proper, proper']

/-- **The parts that are read are written one after the other.** -/
theorem exists_of_caseParts {body : Text} {hasBranch : Bool} {texts : List Text}
    {branches : List (Condition × Expr)} {default : Option Expr}
    (read : caseParts bindings parse body hasBranch texts = .ok (branches, default)) :
    ∃ parts : CaseParts, (hasBranch = true ∨ parts.branches ≠ []) ∧ parts.texts = texts
      ∧ parts.Proper ∧ parts.ReadAs bindings parse branches default := by
  fun_induction caseParts bindings parse body hasBranch texts generalizing branches default with
  | case1 =>
    obtain ⟨rfl, rfl⟩ := Prod.mk.inj (Except.ok.inj read)
    exact ⟨⟨[], none⟩, .inl rfl, rfl, ⟨List.forall_mem_nil _, by simp⟩, ⟨.nil, .none⟩⟩
  | case2 => cases read
  | case3 => cases read
  | case4 => cases read
  | case5 => cases read
  | case6 _ c separator t rest other then_ other' ih =>
    obtain rfl : separator = CaseBody.thenKeyword := not_not.1 then_
    obtain ⟨cond, first, more⟩ := Result.exists_of_bind read
    obtain ⟨e, value, more⟩ := Result.exists_of_bind more
    obtain ⟨⟨branches, default⟩, others, ⟨⟩⟩ := Result.exists_of_bind more
    obtain ⟨parts, -, rfl, proper, readAs⟩ := ih others
    refine ⟨⟨(c, t) :: parts.branches, parts.default⟩, .inr (List.cons_ne_nil _ _), rfl,
      ⟨List.forall_mem_cons.2 ⟨⟨?_, ?_⟩, proper.branches⟩, proper.default⟩,
      ⟨.cons ⟨first, value⟩ readAs.branches, readAs.default⟩⟩
    · simpa using other
    · simpa using other'
  | case7 =>
    obtain ⟨_, -, more⟩ := Result.exists_of_bind read
    dsimp only at more
    split at more <;> cases more
  | case8 hasBranch keyword tokens _ both =>
    obtain ⟨rfl, seen⟩ := both
    obtain ⟨e, last, ⟨⟩⟩ := Result.exists_of_bind read
    obtain ⟨t, rfl, proper, value⟩ := caseDefault_eq_ok_iff.1 last
    exact ⟨⟨[], some t⟩, .inl seen, rfl, ⟨List.forall_mem_nil _, by simpa using proper⟩,
      ⟨.nil, .some value⟩⟩
  | case9 => cases read

/-- **Parts that are written one after the other are read.** -/
theorem caseParts_texts {body : Text} {hasBranch : Bool} {parts : CaseParts}
    {branches : List (Condition × Expr)} {default : Option Expr}
    (some_branch : hasBranch = true ∨ parts.branches ≠ []) (proper : parts.Proper)
    (readAs : parts.ReadAs bindings parse branches default) :
    caseParts bindings parse body hasBranch parts.texts = .ok (branches, default) := by
  obtain ⟨written, default'⟩ := parts
  obtain ⟨each, last⟩ := readAs
  dsimp only at each last some_branch
  induction each generalizing hasBranch with
  | nil =>
    obtain rfl : hasBranch = true := some_branch.resolve_right fun more => more rfl
    cases last with
    | none => simp [CaseParts.texts, caseParts]
    | @some t e value =>
      have behind : caseDefault parse body [t] = .ok e :=
        caseDefault_eq_ok_iff.2 ⟨t, rfl, proper.default t rfl, value⟩
      have differ : CaseBody.elseKeyword ≠ CaseBody.whenKeyword := by decide
      show caseParts bindings parse body true [CaseBody.elseKeyword, t] = _
      rw [caseParts.eq_def]
      dsimp only
      rw [if_neg differ, if_pos ⟨rfl, rfl⟩, behind]
      rfl
  | @cons branch read written branches first others ih =>
    obtain ⟨⟨other, other'⟩, behind⟩ := List.forall_mem_cons.1 proper.branches
    have rest := @ih true (.inl rfl) ⟨behind, proper.default⟩
    show caseParts bindings parse body hasBranch (CaseBody.whenKeyword :: branch.1 ::
      CaseBody.thenKeyword :: branch.2 :: CaseParts.texts ⟨written, default'⟩) = _
    rw [caseParts_branch hasBranch _ other other', first.1, first.2, rest]
    rfl

/-- **The body of a case distinction is read from branches with at most one default behind them**,
and no other tokens. -/
theorem caseBody_eq_ok_iff (bindings : Option Bindings) (parse : Text → Result Expr) (body : Text)
    (branches : List (Condition × Expr)) (default : Option Expr) :
    caseBody bindings parse body = .ok (branches, default)
      ↔ ∃ parts : CaseParts, (CaseBody.tokens body).map Token.print = parts.texts
        ∧ parts.branches ≠ [] ∧ parts.Proper ∧ parts.ReadAs bindings parse branches default := by
  rw [caseBody]
  constructor
  · intro read
    obtain ⟨parts, some_branch, texts, proper, readAs⟩ := exists_of_caseParts read
    exact ⟨parts, texts.symm, some_branch.resolve_left Bool.false_ne_true, proper, readAs⟩
  · rintro ⟨parts, texts, some_branch, proper, readAs⟩
    rw [texts]
    exact caseParts_texts (.inr some_branch) proper readAs

end RecordMapper.Grammar
