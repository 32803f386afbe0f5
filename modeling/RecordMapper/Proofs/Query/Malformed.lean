import Mathlib.Logic.Relation
import RecordMapper.Proofs.Query.Acceptance
import RecordMapper.Proofs.Query.Budget
import RecordMapper.Proofs.Query.Dangling
import RecordMapper.Proofs.Query.Digits

/-!
What is refused, and why.

A rule that does not apply is no error: the next one is tried, and a text to which none applies is
handed on as it is. So what is refused can be told from the text alone (`Grammar.Malformed`): it is
empty, it is a chain whose operands and operators do not take turns, or it is a case distinction
whose parts are not in order, or with a condition in it that is none. There is one exception.
Digits of any script are recognized as a number, but only ASCII digits are read as one
(`Form.IsForeignNumber`).

**Every error comes from such a text, which is the one at hand or is read inside it. A text without
operators between spaces and without the word `CASE` is read, and so are all texts inside it,
exactly if none of them is a number in foreign digits** (`Parser.refuses_only_malformed`).
-/

namespace RecordMapper

open Text

variable {parse : Text → Result Expr} {t u : Text}

/-! ### Chains -/

/-- Operands and operators take turns, an operand at each end. -/
inductive Chain.Alternates : List Text → Prop
  | operand {x : Text} (other : MathOp.ofSymbol? x = none) : Alternates [x]
  | linked {x : Text} (other : MathOp.ofSymbol? x = none) (op : MathOp) {rest : List Text}
    (behind : Alternates rest) : Alternates (x :: [op.symbol] :: rest)

namespace Grammar

/-- The first operand is read, and so is what is linked to it. -/
theorem links_of_alternates (whole : Text) {texts : List Text}
    (alternates : Chain.Alternates texts)
    (reads : ∀ u ∈ texts, MathOp.ofSymbol? u = none → (parse u).Succeeds) :
    texts.length % 2 = 1 ∧ ∃ first rest, texts = first :: rest
      ∧ (operand parse whole first).Succeeds ∧ (links parse whole rest).Succeeds := by
  have read : ∀ {x : Text}, MathOp.ofSymbol? x = none → (parse x).Succeeds →
      (operand parse whole x).Succeeds := by
    intro x other succeeds
    rwa [operand, other, Option.isSome_none, if_neg Bool.false_ne_true]
  induction alternates with
  | @operand x other =>
    exact ⟨rfl, x, [], rfl, read other (reads x (List.mem_singleton_self x) other), ⟨[], rfl⟩⟩
  | @linked x other op rest behind ih =>
    obtain ⟨first, others⟩ := List.forall_mem_cons.1 reads
    obtain ⟨odd, y, rest, rfl, next, more⟩ := ih (List.forall_mem_cons.1 others).2
    have odd' : (x :: [op.symbol] :: y :: rest).length % 2 = 1 := by
      simp only [List.length_cons] at odd ⊢
      omega
    refine ⟨odd', x, _, rfl, read other (first other), ?_⟩
    rw [links, ofSymbol?_symbol]
    exact next.bind fun e => more.bind fun others => ⟨_, rfl⟩

theorem chain?_succeeds (reads : ∀ u, Asks t u → (parse u).Succeeds)
    (alternates : 3 ≤ (Chain.tokens (Form.splitAlias t).1).length →
      Chain.Alternates ((Chain.tokens (Form.splitAlias t).1).map Token.print)) :
    (chain? parse t).Succeeds := by
  unfold chain?
  rcases split : Form.splitAlias t with ⟨body, a⟩
  rw [split] at alternates
  dsimp only at alternates ⊢
  split
  · split
    · rename_i inner single
      obtain rfl : body = t := Form.splitAlias_eq_of_none split
      split
      · exact ⟨none, rfl⟩
      · rename_i other
        exact (reads inner (.unwrapped split single other)).bind fun e => ⟨_, rfl⟩
    · exact ⟨none, rfl⟩
  rename_i many
  have several := Nat.le_of_not_lt many
  obtain ⟨texts, found, -⟩ := Chain.exists_texts body
  have printed : (texts.map Token.text).map Token.print = texts := by
    rw [List.map_map]
    exact List.map_id texts
  have operands : ∀ u ∈ texts, MathOp.ofSymbol? u = none → (parse u).Succeeds := by
    intro u mem other
    refine reads u (.operand (split ▸ several) ?_ other)
    rw [split, found]
    exact List.mem_map_of_mem mem
  have turns := alternates several
  rw [found, printed] at turns
  obtain ⟨odd, first, rest, rfl, head, others⟩ := links_of_alternates t turns operands
  rw [found, List.length_map, if_neg (by omega), mapM_text?]
  exact head.bind fun e => others.bind fun operands => ⟨_, rfl⟩

theorem call?_succeeds (reads : ∀ u, Asks t u → (parse u).Succeeds) :
    (call? parse t).Succeeds := by
  rw [call?_eq]
  split
  · exact ⟨none, rfl⟩
  · rename_i call found
    have arguments : (fieldList parse call.list).Succeeds :=
      .mapM fun i mem => reads i (.argument found mem)
    exact arguments.bind fun args => ⟨_, rfl⟩

end Grammar

/-! ### Conditions -/

/-- The tokens are a comparison with something on each side, a group, or such conditions with
connectors between them. -/
inductive Connected.Alternates : List Token → Prop
  | comparison {x u : Text} (hasSide : CmpOp.HasSide x u) : Alternates [.text x]
  | group {tokens : List Token} (inside : Alternates tokens) : Alternates [.nested tokens]
  | joined {first sign : Token} {rest : List Token} (head : Alternates [first])
    (connects : (Grammar.connector? sign).isSome = true) (behind : Alternates rest) :
    Alternates (first :: sign :: rest)

/-- A condition is no connector. -/
theorem Connected.Alternates.connector?_eq_none {first : Token} {rest : List Token}
    (alternates : Alternates (first :: rest)) : Grammar.connector? first = none := by
  have single : ∀ {first : Token}, Alternates [first] → Grammar.connector? first = none := by
    intro first alternates
    cases alternates with
    | @comparison x u hasSide =>
      obtain ⟨left, op, right, found, -⟩ := hasSide
      by_contra connects
      obtain ⟨op, k, same, spelled⟩ :=
        Grammar.isSome_connector?_iff.1 (Option.isSome_iff_ne_none.2 connects)
      cases same
      rw [CmpOp.split?_connector spelled] at found
      cases found
    | group _ => rfl
  cases alternates with
  | comparison hasSide => exact single (.comparison hasSide)
  | group inside => exact single (.group inside)
  | joined head _ _ => exact single head

namespace Grammar

theorem comparison_succeeds (hasSide : CmpOp.HasSide t u)
    (reads : ∀ v, CmpOp.HasSide t v → (parse v).Succeeds) :
    (comparison none parse t).Succeeds := by
  obtain ⟨left, op, right, found, first, second, -⟩ := hasSide
  have whole : t.trim ≠ [] := by
    intro blank
    have inside := (CmpOp.isInfix_of_split? found).1.subset
    exact first (trim_eq_nil_iff.2 fun c mem => trim_eq_nil_iff.1 blank c (inside mem))
  rw [comparison_of_split? found (List.isEmpty_eq_false_iff.2 whole)
    (List.isEmpty_eq_false_iff.2 first) (List.isEmpty_eq_false_iff.2 second)]
  have lhs := reads _ ⟨left, op, right, found, first, second, .inl rfl⟩
  have rhs := reads _ ⟨left, op, right, found, first, second, .inr rfl⟩
  exact lhs.bind fun l => rhs.bind fun r => ⟨_, rfl⟩

/-- Conditions and connectors that take turns are read, behind a connector too. -/
theorem conditionOfTokens_of_alternates {tokens : List Token}
    (alternates : Connected.Alternates tokens)
    (reads : ∀ token ∈ tokens, token.Each fun x => ∀ u, CmpOp.HasSide x u → (parse u).Succeeds) :
    (conditionOfTokens none parse tokens).Succeeds
      ∧ ∀ op, (joined none parse (some op) tokens).Succeeds := by
  have behind : ∀ {first : Token} {rest : List Token} (op : BoolOp),
      connector? first = none → (conditionOfToken none parse first).Succeeds →
        (joined none parse none rest).Succeeds →
          (joined none parse (some op) (first :: rest)).Succeeds := by
    intro first rest op condition head others
    rw [joined.eq_def]
    simp only [condition]
    exact head.bind fun c => others.bind fun children => ⟨_, rfl⟩
  have nothing : (joined none parse none []).Succeeds := ⟨[], by rw [joined]⟩
  induction alternates with
  | @comparison x u hasSide =>
    have condition := (Connected.Alternates.comparison hasSide).connector?_eq_none
    cases reads _ (List.mem_singleton_self _) with
    | text sides =>
      have head : (conditionOfToken none parse (.text x)).Succeeds :=
        comparison_succeeds hasSide sides
      exact ⟨head, fun op => behind op condition head nothing⟩
  | @group tokens inside ih =>
    cases reads _ (List.mem_singleton_self _) with
    | nested each =>
      have head : (conditionOfToken none parse (.nested tokens)).Succeeds := (ih each).1
      exact ⟨head, fun op => behind op rfl head nothing⟩
  | @joined first sign rest head connects tail ih ih' =>
    have condition := head.connector?_eq_none
    obtain ⟨here, others⟩ := List.forall_mem_cons.1 reads
    have read : (conditionOfToken none parse first).Succeeds :=
      (ih (List.forall_mem_singleton.2 here)).1
    have more : (joined none parse none (sign :: rest)).Succeeds := by
      obtain ⟨op, connector⟩ := Option.isSome_iff_exists.1 connects
      rw [joined.eq_def]
      simp only [connector]
      exact (ih' (List.forall_mem_cons.1 others).2).2 op
    refine ⟨?_, fun op => behind op condition read more⟩
    rw [conditionOfTokens.eq_def]
    simp only [condition]
    exact read.bind fun c => more.bind fun children => ⟨_, rfl⟩

end Grammar

/-! ### Case distinctions -/

/-- The body is written as branches with at most one default behind them, and no part of them is a
keyword. -/
def CaseBody.InOrder (body : Text) : Prop :=
  ∃ parts : Grammar.CaseParts, texts body = parts.texts ∧ parts.branches ≠ [] ∧ parts.Proper

namespace Grammar

namespace CaseParts

variable {parts : CaseParts}

theorem isInfix_branch {branch : Text × Text} (mem : branch ∈ parts.branches) :
    [CaseBody.whenKeyword, branch.1, CaseBody.thenKeyword, branch.2] <:+: parts.texts := by
  have among := List.infix_of_mem_flatten (List.mem_map_of_mem (f := fun branch =>
    [CaseBody.whenKeyword, branch.1, CaseBody.thenKeyword, branch.2]) mem)
  exact among.trans (List.prefix_append _ _).isInfix

theorem isInfix_default {u : Text} (mem : u ∈ parts.default) :
    [CaseBody.elseKeyword, u] <:+: parts.texts := by
  rw [texts, Option.mem_def.1 mem]
  exact (List.suffix_append _ _).isInfix

/-- What the parts are read as, if each is read. -/
theorem exists_readAs
    (branches : ∀ branch ∈ parts.branches,
      (condition none parse branch.1).Succeeds ∧ (parse branch.2).Succeeds)
    (default : ∀ u ∈ parts.default, (parse u).Succeeds) :
    ∃ read last, parts.ReadAs none parse read last := by
  obtain ⟨written, last⟩ := parts
  have each : ∃ read : List (Condition × Expr), List.Forall₂ (fun written read =>
      condition none parse written.1 = .ok read.1 ∧ parse written.2 = .ok read.2) written read := by
    clear default
    induction written with
    | nil => exact ⟨[], .nil⟩
    | cons branch written ih =>
      obtain ⟨⟨⟨c, first⟩, e, second⟩, others⟩ := List.forall_mem_cons.1 branches
      obtain ⟨read, behind⟩ := ih others
      exact ⟨(c, e) :: read, .cons ⟨first, second⟩ behind⟩
  obtain ⟨read, each⟩ := each
  cases last with
  | none => exact ⟨read, none, each, .none⟩
  | some u =>
    obtain ⟨e, value⟩ := default u rfl
    exact ⟨read, some e, each, .some value⟩

end CaseParts

/-- A body in order is read, if its conditions, values and default are. -/
theorem caseBody_succeeds {body : Text} (inOrder : CaseBody.InOrder body)
    (conditions : ∀ v, CaseBody.IsCondition body v → (condition none parse v).Succeeds)
    (values : ∀ u, CaseBody.IsValue body u → (parse u).Succeeds) :
    (caseBody none parse body).Succeeds := by
  obtain ⟨parts, written, someBranch, proper⟩ := inOrder
  have branches : ∀ branch ∈ parts.branches,
      (condition none parse branch.1).Succeeds ∧ (parse branch.2).Succeeds := by
    intro branch mem
    obtain ⟨first, second⟩ := proper.branches branch mem
    have inside := written ▸ CaseParts.isInfix_branch mem
    have front : [CaseBody.whenKeyword, branch.1]
        <:+: [CaseBody.whenKeyword, branch.1, CaseBody.thenKeyword, branch.2] := ⟨[], _, rfl⟩
    have back : [CaseBody.thenKeyword, branch.2]
        <:+: [CaseBody.whenKeyword, branch.1, CaseBody.thenKeyword, branch.2] :=
      ⟨[CaseBody.whenKeyword, branch.1], [], rfl⟩
    exact ⟨conditions _ ⟨first, _, List.mem_singleton_self _, front.trans inside⟩,
      values _ ⟨second, _, List.mem_cons_self .., back.trans inside⟩⟩
  have default : ∀ u ∈ parts.default, (parse u).Succeeds := by
    intro u mem
    refine values u ⟨proper.default u mem, CaseBody.elseKeyword, by simp, ?_⟩
    exact written ▸ CaseParts.isInfix_default mem
  obtain ⟨read, last, readAs⟩ := CaseParts.exists_readAs branches default
  have texts : (CaseBody.tokens body).map Token.print = parts.texts := written
  rw [caseBody, texts]
  exact ⟨_, caseParts_texts (.inr someBranch) proper readAs⟩

theorem case?_succeeds (reads : ∀ u, Asks t u → (parse u).Succeeds)
    (inOrder : ∀ c, Form.case? t = some c → c.opened = c.closed → CaseBody.InOrder c.body)
    (conditions : ∀ c v, Form.case? t = some c → c.opened = c.closed →
      CaseBody.IsCondition c.body v → Connected.Alternates (Connected.tokens v)) :
    (case? none parse t).Succeeds := by
  unfold case?
  split
  · exact ⟨none, rfl⟩
  rename_i c found
  split
  · exact ⟨none, rfl⟩
  rename_i unequal
  have both : c.opened = c.closed := not_not.1 unequal
  have body : (caseBody none parse c.body).Succeeds := by
    refine caseBody_succeeds (inOrder c found both) (fun v isCondition => ?_)
      fun u isValue => reads u (.value found both isValue)
    refine (conditionOfTokens_of_alternates (conditions c v found both isCondition) ?_).1
    refine fun token mem => token.each_of_hasText fun x has u hasSide => reads u ?_
    exact .side ⟨c, v, found, both, isCondition, token, mem, has⟩ hasSide
  exact body.bind fun parts => ⟨_, rfl⟩

end Grammar

/-! ### Causes of errors -/

namespace Grammar

/-- The trimmed text is empty, a chain whose operands and operators do not take turns, or a case
distinction whose parts are not in order or in which a condition is none. -/
inductive Malformed (t : Text) : Prop
  | empty (nothing : t = [])
  | chain (several : 3 ≤ (Chain.tokens (Form.splitAlias t).1).length)
    (uneven : ¬ Chain.Alternates ((Chain.tokens (Form.splitAlias t).1).map Token.print))
  | case {c : Form.Case} (found : Form.case? t = some c) (both : c.opened = c.closed)
    (disordered : ¬ CaseBody.InOrder c.body)
  | condition {c : Form.Case} {v : Text} (found : Form.case? t = some c)
    (both : c.opened = c.closed) (isCondition : CaseBody.IsCondition c.body v)
    (uneven : ¬ Connected.Alternates (Connected.tokens v))

/-- **A text is read if it is not malformed, no number in foreign digits, and what is asked for is
read.** -/
theorem expression_succeeds (formed : ¬ Malformed t.trim)
    (readable : ¬ Form.IsForeignNumber t.trim)
    (reads : ∀ u, Asks t.trim u → (parse u).Succeeds) : (expression none parse t).Succeeds := by
  have chain := chain?_succeeds reads fun several => not_not.1 fun uneven =>
    formed (.chain several uneven)
  have distinction := case?_succeeds reads
    (fun c found both => not_not.1 fun disordered => formed (.case found both disordered))
    fun c v found both isCondition => not_not.1 fun uneven =>
      formed (.condition found both isCondition uneven)
  unfold expression
  extract_lets x
  split
  · rename_i empty
    exact absurd (.empty (List.isEmpty_iff.1 empty)) formed
  split
  · exact ⟨_, rfl⟩
  split
  · exact ⟨_, rfl⟩
  refine (scalar?_succeeds readable).bind fun literal => ?_
  cases literal with
  | some e => exact ⟨e, rfl⟩
  | none =>
  refine chain.bind fun chain => ?_
  cases chain with
  | some e => exact ⟨e, rfl⟩
  | none =>
  refine (call?_succeeds reads).bind fun call => ?_
  cases call with
  | some e => exact ⟨e, rfl⟩
  | none =>
  refine distinction.bind fun distinction => ?_
  cases distinction with
  | some e => exact ⟨e, rfl⟩
  | none => exact ⟨_, rfl⟩

/-- The text is read inside the other one, at some depth, or is that one. -/
def Inside : Text → Text → Prop :=
  Relation.ReflTransGen fun t u => Asks t.trim u

end Grammar

namespace Parser

open Grammar

/-- **A text is read if nothing inside it is malformed or a number in foreign digits.** -/
theorem succeeds_of_inside
    (sound : ∀ u, Inside t u → ¬ Malformed u.trim ∧ ¬ Form.IsForeignNumber u.trim) :
    (expression t none).Succeeds := by
  induction weight : Weight.chars.of t using Nat.strongRecOn generalizing t with
  | ind n ih =>
    subst weight
    obtain ⟨formed, readable⟩ := sound t .refl
    rw [expression_eq_grammar]
    refine Grammar.expression_succeeds formed readable fun u asks => ?_
    have lighter : Weight.chars.of u < Weight.chars.of t :=
      Nat.lt_of_lt_of_le asks.lt (trim_le .chars t)
    exact ih _ lighter (fun v inside => sound v (inside.head asks)) rfl

end Parser

/-! ### Plain texts -/

namespace Chain

/-- Without operators between spaces there is at most one token. -/
theorem length_tokens_le_one (free : ∀ op : MathOp, ¬ [' ', op.symbol, ' '] <:+: t) :
    (tokens t).length ≤ 1 := by
  have whole : ∀ {t : Text}, (∀ op : MathOp, ¬ [' ', op.symbol, ' '] <:+: t) →
      (tokenizer.tokenize t).length ≤ 1 := by
    intro t free
    have divided := Separation.divided_tokenizeWithin symbols_eq foreign t.length t
    change (tokenizer.tokenizeWithin (t.length + 1) t).length ≤ 1
    generalize tokenizer.tokenizeWithin (t.length + 1) t = tokens at divided
    cases divided with
    | last =>
      rcases tokenizer.flat_cases t with none | ⟨y, one, -⟩
      · simp [none]
      · simp [one]
    | @separated x separator word rest tokens mem agrees =>
      obtain ⟨op, -, rfl⟩ := List.mem_map.1 mem
      obtain rfl := eq_of_forall₂_agree agrees
      exact absurd ⟨x, rest, List.append_assoc ..⟩ (free op)
    | grouped groups => cases groups
  rw [tokens, tokensBy]
  generalize t.length = depth
  induction depth generalizing t with
  | zero => exact whole free
  | succ depth ih =>
    rw [tokensWithin]
    split
    · rename_i one single
      split
      · rename_i inner unwrapped
        have part : one <:+: t :=
          ((each_tokensWithin 0 t (.text one) (by simp [tokensWithin, single])).of_hasText .text).1
        refine ih fun op here => free op (here.trans ?_)
        exact (isInfix_of_unwrapped? unwrapped).trans ((isInfix_trim one).trans part)
      · simp
    · exact whole free

end Chain

namespace Grammar

/-- The text is not blank, no operator stands between spaces in it, and the word `CASE` does not
stand in it, in any letters that keywords are recognized in. -/
structure IsPlain (t : Text) : Prop where
  visible : t.trim ≠ []
  noOperator : ∀ op : MathOp, ¬ [' ', op.symbol, ' '] <:+: t
  noCase : ∀ x, x <:+: t → ¬ Form.IsWritten caseKeyword x

/-- Whether a text is plain can be checked, place by place. -/
theorem isPlain_iff :
    IsPlain t ↔ t.trim ≠ [] ∧ (∀ op ∈ MathOp.all, ¬ [' ', op.symbol, ' '] <:+: t)
      ∧ ∀ back ∈ t.tails, Form.afterWord? caseKeyword back = none := by
  constructor
  · rintro ⟨visible, noOperator, noCase⟩
    refine ⟨visible, fun op _ => noOperator op, fun back mem => ?_⟩
    by_contra starts
    obtain ⟨rest, starts⟩ := Option.ne_none_iff_exists'.1 starts
    obtain ⟨word, rfl, written⟩ := Form.exists_of_afterWord? starts
    obtain ⟨front, rfl⟩ := (List.mem_tails ..).1 mem
    exact noCase word ⟨front, rest, List.append_assoc ..⟩ written
  · rintro ⟨visible, noOperator, noCase⟩
    refine ⟨visible, fun op => noOperator op (by cases op <;> decide), ?_⟩
    rintro word ⟨front, rest, rfl⟩ written
    have back : word ++ rest ∈ (front ++ word ++ rest).tails :=
      (List.mem_tails ..).2 ⟨front, (List.append_assoc ..).symm⟩
    have found := Form.afterWord?_of_written written rest
    rw [noCase _ back] at found
    cases found

instance (t : Text) : Decidable (IsPlain t) :=
  decidable_of_iff' _ isPlain_iff

namespace IsPlain

theorem of_isInfix (plain : IsPlain t) (inside : u <:+: t) (trimmed : IsTrimmed u) : IsPlain u where
  visible := by
    rw [trimmed.trim_eq]
    exact trimmed.nonempty
  noOperator op here := plain.noOperator op (here.trans inside)
  noCase x here := plain.noCase x (here.trans inside)

theorem trim (plain : IsPlain t) : IsPlain t.trim :=
  plain.of_isInfix (isInfix_trim t) (isTrimmed_trim plain.visible)

theorem case?_eq_none (plain : IsPlain t) : Form.case? t = none := by
  by_contra found
  obtain ⟨c, found⟩ := Option.ne_none_iff_exists'.1 found
  obtain ⟨lead, word, gap, tail, rfl, -, written, -⟩ := Form.exists_of_case? found
  refine plain.noCase word ⟨(if c.opened then ['('] else []) ++ lead, gap ++ (c.body ++ tail), ?_⟩
    written
  simp only [List.append_assoc]

/-- What is asked for is an excerpt, trimmed. -/
theorem of_asks (plain : IsPlain t) (asks : Asks t u) : u <:+: t ∧ IsTrimmed u := by
  cases asks with
  | unwrapped _ single _ =>
    exact (Chain.each_tokens t (.text u) (single ▸ List.mem_singleton_self _)).of_hasText .text
  | operand _ mem _ =>
    have part := (Chain.each_tokens _ _ mem).of_hasText .text
    exact ⟨part.1.trans (Form.isPrefix_splitAlias t).isInfix, part.2⟩
  | @argument call _ found mem =>
    have inside := (FieldList.isInfix_of_mem_items mem).trans call.isInfix_list
    exact ⟨inside.trans (Form.isInfix_of_call? found), FieldList.isTrimmed_of_mem_items mem⟩
  | value found _ _ =>
    rw [plain.case?_eq_none] at found
    cases found
  | side compares _ =>
    obtain ⟨c, v, found, -⟩ := compares
    rw [plain.case?_eq_none] at found
    cases found

/-- **What is read inside a plain text is an excerpt of it, and plain.** -/
theorem of_inside (plain : IsPlain t) (inside : Inside t u) : IsPlain u ∧ u <:+: t := by
  induction inside with
  | refl => exact ⟨plain, List.infix_rfl⟩
  | @tail v u _ asks ih =>
    obtain ⟨plain, part⟩ := ih
    obtain ⟨here, trimmed⟩ := plain.trim.of_asks asks
    have excerpt := here.trans (isInfix_trim v)
    exact ⟨plain.of_isInfix excerpt trimmed, excerpt.trans part⟩

theorem not_malformed (plain : IsPlain t) : ¬ Malformed t.trim := by
  intro malformed
  cases malformed with
  | empty nothing => exact plain.visible nothing
  | chain several _ =>
    have part := (Form.isPrefix_splitAlias t.trim).isInfix
    have single := Chain.length_tokens_le_one fun op here =>
      plain.trim.noOperator op (here.trans part)
    omega
  | case found _ _ =>
    rw [plain.trim.case?_eq_none] at found
    cases found
  | condition found _ _ _ =>
    rw [plain.trim.case?_eq_none] at found
    cases found

end IsPlain

end Grammar

/-! ### The parser -/

namespace Parser

open Grammar

/-- **Only what is malformed is refused.** An error comes from a text that is empty, an uneven
chain, or a case distinction out of order or with an uneven condition, at hand or read inside it, or
from a number in foreign digits. A plain text is read, and so is every text inside it, exactly if
none of them is such a number. -/
theorem refuses_only_malformed (t : Text) :
    (∀ e, expression t none = .error e →
      ∃ u, Inside t u ∧ (Malformed u.trim ∨ Form.IsForeignNumber u.trim))
    ∧ (IsPlain t → ((∀ u, Inside t u → ∃ e, expression u none = .ok e)
      ↔ ∀ u, Inside t u → ¬ Form.IsForeignNumber u.trim)) := by
  refine ⟨fun e refused => ?_, fun plain => ⟨fun succeeds u inside => ?_, ?_⟩⟩
  · by_contra sound
    obtain ⟨e', read⟩ := @succeeds_of_inside t fun u inside =>
      not_or.1 fun cause => sound ⟨u, inside, cause⟩
    rw [refused] at read
    cases read
  · have read := succeeds u inside
    rw [expression_eq_grammar] at read
    exact not_isForeignNumber read
  · refine fun readable u inside => succeeds_of_inside fun v behind => ?_
    have within := inside.trans behind
    exact ⟨(plain.of_inside within).1.not_malformed, readable v within⟩

section Samples

/-- A call with a chain among its arguments in which an operand is missing. -/
def unevenCall : Text :=
  "ROUND(\x7bprice\x7d +  * 2, 1)".toList

/-- A call with numbers, a nested call, and text that is handed on. -/
def plainCall : Text :=
  "ROUND((\x7bprice\x7d), -2.50, MAX(1, now) , \x7bof no\x7d form) AS total".toList

theorem refuses_only_malformed_call :
    ((expression unevenCall none).isOk = false
        ∧ ∃ u, Inside unevenCall u ∧ (Malformed u.trim ∨ Form.IsForeignNumber u.trim))
      ∧ IsPlain plainCall ∧ (∀ u, Inside plainCall u → ¬ Form.IsForeignNumber u.trim)
      ∧ ∀ u, Inside plainCall u → ∃ e, expression u none = .ok e := by
  have refused : (expression unevenCall none).isOk = false := by decide +kernel
  have plain : IsPlain plainCall := by decide +kernel
  have checked : (plainCall.all fun c => decide (IsAscii c)) = true := by decide +kernel
  have ascii : ∀ c ∈ plainCall, IsAscii c := fun c mem =>
    of_decide_eq_true (List.all_eq_true.1 checked c mem)
  have readable : ∀ u, Inside plainCall u → ¬ Form.IsForeignNumber u.trim := by
    intro u inside
    have part := (isInfix_trim u).trans (plain.of_inside inside).2
    exact Form.not_isForeignNumber_of_isAscii fun c mem => ascii c (part.subset mem)
  refine ⟨⟨refused, ?_⟩, plain, readable, ((refuses_only_malformed plainCall).2 plain).2 readable⟩
  cases read : expression unevenCall none with
  | ok e =>
    rw [read] at refused
    cases refused
  | error e => exact (refuses_only_malformed unevenCall).1 e read

/-- The Arabic digit three. -/
def arabicThree : Text := ['\u0663']

/-- A plain text that is refused. -/
theorem refuses_arabicThree :
    IsPlain arabicThree ∧ (expression arabicThree none).isOk = false := by
  decide +kernel

end Samples

end Parser

end RecordMapper
