import RecordMapper.Database.Basic
import RecordMapper.Proofs.Query.Leaves
import RecordMapper.Proofs.Query.Rules
import RecordMapper.Proofs.Query.Substitution

/-!
The parser retains the field references that a query mentions.

Every rule of the grammar takes a text apart into texts that mention what it mentioned, and reads
each of them as a part of its result. So by induction on the depth of the parser, **a reference that
a text mentions is a leaf of what is read from it, or stands in text that is handed on**
(`Parser.retains_expressionWithin`): no rule drops a reference, and only the fallback keeps it as
text. A reference may also end in a string literal, if the value of a placeholder brings its quotes.
-/

namespace RecordMapper

open Text

/-! ### Leaves that hold a reference -/

namespace Qualified

/-- The leaf is a reference with the same names, or the reference stands in its text: in text that
is handed on, or in a string literal, if those count. -/
def HeldBy (r : Qualified) (literals : Bool) : Expr → Prop
  | .field ref => r.Names ref
  | .raw sql => r.text <:+: sql.toList
  | .scalar (.string s) _ => literals = true ∧ r.text <:+: s.toList
  | _ => False

/-- One of the leaves holds the reference. -/
def Among (r : Qualified) (literals : Bool) (leaves : List Expr) : Prop :=
  ∃ leaf ∈ leaves, r.HeldBy literals leaf

theorem Among.mono {r : Qualified} {literals : Bool} {leaves leaves' : List Expr}
    (among : r.Among literals leaves) (sub : leaves ⊆ leaves') : r.Among literals leaves' := by
  obtain ⟨leaf, mem, held⟩ := among
  exact ⟨leaf, sub mem, held⟩

end Qualified

namespace Grammar

/-- What is read from a text has a leaf that holds each reference that the text mentions. -/
def Retains (r : Qualified) (literals : Bool) (parse : Text → Result Expr) : Prop :=
  ∀ t e, parse t = .ok e → r.MentionedIn t → r.Among literals e.leaves

variable {r : Qualified} {literals : Bool} {bindings : Option Bindings}
  {parse : Text → Result Expr} (retains : Retains r literals parse)
include retains

/-! ### Conditions -/

theorem comparison_retains {t : Text} {c : Condition}
    (read : comparison bindings parse t = .ok c) (mentioned : r.MentionedIn t) :
    r.Among literals c.leaves := by
  unfold comparison at read
  split at read
  · cases read
  · split at read
    · cases read
    · rename_i left op right split
      split at read
      · cases read
      · obtain ⟨lhs, first, more⟩ := Result.exists_of_bind read
        obtain ⟨rhs, second, same⟩ := Result.exists_of_bind more
        cases same
        rcases CmpOp.mentioned_of_split? split mentioned with before | behind
        · exact (retains _ _ first before.trim).mono (List.subset_append_left ..)
        · exact (retains _ _ second behind.trim).mono (List.subset_append_right ..)

omit retains in
/-- A token that mentions a reference is no connector. -/
theorem connector?_of_mentions {token : Token} (mentions : token.Mentions r) :
    connector? token = none := by
  cases mentions with
  | nested => rfl
  | @text t mentioned =>
    have other : ∀ op : BoolOp, sameLetters op.keyword t = false := by
      intro op
      rw [← Bool.not_eq_true]
      intro same
      have neutral : IsNeutral op.keyword := by cases op <;> exact isNeutral_of_checked rfl
      exact mentioned.not_isNeutral (neutral.of_agree (sameLetters_iff.1 same))
    show BoolOp.ofKeyword? t = none
    simp [BoolOp.ofKeyword?, other]

omit retains in
/-- Every token behind the first one that is no connector is read as a condition. -/
theorem exists_of_joined {tokens : List Token} {pending : Option BoolOp}
    {children : List (Option BoolOp × Condition)}
    (read : joined bindings parse pending tokens = .ok children) {token : Token}
    (mem : token ∈ tokens) (condition : connector? token = none) :
    ∃ child ∈ children, conditionOfToken bindings parse token = .ok child.2 := by
  induction tokens generalizing pending children with
  | nil => cases mem
  | cons first rest ih =>
    cases pending with
    | none =>
      cases connects : connector? first with
      | none =>
        simp only [joined, connects] at read
        cases read
      | some op =>
        simp only [joined, connects] at read
        rcases List.mem_cons.1 mem with rfl | later
        · rw [condition] at connects
          cases connects
        · exact ih read later
    | some op =>
      cases connects : connector? first with
      | some _ =>
        simp only [joined, connects] at read
        cases read
      | none =>
        simp only [joined, connects] at read
        obtain ⟨c, here, more⟩ := Result.exists_of_bind read
        obtain ⟨others, tail, same⟩ := Result.exists_of_bind more
        cases same
        rcases List.mem_cons.1 mem with rfl | later
        · exact ⟨_, List.mem_cons_self .., here⟩
        · obtain ⟨child, member, found⟩ := ih tail later
          exact ⟨child, List.mem_cons_of_mem _ member, found⟩

omit retains in
/-- Every token that is no connector is read as a condition, whose leaves are leaves of the
whole. -/
theorem exists_of_conditionOfTokens {tokens : List Token} {c : Condition}
    (read : conditionOfTokens bindings parse tokens = .ok c) {token : Token}
    (mem : token ∈ tokens) (condition : connector? token = none) :
    ∃ c', conditionOfToken bindings parse token = .ok c' ∧ c'.leaves ⊆ c.leaves := by
  match tokens with
  | [] => cases mem
  | [one] =>
    obtain rfl := List.mem_singleton.1 mem
    exact ⟨c, read, List.Subset.refl _⟩
  | first :: second :: rest =>
    rw [conditionOfTokens.eq_def] at read
    dsimp only at read
    split at read
    · cases read
    · obtain ⟨head, here, more⟩ := Result.exists_of_bind read
      obtain ⟨others, tail, same⟩ := Result.exists_of_bind more
      cases same
      rcases List.mem_cons.1 mem with rfl | later
      · exact ⟨head, here, List.subset_append_left ..⟩
      · obtain ⟨child, member, found⟩ := exists_of_joined tail later condition
        refine ⟨child.2, found, fun leaf held => ?_⟩
        exact mem_childLeaves.2 ⟨child, List.mem_cons_of_mem _ member, held⟩

theorem conditionOfToken_retains {token : Token} (mentions : token.Mentions r) {c : Condition}
    (read : conditionOfToken bindings parse token = .ok c) : r.Among literals c.leaves := by
  induction mentions generalizing c with
  | text mentioned => exact comparison_retains retains read mentioned
  | @nested tokens token mem inside ih =>
    have nested : conditionOfTokens bindings parse tokens = .ok c := read
    obtain ⟨c', found, sub⟩ :=
      exists_of_conditionOfTokens nested mem (connector?_of_mentions inside)
    exact (ih found).mono sub

theorem condition_retains {t : Text} {c : Condition}
    (read : condition bindings parse t = .ok c) (mentioned : r.MentionedIn t) :
    r.Among literals c.leaves := by
  obtain ⟨token, mem, mentions⟩ := Connected.exists_token_of_mentioned mentioned
  obtain ⟨c', found, sub⟩ := exists_of_conditionOfTokens read mem (connector?_of_mentions mentions)
  exact (conditionOfToken_retains retains mentions found).mono sub

/-! ### Chains -/

theorem operand_retains {whole t : Text} {e : Expr} (read : operand parse whole t = .ok e)
    (mentioned : r.MentionedIn t) : r.Among literals e.leaves := by
  unfold operand at read
  split at read
  · cases read
  · exact retains _ _ read mentioned

omit retains in
theorem isNeutral_of_ofSymbol? {t : Text} {op : MathOp} (sign : MathOp.ofSymbol? t = some op) :
    IsNeutral t := by
  have same := List.find?_some sign
  rw [beq_iff_eq] at same
  rw [same]
  cases op <;> exact isNeutral_of_checked rfl

/-- Every text behind an operator is read as an operand. -/
theorem links_retains {whole : Text} : (texts : List Text) → texts.length % 2 = 0 →
    ∀ {others : List (Option MathOp × Expr)}, links parse whole texts = .ok others →
    ∀ {x : Text}, x ∈ texts → r.MentionedIn x → r.Among literals (operandLeaves others)
  | [], _, _, _, _, mem, _ => by cases mem
  | [_], odd, _, _, _, _, _ => by cases odd
  | sign :: t :: rest, even, others, read, x, mem, mentioned => by
    rw [links] at read
    split at read
    · cases read
    · rename_i op found
      obtain ⟨e, here, more⟩ := Result.exists_of_bind read
      obtain ⟨others', tail, same⟩ := Result.exists_of_bind more
      cases same
      rcases List.mem_cons.1 mem with rfl | mem
      · exact absurd (isNeutral_of_ofSymbol? found) mentioned.not_isNeutral
      · rcases List.mem_cons.1 mem with rfl | mem
        · exact (operand_retains retains here mentioned).mono (List.subset_append_left ..)
        · have shorter : rest.length % 2 = 0 := by
            simp only [List.length_cons] at even
            omega
          exact (links_retains rest shorter tail mem mentioned).mono (List.subset_append_right ..)

theorem chain?_retains {t : Text} {e : Expr} (read : chain? parse t = .ok (some e))
    (mentioned : r.MentionedIn t) : r.Among literals e.leaves := by
  have inside := Form.mentioned_of_splitAlias mentioned
  unfold chain? at read
  generalize Form.splitAlias t = split at read inside
  obtain ⟨body, a⟩ := split
  obtain ⟨x, mem, found⟩ := Chain.exists_token_of_mentioned inside
  dsimp only at read mem
  split at read
  · split at read
    · rename_i inner single
      rw [single, List.mem_singleton] at mem
      cases mem
      split at read
      · cases read
      · obtain ⟨e', here, same⟩ := Result.exists_of_bind read
        split at same
        · cases same
        · cases same
          exact retains _ _ here found
    · cases read
  · split at read
    · cases read
    · rename_i odd
      split at read
      · rename_i first rest flat
        obtain ⟨e', here, more⟩ := Result.exists_of_bind read
        obtain ⟨others, tail, same⟩ := Result.exists_of_bind more
        cases same
        have tokens := eq_map_of_mapM_text? flat
        have even : rest.length % 2 = 0 := by
          rw [tokens, List.length_map, List.length_cons] at odd
          omega
        have member : x ∈ first :: rest := by
          rw [tokens] at mem
          obtain ⟨y, member, same⟩ := List.mem_map.1 mem
          cases same
          exact member
        rcases List.mem_cons.1 member with rfl | later
        · exact (operand_retains retains here found).mono (List.subset_append_left ..)
        · exact (links_retains retains rest even tail later found).mono
            (List.subset_append_right ..)
      · cases read

/-! ### Lists and calls -/

theorem fieldList_retains {t : Text} {args : List Expr} (read : fieldList parse t = .ok args)
    (mentioned : r.MentionedIn t) : r.Among literals (argumentLeaves args) := by
  obtain ⟨item, mem, found⟩ := FieldList.exists_item_of_mentioned mentioned
  obtain ⟨e, member, here⟩ := Result.exists_of_mapM read mem
  exact (retains _ _ here found).mono fun leaf held => mem_argumentLeaves.2 ⟨e, member, held⟩

theorem call?_retains {t : Text} {e : Expr} (read : call? parse t = .ok (some e))
    (mentioned : r.MentionedIn t) : r.Among literals e.leaves := by
  unfold call? at read
  split at read
  · cases read
  · rename_i call found
    have arguments := (Form.mentioned_of_call? found mentioned).trim
    dsimp only at read
    split at read
    · rename_i rest distinct
      obtain ⟨args, list, same⟩ := Result.exists_of_bind read
      cases same
      obtain ⟨word, agrees, split⟩ := after?_eq_some_iff.1 distinct
      rw [split] at arguments
      have neutral : IsNeutral word := IsNeutral.of_agree (isNeutral_of_checked rfl) agrees
      exact fieldList_retains retains list (arguments.of_append neutral).trimStart
    · obtain ⟨args, list, same⟩ := Result.exists_of_bind read
      cases same
      exact fieldList_retains retains list arguments

/-! ### Case distinctions -/

omit retains in
theorem mem_of_caseOperand {body keyword t : Text} {texts rest : List Text}
    (read : caseOperand body keyword texts = .ok (t, rest)) : texts = t :: rest := by
  cases texts with
  | nil => cases read
  | cons first texts =>
    rw [caseOperand] at read
    split at read
    · cases read
    · cases read
      rfl

theorem caseDefault_retains {body : Text} {texts : List Text} {e : Expr}
    (read : caseDefault parse body texts = .ok e) {x : Text} (mem : x ∈ texts)
    (mentioned : r.MentionedIn x) : r.Among literals e.leaves := by
  obtain ⟨⟨t, rest⟩, operand, more⟩ := Result.exists_of_bind read
  obtain ⟨e', here, last⟩ := Result.exists_of_bind more
  obtain rfl := mem_of_caseOperand operand
  cases rest with
  | nil =>
    cases last
    obtain rfl := List.mem_singleton.1 mem
    exact retains _ _ here mentioned
  | cons other rest => cases last

omit retains in
theorem isNeutral_of_mem_keywords {word : Text} (mem : word ∈ CaseBody.keywords) :
    IsNeutral word := by
  have checked : (CaseBody.keywords.all fun word =>
      word.all fun c => c != '"' && c != '\x7b' && c != '\x7d') = true := rfl
  exact isNeutral_of_checked (List.all_eq_true.1 checked word mem)

/-- How the texts of a case distinction are read: branches, and perhaps a default behind them. -/
inductive CaseRead (bindings : Option Bindings) (parse : Text → Result Expr) (body : Text) :
    List Text → List (Condition × Expr) → Option Expr → Prop
  | done : CaseRead bindings parse body [] [] none
  | branch {c t : Text} {rest : List Text} {c' : Condition} {e : Expr}
    {branches : List (Condition × Expr)} {default : Option Expr}
    (condition : condition bindings parse c = .ok c') (value : parse t = .ok e)
    (behind : CaseRead bindings parse body rest branches default) :
    CaseRead bindings parse body
      (CaseBody.whenKeyword :: c :: CaseBody.thenKeyword :: t :: rest) ((c', e) :: branches) default
  | default {rest : List Text} {e : Expr} (value : caseDefault parse body rest = .ok e) :
    CaseRead bindings parse body (CaseBody.elseKeyword :: rest) [] (some e)

omit retains in
theorem CaseRead.of_caseParts {body : Text} {hasBranch : Bool} {texts : List Text}
    {branches : List (Condition × Expr)} {default : Option Expr}
    (read : caseParts bindings parse body hasBranch texts = .ok (branches, default)) :
    CaseRead bindings parse body texts branches default := by
  induction size : texts.length using Nat.strong_induction_on
    generalizing texts hasBranch branches default with
  | h n ih =>
    subst size
    unfold caseParts at read
    split at read
    · cases read
      exact .done
    · cases read
    · rename_i keyword texts
      split at read
      · rename_i opens
        subst opens
        split at read
        · rename_i c separator t rest
          split at read
          · cases read
          split at read
          · cases read
          rename_i separates
          split at read
          · cases read
          obtain ⟨c', condition, more⟩ := Result.exists_of_bind read
          obtain ⟨e, value, more⟩ := Result.exists_of_bind more
          obtain ⟨⟨branches', default'⟩, tail, same⟩ := Result.exists_of_bind more
          cases same
          obtain rfl := not_not.1 separates
          refine .branch condition value (ih rest.length ?_ tail rfl)
          simp only [List.length_cons]
          omega
        · obtain ⟨⟨_, rest⟩, -, more⟩ := Result.exists_of_bind read
          dsimp only at more
          split at more
          · cases more
          · cases more
      · split at read
        · rename_i closes
          obtain ⟨e, value, same⟩ := Result.exists_of_bind read
          cases same
          obtain rfl := closes.1
          exact .default value
        · cases read

theorem CaseRead.among {body : Text} {texts : List Text} {branches : List (Condition × Expr)}
    {default : Option Expr} (read : CaseRead bindings parse body texts branches default) {x : Text}
    (mem : x ∈ texts) (mentioned : r.MentionedIn x) :
    r.Among literals (branchLeaves branches ++ defaultLeaves default) := by
  have other : ∀ {word}, word ∈ CaseBody.keywords → x ≠ word := by
    rintro word member rfl
    exact mentioned.not_isNeutral (isNeutral_of_mem_keywords member)
  induction read with
  | done => cases mem
  | @branch c t rest c' e branches default condition value _ ih =>
    rw [branchLeaves, List.append_assoc, List.append_assoc]
    simp only [List.mem_cons] at mem
    rcases mem with rfl | rfl | rfl | rfl | later
    · exact absurd rfl (other (by simp [CaseBody.keywords]))
    · exact (condition_retains retains condition mentioned).mono (List.subset_append_left ..)
    · exact absurd rfl (other (by simp [CaseBody.keywords]))
    · refine (retains _ _ value mentioned).mono (List.Subset.trans ?_ (List.subset_append_right ..))
      exact List.subset_append_left ..
    · refine (ih later).mono (List.Subset.trans ?_ (List.subset_append_right ..))
      exact List.subset_append_right ..
  | @default rest e value =>
    rcases List.mem_cons.1 mem with rfl | later
    · exact absurd rfl (other (by simp [CaseBody.keywords]))
    · exact caseDefault_retains retains value later mentioned

theorem case?_retains {t : Text} {e : Expr} (read : case? bindings parse t = .ok (some e))
    (mentioned : r.MentionedIn t) : r.Among literals e.leaves := by
  unfold case? at read
  split at read
  · cases read
  · rename_i c found
    split at read
    · cases read
    · obtain ⟨⟨branches, default⟩, parts, same⟩ := Result.exists_of_bind read
      cases same
      obtain ⟨x, mem, inside⟩ :=
        CaseBody.exists_token_of_mentioned (Form.mentioned_of_case? found mentioned)
      exact (CaseRead.of_caseParts parts).among retains (List.mem_map_of_mem mem) inside

/-! ### Expressions -/

/-- The bindings keep the references of texts: their names are words, and their values put none into
a literal, unless literals count. -/
structure KeepReferences (literals : Bool) (b : Bindings) : Prop where
  named : b.IsNamed
  unquoted : literals = false → b.IsUnquoted

omit retains in
theorem isInfix_substitute (keep : ∀ b ∈ bindings, KeepReferences literals b) {t : Text}
    (mentioned : r.MentionedIn t) : r.text <:+: substitute bindings t := by
  cases bindings with
  | none => exact mentioned.isInfix
  | some b => exact Bindings.isInfix_substitute (keep b rfl).named mentioned.isInfix

omit retains in
/-- A literal holds the reference, if literals count, and otherwise there is none. -/
theorem scalar?_retains (keep : ∀ b ∈ bindings, KeepReferences literals b) {t : Text}
    (mentioned : r.MentionedIn t) {scalar : Option Expr} (read : scalar? bindings t = .ok scalar) :
    ∀ e ∈ scalar, r.Among literals e.leaves := by
  cases literals with
  | false =>
    have outside : r.Outside (substitute bindings t) := by
      cases bindings with
      | none => exact mentioned.outside
      | some b =>
        exact Bindings.outside_substitute (keep b rfl).named ((keep b rfl).unquoted rfl)
          mentioned.outside
    rw [scalar?_of_literal (Form.literal?_of_outside outside)] at read
    cases read
    exact fun e mem => by cases mem
  | true =>
    unfold scalar? at read
    split at read
    · cases read
      exact fun e mem => by cases mem
    · rename_i found
      obtain ⟨_, number, -⟩ := Form.isInfix_of_literal? found (isInfix_substitute keep mentioned)
      cases number
    · rename_i contents a found
      obtain ⟨_, same, inside⟩ := Form.isInfix_of_literal? found (isInfix_substitute keep mentioned)
      cases same
      cases read
      rintro e ⟨⟩
      refine ⟨_, List.mem_singleton_self _, rfl, ?_⟩
      rw [String.toList_ofList]
      exact Form.isInfix_unescape inside

/-- **Every rule retains references**, and so does the text that none applies to. -/
theorem expression_retains (keep : ∀ b ∈ bindings, KeepReferences literals b) :
    Retains r literals (expression bindings parse) := by
  intro t e read mentioned
  have trimmed := mentioned.trim
  cases Grammar.readBy_of_expression read with
  | field found => exact ⟨_, List.mem_singleton_self _, Form.names_of_field? found trimmed⟩
  | bound found =>
    obtain ⟨b, -, found⟩ := Option.bind_eq_some_iff.1 found
    obtain ⟨name, placeholder, -⟩ := Option.bind_eq_some_iff.1 found
    exact absurd trimmed (Form.not_mentioned_of_placeholder? placeholder)
  | scalar found => exact scalar?_retains keep trimmed found _ rfl
  | chain found => exact chain?_retains retains found trimmed
  | call _ found => exact call?_retains retains found trimmed
  | case _ _ found => exact case?_retains retains found trimmed
  | raw _ _ _ =>
    refine ⟨_, List.mem_singleton_self _, ?_⟩
    rw [Qualified.HeldBy, String.toList_ofList]
    exact isInfix_substitute keep trimmed

end Grammar

/-! ### The parser -/

namespace Parser

variable {r : Qualified} {literals : Bool} {bindings : Option Bindings}
  (keep : ∀ b ∈ bindings, Grammar.KeepReferences literals b)
include keep

/-- **What the parser reads at any depth retains references.** -/
theorem retains_expressionWithin (depth : Nat) :
    Grammar.Retains r literals (expressionWithin bindings depth) := by
  induction depth with
  | zero =>
    intro t e read
    cases read
  | succ depth ih => exact Grammar.expression_retains ih keep

variable {t : Text} (mentioned : r.MentionedIn t)
include mentioned

theorem among_expression {e : Expr} (read : expression t bindings = .ok e) :
    r.Among literals e.leaves :=
  retains_expressionWithin keep (t.length + 1) t e read mentioned

theorem among_fields {fields : List Expr} (read : Parser.fields t bindings = .ok fields) :
    r.Among literals (argumentLeaves fields) :=
  Grammar.fieldList_retains (retains_expressionWithin keep (t.length + 1)) read mentioned

theorem among_condition {c : Condition} (read : condition t bindings = .ok c) :
    r.Among literals c.leaves := by
  have bare : bareCondition t bindings = .ok c := by
    unfold condition Error.within at read
    cases found : bareCondition t bindings with
    | error e =>
      rw [found] at read
      cases read
    | ok c' =>
      rw [found] at read
      exact read
  exact Grammar.condition_retains (retains_expressionWithin keep (t.length + 1)) bare mentioned

end Parser

/-! ### Queries -/

/-- The texts of a query: its select list, its filter and what it is ordered by. -/
def Query.texts (q : Query) : List String :=
  q.fields.toList ++ q.filter.toList ++ q.orderBy.map Prod.fst

/-- The parts of a query are parsed one after the other. -/
theorem Query.parse_eq (q : Query) :
    q.parse = ((q.fields.elim (.ok []) fun t => Parser.fields t.toList (some q.bindings)) >>=
      fun fields => (q.filter.elim (.ok none) fun t =>
          (Parser.condition t.toList (some q.bindings)).map some) >>=
      fun filter => (q.orderBy.mapM fun o =>
          (Parser.expression o.1.toList (some q.bindings)).map fun e => (⟨e, o.2⟩ : OrderBy)) >>=
      fun orderBy => .ok { model := q.model, fields := fields, filter := filter
                           orderBy := orderBy, limit := q.limit, offset := q.offset }) := by
  unfold Query.parse
  cases q.fields <;> cases q.filter <;> rfl

/-- **A reference that a query mentions is among the leaves of its statement.** -/
theorem Query.among_parse {q : Query} {literals : Bool}
    (keep : Grammar.KeepReferences literals q.bindings) {r : Qualified} {t : String}
    (mem : t ∈ q.texts) (mentioned : r.MentionedIn t.toList) {select : Select}
    (read : q.parse = .ok select) : r.Among literals select.leaves := by
  have keep : ∀ b ∈ some q.bindings, Grammar.KeepReferences literals b := by
    rintro b ⟨⟩
    exact keep
  rw [Query.parse_eq] at read
  obtain ⟨fields, readFields, more⟩ := Result.exists_of_bind read
  obtain ⟨filter, readFilter, more⟩ := Result.exists_of_bind more
  obtain ⟨orderBy, readOrder, same⟩ := Result.exists_of_bind more
  cases same
  simp only [Query.texts, List.mem_append, Option.mem_toList, List.mem_map, or_assoc] at mem
  rcases mem with field | condition | ⟨o, member, rfl⟩
  · rw [field] at readFields
    refine (Parser.among_fields keep mentioned readFields).mono fun leaf held => ?_
    exact List.mem_append_left _ (List.mem_append_left _ held)
  · rw [condition] at readFilter
    obtain ⟨c, found, rfl⟩ := Result.exists_of_map readFilter
    refine (Parser.among_condition keep mentioned found).mono fun leaf held => ?_
    exact List.mem_append_left _ (List.mem_append_right _ held)
  · obtain ⟨ordering, member, found⟩ := Result.exists_of_mapM readOrder member
    obtain ⟨e, here, rfl⟩ := Result.exists_of_map found
    refine (Parser.among_expression keep mentioned here).mono fun leaf held => ?_
    exact List.mem_append_right _ (List.mem_flatMap.2 ⟨_, member, held⟩)

end RecordMapper
