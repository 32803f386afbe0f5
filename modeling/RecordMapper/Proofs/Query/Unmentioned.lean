import RecordMapper.Proofs.Query.Budget
import RecordMapper.Proofs.Query.Renaming

/-!
Bindings that a text does not mention.

The parser looks at its bindings where a placeholder may stand: a text that is one is a variable,
and values are put into what may be a literal or is handed on. Every text that it looks at stands in
the one that was given, but for the keywords and for the body of a case distinction, whose line
breaks and tabs are spaces. So marks that hold a percent sign and no space and stand nowhere in a
text stand nowhere in what is read inside it (`Text.Avoids.of_asks`), and **a text is read with
bindings as it is without any, if it mentions none of their names** (`Parser.reads_unmentioned`).
-/

namespace RecordMapper

open Text

variable {marks : List Text} {t u x : Text}

/-! ### Marks -/

namespace Text

/-- None of the marks stands in the text. -/
def Avoids (marks : List Text) (t : Text) : Prop :=
  ∀ m ∈ marks, ¬ m <:+: t

/-- Every mark holds a percent sign and no space. -/
def AreMarks (marks : List Text) : Prop :=
  ∀ m ∈ marks, '%' ∈ m ∧ ' ' ∉ m

theorem Avoids.of_isInfix (avoids : Avoids marks t) (inside : u <:+: t) : Avoids marks u :=
  fun m mem here => avoids m mem (here.trans inside)

theorem AreMarks.avoids (areMarks : AreMarks marks) (free : '%' ∉ t) : Avoids marks t :=
  fun m mem here => free (here.subset (areMarks m mem).1)

/-- No mark appears where a line break becomes a space. -/
theorem Avoids.flattened (avoids : Avoids marks t) (areMarks : AreMarks marks) :
    Avoids marks (' ' :: t.flattenBlanks) := by
  intro m mem here
  obtain ⟨sign, solid⟩ := areMarks m mem
  rcases List.infix_cons_iff.1 here with start | later
  · cases m with
    | nil => cases sign
    | cons c m =>
      obtain ⟨rfl, -⟩ := List.cons_prefix_cons.1 start
      exact solid (List.mem_cons_self ..)
  · exact avoids m mem (isInfix_of_flattenBlanksFrom solid later)

/-- No mark appears in the tokens of a text, if none is in the separators. -/
theorem Avoids.of_isPiece {s : Separation} {tokenizer : Tokenizer} (avoids : Avoids marks t)
    (areMarks : AreMarks marks) (unmarked : ∀ separator ∈ s.separators, '%' ∉ separator)
    (piece : s.IsPiece tokenizer t u) : Avoids marks u := by
  obtain ⟨y, excerpt, mem⟩ := piece
  refine Avoids.of_isInfix ?_ (Tokenizer.of_mem_flat mem).1
  rcases excerpt with here | ⟨mem, -⟩
  · exact avoids.of_isInfix here
  · exact areMarks.avoids (unmarked y mem)

section Asked

variable (areMarks : AreMarks marks) (avoids : Avoids marks t)
include areMarks avoids

theorem Avoids.of_compares (compares : Connected.Compares t x) : Avoids marks x := by
  obtain ⟨token, mem, has⟩ := compares
  have piece := Separation.each_isPiece Connected.symbols_eq rfl (t.length + 1) t token mem
  exact avoids.of_isPiece areMarks (by decide) (piece.of_hasText has)

theorem Avoids.of_standsBehind {body : Text} {ahead : List Text} (inside : body <:+: t)
    (stands : CaseBody.StandsBehind ahead u (CaseBody.texts body)) : Avoids marks u := by
  obtain ⟨-, keyword, -, here⟩ := stands
  have among : u ∈ CaseBody.texts body := here.subset (by simp)
  obtain ⟨token, mem, rfl⟩ := List.mem_map.1 among
  have flattened := (avoids.of_isInfix inside).flattened areMarks
  have divided := Separation.divided_tokenizeWithin CaseBody.symbols_eq rfl
    (' ' :: flattenBlanks body).length (' ' :: flattenBlanks body)
  have piece := Separation.each_isPiece CaseBody.symbols_eq rfl
    ((' ' :: flattenBlanks body).length + 1) (' ' :: flattenBlanks body) token mem
  obtain ⟨y, rfl⟩ := divided.exists_text rfl token mem
  exact flattened.of_isPiece areMarks (by decide) (piece.of_hasText .text)

theorem Avoids.of_caseCompares (compares : Grammar.Compares t x) : Avoids marks x := by
  obtain ⟨c, v, found, -, isCondition, compares⟩ := compares
  have condition := avoids.of_standsBehind areMarks (Form.isInfix_of_case? found) isCondition
  exact condition.of_compares areMarks compares

omit areMarks in
theorem Avoids.of_hasSide (hasSide : CmpOp.HasSide t u) : Avoids marks u := by
  obtain ⟨left, op, right, found, -, -, rfl | rfl⟩ := hasSide
  all_goals obtain ⟨before, behind⟩ := CmpOp.isInfix_of_split? found
  · exact avoids.of_isInfix ((isInfix_trim left).trans before)
  · exact avoids.of_isInfix ((isInfix_trim right).trans behind)

/-- **What is asked for mentions nothing that the text does not mention.** -/
theorem Avoids.of_asks (asks : Grammar.Asks t u) : Avoids marks u := by
  cases asks with
  | unwrapped _ single _ =>
    have part := Chain.each_tokens t (.text u) (single ▸ List.mem_singleton_self _)
    exact avoids.of_isInfix (part.of_hasText .text).1
  | operand _ mem _ =>
    have part := (Chain.each_tokens _ _ mem).of_hasText .text
    exact avoids.of_isInfix (part.1.trans (Form.isPrefix_splitAlias t).isInfix)
  | @argument call _ found mem =>
    have inside := (FieldList.isInfix_of_mem_items mem).trans call.isInfix_list
    exact avoids.of_isInfix (inside.trans (Form.isInfix_of_call? found))
  | value found _ isValue =>
    exact avoids.of_standsBehind areMarks (Form.isInfix_of_case? found) isValue
  | side compares hasSide => exact (avoids.of_caseCompares areMarks compares).of_hasSide hasSide

end Asked

end Text

/-! ### Bindings -/

theorem Form.eq_placeholder {name : String} (found : placeholder? t = some name) :
    t = Bindings.placeholder name := by
  rw [placeholder?.eq_def] at found
  split at found
  · split at found
    · rename_i word read
      obtain ⟨-, rfl⟩ := exists_of_word? read
      cases found
      rw [Bindings.placeholder, String.toList_ofList]
    · cases found
  · cases found

namespace Bindings

/-- Each placeholder of the names holds a mark. -/
def IsMarked (b : Bindings) (marks : List Text) : Prop :=
  ∀ name ∈ b.names, ∃ m ∈ marks, m <:+: placeholder name

variable {b : Bindings}

theorem IsMarked.not_isInfix (marked : b.IsMarked marks) (avoids : Avoids marks t) {name : String}
    (mem : name ∈ b.names) : ¬ placeholder name <:+: t := by
  obtain ⟨m, member, part⟩ := marked name mem
  exact fun here => avoids m member (part.trans here)

theorem IsMarked.substitute_eq (marked : b.IsMarked marks) (avoids : Avoids marks t) :
    Grammar.substitute (some b) t = Grammar.substitute none t :=
  b.substitute_of_not_isInfix fun _ mem => marked.not_isInfix avoids (List.mem_map_of_mem mem)

theorem IsMarked.bound?_eq (marked : b.IsMarked marks) (avoids : Avoids marks t) :
    Grammar.bound? (some b) t = Grammar.bound? none t := by
  rw [Grammar.bound?_none, Grammar.bound?, Option.bind_some]
  cases found : Form.placeholder? t with
  | none => rfl
  | some name =>
    obtain rfl := Form.eq_placeholder found
    cases value : b.get? name with
    | none => rw [Option.bind_some, value, Option.map_none]
    | some v =>
      have isBound : b.bound name = true := by rw [bound, value, Option.isSome_some]
      exact absurd List.infix_rfl (marked.not_isInfix avoids (mem_names.2 isBound))

end Bindings

/-! ### The parser -/

namespace Parser

/-- The text is read with the bindings as it is without any: as an expression, as a list of
expressions and as a condition, errors included. -/
def ReadsUnbound (b : Bindings) (t : Text) : Prop :=
  expression t (some b) = expression t none ∧ fields t (some b) = fields t none
    ∧ condition t (some b) = condition t none

section

variable {b : Bindings} (areMarks : AreMarks marks) (marked : b.IsMarked marks)
include areMarks marked

theorem expressionWithin_of_avoids (depth : Nat) (avoids : Avoids marks t) :
    expressionWithin (some b) depth t = expressionWithin none depth t := by
  induction depth generalizing t with
  | zero => rfl
  | succ depth ih =>
    have trimmed := avoids.of_isInfix (isInfix_trim t)
    exact Grammar.expression_of_asked (marked.bound?_eq trimmed) (marked.substitute_eq trimmed)
      (fun x compares => marked.substitute_eq (trimmed.of_caseCompares areMarks compares))
      fun u asks => ih (trimmed.of_asks areMarks asks)

/-- A text without the marks of the names is read as without bindings. -/
theorem readsUnbound_of_avoids (avoids : Avoids marks t) : ReadsUnbound b t := by
  have within : ∀ {u : Text}, Avoids marks u → expressionWithin (some b) (t.length + 1) u
      = expressionWithin none (t.length + 1) u := expressionWithin_of_avoids areMarks marked _
  refine ⟨within avoids, Grammar.fieldList_of_asked fun i mem => ?_, ?_⟩
  · exact within (avoids.of_isInfix (FieldList.isInfix_of_mem_items mem))
  · refine congrArg (Error.within _) (Grammar.condition_of_asked fun x compares => ?_)
    have compared := avoids.of_compares areMarks compares
    exact ⟨marked.substitute_eq compared, fun u hasSide => within (compared.of_hasSide hasSide)⟩

end

/-- **Bindings that a text does not mention have no effect.** If the names consist of word
characters and none of their placeholders stands in the text, it is read as without bindings; so is
a text without percent signs under any bindings, and any text if nothing is bound. -/
theorem reads_unmentioned (b : Bindings) (t : Text) :
    ((∀ name ∈ b.names, (∀ c ∈ name.toList, isWord c = true)
        ∧ ¬ Bindings.placeholder name <:+: t) → ReadsUnbound b t)
      ∧ ('%' ∉ t → ReadsUnbound b t) ∧ (b.isEmpty = true → ReadsUnbound b t) := by
  refine ⟨fun unmentioned => ?_, fun free => ?_, fun empty => ?_⟩
  · have areMarks : AreMarks (b.names.map Bindings.placeholder) := by
      intro m mem
      obtain ⟨name, member, rfl⟩ := List.mem_map.1 mem
      refine ⟨List.mem_cons_self .., fun space => ?_⟩
      have inName : ' ' ∈ name.toList := by simpa [Bindings.placeholder] using space
      cases (unmentioned name member).1 ' ' inName
    refine readsUnbound_of_avoids areMarks ?_ ?_
    · exact fun name mem => ⟨_, List.mem_map_of_mem mem, List.infix_rfl⟩
    · intro m mem
      obtain ⟨name, member, rfl⟩ := List.mem_map.1 mem
      exact (unmentioned name member).2
  · have areMarks : AreMarks [['%']] :=
      List.forall_mem_singleton.2 ⟨List.mem_singleton_self _, by decide⟩
    refine readsUnbound_of_avoids areMarks ?_ ?_
    · exact fun name _ => ⟨['%'], List.mem_singleton_self _, [], name.toList ++ ['%'], rfl⟩
    · exact List.forall_mem_singleton.2 fun here => free (here.subset (List.mem_singleton_self _))
  · have none : b.names = [] := by
      rw [Bindings.names, Assoc.keys, List.map_eq_nil_iff]
      exact List.isEmpty_iff.1 empty
    have areMarks : AreMarks [] := List.forall_mem_nil _
    refine readsUnbound_of_avoids areMarks ?_ (List.forall_mem_nil _)
    rw [Bindings.IsMarked, none]
    exact List.forall_mem_nil _

section Samples

/-- Values for the names `rate` and `é`. -/
def rates : Bindings :=
  .ofList [("rate", .int 5), ("é", .string "%x%")]

/-- A text in which percent signs stand around another name, in a literal and as an operator. -/
def surcharge : Text :=
  "CASE WHEN \x7ba\x7d =\n%limit% THEN \"100%rate\" ELSE \x7bb\x7d % \x7bc\x7d END".toList

theorem reads_unmentioned_rate :
    (∀ name ∈ rates.names, (∀ c ∈ name.toList, isWord c = true)
        ∧ ¬ Bindings.placeholder name <:+: surcharge)
      ∧ ReadsUnbound rates surcharge ∧ (expression surcharge none).isOk = true := by
  have words : (rates.names.all fun name => name.toList.all isWord) = true := by decide +kernel
  have absent : ∀ name ∈ rates.names, ¬ Bindings.placeholder name <:+: surcharge := by
    decide +kernel
  have unmentioned : ∀ name ∈ rates.names, (∀ c ∈ name.toList, isWord c = true)
      ∧ ¬ Bindings.placeholder name <:+: surcharge := fun name mem =>
    ⟨List.all_eq_true.1 (List.all_eq_true.1 words name mem), absent name mem⟩
  exact ⟨unmentioned, (reads_unmentioned rates surcharge).1 unmentioned, by decide +kernel⟩

/-- A name with a blank in it may be mentioned once a line break is a space. -/
example :
    let t := "CASE WHEN %a\nb% = 1 THEN 2 END".toList
    (expression t none).toOption.map Expr.print = some "CASE WHEN %a b% = 1 THEN 2 END".toList
      ∧ (expression t (some (.ofList [("a b", .int 5)]))).toOption.map Expr.print
        = some "CASE WHEN 5 = 1 THEN 2 END".toList := by
  decide +kernel

end Samples

end Parser

end RecordMapper
