import Mathlib
import RecordMapper.Proofs.Query.NestedTokens
import RecordMapper.Proofs.Query.SpacedTokens
import RecordMapper.Proofs.Query.WellFormed
import RecordMapper.Proofs.Token.Adjacent

/-!
Connectors without a condition on each side.

A condition is read if conditions and connectors take turns in its tokens, and a condition stands at
each end (`Grammar.takesTurns_of_conditionOfTokens`). A connector with spaces of its own is a token,
so **one that dangles is a fault**: with nothing before it, nothing behind it, or nothing between it
and the next one (`Parser.condition_isFault_of_dangling`).
-/

namespace RecordMapper

open Text

/-! ### Words of connectors -/

/-- There is no comparison in a connector. -/
theorem CmpOp.split?_connector {op : BoolOp} {k : Text} (spelled : sameLetters op.keyword k = true) :
    split? k = none := by
  have ascii : ∀ a ∈ op.keyword, IsAscii a := by cases op <;> simp [BoolOp.keyword, IsAscii]
  have checked : (split? k).isNone = true := by
    refine forall_sameLetters (p := fun k => (split? k).isNone) ascii ?_ spelled
    cases op <;> decide
  exact Option.isNone_iff_eq_none.1 checked

/-- A connector between spaces is a token of its own. -/
theorem Connected.splits {op : BoolOp} {k : Text} (spelled : sameLetters op.keyword k = true) :
    tokenizer.Splits op.keyword k := by
  exact Separation.splits symbols_eq rfl rfl rfl (mem_separators op)
    (letters_keywords _ (mem_keywords op)) (by cases op <;> nofun) (by cases op <;> rfl)
    (unambiguous op) spelled

namespace Grammar

variable {bindings : Option Bindings} {parse : Text → Result Expr}

/-- The connectors among the tokens, in any letter case. -/
theorem isSome_connector?_iff {token : Token} :
    (connector? token).isSome = true
      ↔ ∃ (op : BoolOp) (k : Text), token = .text k ∧ sameLetters op.keyword k = true := by
  cases token with
  | nested tokens =>
    refine iff_of_false (by simp [connector?, Token.text?]) ?_
    rintro ⟨_, _, same, -⟩
    cases same
  | text k =>
    have unfolded : connector? (.text k) = BoolOp.ofKeyword? k := rfl
    rw [unfolded, BoolOp.ofKeyword?]
    constructor
    · intro connects
      by_cases same : sameLetters BoolOp.and.keyword k = true
      · exact ⟨.and, k, rfl, same⟩
      · by_cases same' : sameLetters BoolOp.or.keyword k = true
        · exact ⟨.or, k, rfl, same'⟩
        · rw [if_neg same, if_neg same'] at connects
          cases connects
    · rintro ⟨op, _, ⟨⟩, same⟩
      cases op <;> simp [same, apply_ite Option.isSome]

/-- A connector alone is no condition. -/
theorem conditionOfToken_connector {token : Token} (connects : (connector? token).isSome = true)
    (c : Condition) : conditionOfToken bindings parse token ≠ .ok c := by
  obtain ⟨op, k, rfl, spelled⟩ := isSome_connector?_iff.1 connects
  show comparison bindings parse k ≠ .ok c
  rw [comparison, CmpOp.split?_connector spelled]
  split <;> nofun

/-- Every connector stands between two tokens that are none. -/
def TakesTurns (tokens : List Token) : Prop :=
  ∀ front token behind, tokens = front ++ token :: behind → (connector? token).isSome = true →
    (∃ before ∈ front.getLast?, connector? before = none)
      ∧ ∃ next ∈ behind.head?, connector? next = none

/-- A connector is read if none is pending, and then it is; a condition is read if one is. -/
theorem exists_of_joined_cons {pending : Option BoolOp} {token : Token} {rest : List Token}
    {children : List (Option BoolOp × Condition)}
    (read : joined bindings parse pending (token :: rest) = .ok children) :
    (pending = none ↔ (connector? token).isSome = true)
      ∧ ∃ others, joined bindings parse (connector? token) rest = .ok others := by
  cases connects : connector? token with
  | none =>
    cases pending with
    | none =>
      simp only [joined, connects] at read
      cases read
    | some op =>
      simp only [joined, connects] at read
      obtain ⟨_, -, more⟩ := Result.exists_of_bind read
      obtain ⟨others, tail, -⟩ := Result.exists_of_bind more
      exact ⟨by simp, others, tail⟩
  | some op =>
    cases pending with
    | none =>
      simp only [joined, connects] at read
      exact ⟨by simp, children, read⟩
    | some _ =>
      simp only [joined, connects] at read
      cases read

/-- Behind a condition a connector stands between two conditions. -/
theorem takesTurns_of_joined {tokens : List Token} {pending : Option BoolOp}
    {children : List (Option BoolOp × Condition)}
    (read : joined bindings parse pending tokens = .ok children) {front behind : List Token}
    {token : Token} (split : tokens = front ++ token :: behind)
    (connects : (connector? token).isSome = true) :
    (front = [] ∧ pending = none ∨ ∃ before ∈ front.getLast?, connector? before = none)
      ∧ ∃ next ∈ behind.head?, connector? next = none := by
  induction tokens generalizing pending children front with
  | nil => simp at split
  | cons first rest ih =>
    obtain ⟨turn, others, tail⟩ := exists_of_joined_cons read
    cases front with
    | nil =>
      obtain ⟨rfl, rfl⟩ := List.cons.inj split
      refine ⟨.inl ⟨rfl, turn.2 connects⟩, ?_⟩
      obtain ⟨op, same⟩ := Option.isSome_iff_exists.1 connects
      rw [same] at tail
      cases rest with
      | nil =>
        rw [joined] at tail
        cases tail
      | cons next rest =>
        have other := mt (exists_of_joined_cons tail).1.2 nofun
        exact ⟨next, rfl, Option.not_isSome_iff_eq_none.1 other⟩
    | cons first front =>
      obtain ⟨rfl, rfl⟩ := List.cons.inj split
      obtain ⟨before, behind⟩ := ih tail rfl
      refine ⟨.inr ?_, behind⟩
      rcases before with ⟨rfl, condition⟩ | ⟨last, mem, condition⟩
      · exact ⟨first, rfl, condition⟩
      · refine ⟨last, ?_, condition⟩
        rw [List.getLast?_cons, mem]
        rfl

/-- **Conditions and connectors take turns in the tokens of a condition.** -/
theorem takesTurns_of_conditionOfTokens {tokens : List Token} {c : Condition}
    (read : conditionOfTokens bindings parse tokens = .ok c) : TakesTurns tokens := by
  intro front token behind split connects
  match tokens with
  | [] => simp at split
  | [first] =>
    obtain ⟨rfl, rfl, rfl⟩ : front = [] ∧ token = first ∧ behind = [] := by
      cases front with
      | nil => simpa [eq_comm] using split
      | cons _ front => simp at split
    exact absurd read (conditionOfToken_connector connects c)
  | first :: second :: rest =>
    rw [conditionOfTokens.eq_def] at read
    dsimp only at read
    split at read
    · cases read
    · rename_i condition
      obtain ⟨_, -, more⟩ := Result.exists_of_bind read
      obtain ⟨others, tail, -⟩ := Result.exists_of_bind more
      cases front with
      | nil =>
        obtain ⟨rfl, -⟩ := List.cons.inj split
        rw [condition] at connects
        cases connects
      | cons first front =>
        obtain ⟨rfl, rest⟩ := List.cons.inj split
        obtain ⟨before, behind⟩ := takesTurns_of_joined tail rest connects
        refine ⟨?_, behind⟩
        rcases before with ⟨rfl, -⟩ | ⟨last, mem, other⟩
        · exact ⟨first, rfl, condition⟩
        · refine ⟨last, ?_, other⟩
          rw [List.getLast?_cons, mem]
          rfl

end Grammar

/-! ### Dangling connectors -/

namespace Connected

theorem sameLetters_keyword (op : BoolOp) : sameLetters op.keyword op.keyword = true := by
  cases op <;> rfl

variable {op op' : BoolOp} {k k' gap : Text} (spelled : sameLetters op.keyword k = true)
  (blank : ∀ c ∈ gap, isBlank c = true)
include spelled blank

/-- A connector with nothing before it is the first token. -/
theorem tokens_leading (c : Text) :
    ∃ others, tokens (gap ++ ' ' :: (k ++ ' ' :: c)) = .text op.keyword :: others := by
  have settled : ∀ d ∈ ([] : Text).head?, isBlank d = true := nofun
  have run := (splits spelled).run_gap
    (tokenizer.tokenizeWithin (gap ++ ' ' :: (k ++ ' ' :: c)).length) symbols_eq isWordy settled blank c
  rw [List.reverse_nil, List.nil_append, Tokenizer.flat_eq_nil rfl (trim_eq_nil_iff.2 blank)] at run
  exact ⟨_, run⟩

/-- Nothing in a connector with blanks behind it closes a span. -/
theorem unclosing_connector :
    ∀ d ∈ ' ' :: (k ++ ' ' :: gap), d ≠ '"' ∧ d ≠ ')' ∧ agree true 'E' d = false := by
  have blanks : ∀ d, isBlank d = true → d ≠ '"' ∧ d ≠ ')' ∧ agree true 'E' d = false := by
    intro d blank
    refine ⟨?_, ?_, Bool.eq_false_iff.2 fun same => ?_⟩
    · rintro rfl
      cases blank
    · rintro rfl
      cases blank
    · have letter := isAlpha_of_agree rfl same
      rw [not_isAlpha_of_isBlank blank] at letter
      cases letter
  intro d mem
  rw [List.mem_cons, List.mem_append, List.mem_cons] at mem
  rcases mem with rfl | word | rfl | later
  · exact blanks _ rfl
  · obtain ⟨a, member, same⟩ := exists_agree_of_mem (sameLetters_iff.1 spelled) word
    have letter := isAlpha_of_agree (letters_keywords _ (mem_keywords op) a member) same
    refine ⟨?_, ?_, agree_congr same 'E' ▸ unlike_keywords op a member⟩
    · rintro rfl
      cases letter
    · rintro rfl
      cases letter
  · exact blanks _ rfl
  · exact blanks _ (blank d later)

/-- A connector with nothing behind it is the last token. -/
theorem tokens_trailing (c : Text) :
    ∃ front z, tokens (c ++ ' ' :: (k ++ ' ' :: gap)) = front ++ [.text z]
      ∧ sameLetters op.keyword z = true := by
  have free := isFree_of_unclosing (by simp) (unclosing_connector spelled blank) c
  obtain ⟨front, z, run, word⟩ := Separation.exists_trailing_of_isFree symbols_eq isWordy rfl
    (tokenizer.tokenizeWithin (c ++ ' ' :: (k ++ ' ' :: gap)).length) (splits spelled) rfl blank free
  refine ⟨front, z, run, ?_⟩
  rcases word with rfl | rfl
  · exact sameLetters_keyword op
  · exact spelled

/-- Two connectors with nothing between them are tokens next to one another. -/
theorem tokens_adjacent (spelled' : sameLetters op'.keyword k' = true) {c c' : Text}
    (free : IsFree c.reverse (' ' :: (k ++ ' ' :: (gap ++ ' ' :: (k' ++ ' ' :: c'))))) :
    ∃ front z behind, tokens (c ++ ' ' :: (k ++ ' ' :: (gap ++ ' ' :: (k' ++ ' ' :: c'))))
        = front ++ .text z :: .text op'.keyword :: behind
      ∧ sameLetters op.keyword z = true := by
  obtain ⟨front, z, run, word, -⟩ := Separation.exists_adjacent_of_isFree symbols_eq isWordy rfl
    (tokenizer.tokenizeWithin (c ++ ' ' :: (k ++ ' ' :: (gap ++ ' ' :: (k' ++ ' ' :: c')))).length)
    (splits spelled) rfl (splits spelled') blank free
  refine ⟨front, z, _, run, ?_⟩
  rcases word with rfl | ⟨rfl, -⟩
  · exact sameLetters_keyword op
  · exact spelled

end Connected

namespace Parser

variable (bindings : Option Bindings)

/-- What is no condition is a fault. -/
theorem condition_isFault {t : Text} (refused : ¬ Grammar.TakesTurns (Connected.tokens t)) :
    (condition t bindings).IsFault := by
  have good := expressionWithin_yields bindings (t.length + 1)
  refine ((Grammar.condition_yields good t).within _).isFault fun c read => refused ?_
  cases found : Grammar.condition bindings (expressionWithin bindings (t.length + 1)) t with
  | error e =>
    rw [found] at read
    cases read
  | ok c => exact Grammar.takesTurns_of_conditionOfTokens found

/-- **A connector that dangles is a fault**, in any letter case, if it has a space on each side and
is no part of a literal, a case distinction or text in parentheses: one with only blanks before it,
one with only blanks behind it, and two of them with only blanks between. -/
theorem condition_isFault_of_dangling {op op' : BoolOp} {k k' gap : Text}
    (spelled : sameLetters op.keyword k = true) (spelled' : sameLetters op'.keyword k' = true)
    (blank : ∀ c ∈ gap, isBlank c = true) (c c' : Text) :
    (condition (gap ++ ' ' :: (k ++ ' ' :: c)) bindings).IsFault
      ∧ (condition (c ++ ' ' :: (k ++ ' ' :: gap)) bindings).IsFault
      ∧ (IsFree c.reverse (' ' :: (k ++ ' ' :: (gap ++ ' ' :: (k' ++ ' ' :: c')))) →
        (condition (c ++ ' ' :: (k ++ ' ' :: (gap ++ ' ' :: (k' ++ ' ' :: c')))) bindings).IsFault) := by
  refine ⟨?_, ?_, fun free => ?_⟩
  · obtain ⟨others, tokens⟩ := Connected.tokens_leading spelled blank c
    refine condition_isFault bindings fun turns => ?_
    obtain ⟨⟨_, mem, -⟩, -⟩ := turns [] _ others tokens
      (Grammar.isSome_connector?_iff.2 ⟨op, _, rfl, Connected.sameLetters_keyword op⟩)
    cases mem
  · obtain ⟨front, z, tokens, word⟩ := Connected.tokens_trailing spelled blank c
    refine condition_isFault bindings fun turns => ?_
    obtain ⟨-, _, mem, -⟩ := turns front _ [] tokens
      (Grammar.isSome_connector?_iff.2 ⟨op, z, rfl, word⟩)
    cases mem
  · obtain ⟨front, z, behind, tokens, word⟩ := Connected.tokens_adjacent spelled blank spelled' free
    refine condition_isFault bindings fun turns => ?_
    obtain ⟨-, _, ⟨⟩, other⟩ := turns front _ _ tokens
      (Grammar.isSome_connector?_iff.2 ⟨op, z, rfl, word⟩)
    have connects : (Grammar.connector? (.text op'.keyword)).isSome = true :=
      Grammar.isSome_connector?_iff.2 ⟨op', _, rfl, Connected.sameLetters_keyword op'⟩
    rw [other] at connects
    cases connects

theorem condition_isFault_of_dangling_and :
    (condition " and {a} = 1".toList none).IsFault ∧ (condition "{a} = 1 and ".toList none).IsFault
      ∧ (condition "{a} = 1 and  OR {b} = 2".toList none).IsFault := by
  obtain ⟨leading, trailing, between⟩ := condition_isFault_of_dangling none
    (show sameLetters BoolOp.and.keyword "and".toList = true from rfl)
    (show sameLetters BoolOp.or.keyword "OR".toList = true from rfl)
    (List.forall_mem_nil _) "{a} = 1".toList "{b} = 2".toList
  exact ⟨leading, trailing, between (isFree_of_passesOver rfl _)⟩

/-- With no space of its own at an end of the text, or one that it shares with another connector, a
connector is read as a part of the condition beside it. -/
theorem condition_of_dangling :
    condition "{a} = 1".toList none
        = .ok (.simple (.field ⟨none, "a", none⟩) .eq (.scalar (.int 1) none))
      ∧ ¬ (condition "AND {a} = 1".toList none).IsFault
      ∧ ¬ (condition "{a} = 1 AND".toList none).IsFault
      ∧ ¬ (condition "{a} = 1 AND AND {a} = 1".toList none).IsFault := by
  have leading : condition "AND {a} = 1".toList none
      = .ok (.simple (.raw "AND {a}") .eq (.scalar (.int 1) none)) := by cbv
  have trailing : condition "{a} = 1 AND".toList none
      = .ok (.simple (.field ⟨none, "a", none⟩) .eq (.raw "1 AND")) := by cbv
  have between : condition "{a} = 1 AND AND {a} = 1".toList none
      = .ok (.nested [(none, .simple (.field ⟨none, "a", none⟩) .eq (.scalar (.int 1) none)),
          (some .and, .simple (.raw "AND {a}") .eq (.scalar (.int 1) none))]) := by cbv
  rw [leading, trailing, between]
  refine ⟨by cbv, ?_, ?_, ?_⟩
  all_goals
    rintro ⟨e, same, -⟩
    cases same

end Parser

end RecordMapper
