import RecordMapper.Proofs.Query.Composition
import RecordMapper.Proofs.Text.NestedScans

/-!
Comparisons of well-nested sides.

A side here is any trimmed, well-nested text in which, outside literals, parentheses and case
distinctions, neither a sign of comparisons nor a word of an operator stands. No operator starts in
such a side (`CmpOp.afterOperator?_eq_none`), and none that is searched for before another one
starts in that (`CmpOp.checked_earlier`). So the search for each of them passes over everything in
front of the operator between the sides, and **a comparison is split there**
(`CmpOp.split?_sides`): not at a shorter operator in it, nor at one inside a side.

The comparison is one token of a condition, so it is read exactly if both sides are
(`Parser.reads_comparison`).
-/

namespace RecordMapper

open Text

namespace CmpOp

/-! ### Sides -/

/-- The signs that no side of a comparison holds. -/
def reservedSigns : Text := ['<', '>', '=']

/-- The words that no side of a comparison holds: connectors and the words of operators. -/
def reservedWords : List Text :=
  Connected.keywords
    ++ [['I', 'S'], ['N', 'O', 'T'], ['L', 'I', 'K', 'E'], ['I', 'N']]

/-- Neither a reserved sign nor a reserved word starts here. -/
def Unreserved (before : Option Char) (ahead : Text) : Prop :=
  (∀ c ∈ ahead.head?, c ∉ reservedSigns) ∧ avoids reservedWords before ahead

instance (before : Option Char) (ahead : Text) : Decidable (Unreserved before ahead) :=
  decidable_of_iff (ahead.head?.all (fun c => !reservedSigns.contains c) = true
    ∧ ∀ word ∈ reservedWords, startsWord standsApart word before ahead = false)
    (by cases head : ahead.head? <;> simp [Unreserved, avoids, head])

/-- A trimmed, well-nested text in which, outside literals, parentheses and case distinctions,
nothing reserved stands. -/
structure IsSide (t : Text) : Prop where
  trimmed : IsTrimmed t
  nested : NestedWith Unreserved none t []

theorem letters_reservedWords :
    ∀ word ∈ reservedWords, word ≠ [] ∧ ∀ a ∈ word, a.isAlpha = true := by
  simp [reservedWords, Connected.keywords, BoolOp.keyword]

/-- Words end in front of each rest: what is not reserved in front of one is not in front of
another. -/
theorem unreserved_congr {rest rest' : Text} (stop : IsStop rest) (stop' : IsStop rest')
    {before : Option Char} {c : Char} {t : Text} (free : Unreserved before (c :: (t ++ rest))) :
    Unreserved before (c :: (t ++ rest')) := by
  have letters := fun word mem => (letters_reservedWords word mem).2
  exact ⟨free.1, (stop.avoids_congr stop' letters before (c :: t)).1 free.2⟩

/-- A side is well nested in front of anything at which words end. -/
theorem IsSide.nested_front {t rest : Text} (side : IsSide t) (stop : IsStop rest) :
    NestedWith Unreserved none t rest :=
  side.nested.of_stop isStop_nil stop fun free _ => unreserved_congr isStop_nil stop free

/-- Behind a blank, too. -/
theorem IsSide.nested_behind {t : Text} (side : IsSide t) :
    NestedWith Unreserved (some ' ') t [] :=
  side.nested.of_before (fun _ => rfl) id

/-! ### Where operators start -/

/-- An operator is written as signs, the first of which is reserved or stands in front of an equals
sign, or it is a reserved word, perhaps with a blank and more behind it. -/
theorem form_of_mem_spellings {spelling : Text × CmpOp} (mem : spelling ∈ spellings) :
    (spelling.2.isWords = false ∧ ∃ c more, spelling.1 = c :: more
        ∧ (c ∈ reservedSigns ∨ more = ['=']))
      ∨ spelling.2.isWords = true ∧ ∃ word ∈ reservedWords, ∃ more, spelling.1 = word ++ more
        ∧ ∀ c ∈ more.head?, c = ' ' := by
  simp only [spellings, List.mem_cons, List.not_mem_nil, or_false] at mem
  rcases mem with rfl | rfl | rfl | rfl | rfl | rfl | rfl | rfl | rfl | rfl | rfl | rfl | rfl
  iterate 3 exact .inl ⟨rfl, _, _, rfl, .inl (by decide)⟩
  · exact .inl ⟨rfl, _, _, rfl, .inr rfl⟩
  iterate 3 exact .inl ⟨rfl, _, _, rfl, .inl (by decide)⟩
  · exact .inr ⟨rfl, is.text, by decide, [' ', 'N', 'O', 'T'], rfl, by simp⟩
  · exact .inr ⟨rfl, is.text, by decide, [], rfl, by simp⟩
  · exact .inr ⟨rfl, ['N', 'O', 'T'], by decide, [' ', 'L', 'I', 'K', 'E'], rfl, by simp⟩
  · exact .inr ⟨rfl, like.text, by decide, [], rfl, by simp⟩
  · exact .inr ⟨rfl, ['N', 'O', 'T'], by decide, [' ', 'I', 'N'], rfl, by simp⟩
  · exact .inr ⟨rfl, isIn.text, by decide, [], rfl, by simp⟩

theorem isApart_of_blank {o : Option Char} (blank : o.any isAsciiBlank = true) :
    o.all (fun c => !isWord c) = true := by
  cases o with
  | none => rfl
  | some c =>
    have other := isWord_of_isBlank (isBlank_of_isAsciiBlank blank)
    rw [Option.all_some, other]
    rfl

/-- A word that does not stand apart does not stand between blanks. -/
theorem not_between_blanks {word ahead rest : Text} {before : Option Char}
    (missed : startsWord standsApart word before ahead = false)
    (found : after? true word ahead = some rest) (front : before.any isAsciiBlank = true) :
    rest.head?.any isAsciiBlank = false := by
  have touched : standsApart before rest.head? = false := by
    simpa only [startsWord, found] using missed
  refine Bool.eq_false_iff.2 fun back => ?_
  rw [standsApart, isApart_of_blank front, isApart_of_blank back] at touched
  cases touched

/-- **No operator starts where nothing reserved does**, unless a sign that is not reserved stands
there in front of an equals sign. -/
theorem afterOperator?_eq_none {spelling : Text × CmpOp} (mem : spelling ∈ spellings)
    {before : Option Char} {c : Char} {t : Text} (free : Unreserved before (c :: t))
    (next : t.head? ≠ some '=') :
    afterOperator? spelling.1 spelling.2.isWords before (c :: t) = none := by
  rcases form_of_mem_spellings mem with ⟨signs, a, more, spelled, first⟩
    | ⟨words, word, reserved, more, spelled, blank⟩
  · rw [signs, spelled]
    show after? false (a :: more) (c :: t) = none
    rw [after?_false_eq_none_iff]
    rintro ⟨rest, same⟩
    obtain ⟨rfl, rfl⟩ := List.cons.inj same
    rcases first with sign | ⟨-, rfl⟩
    · exact free.1 a rfl sign
    · exact next rfl
  · rw [words, spelled, afterOperator?, if_pos rfl]
    split
    · rename_i space
      rw [Option.filter_eq_none_iff]
      intro rest found behind
      rw [after?_append_left] at found
      obtain ⟨rest', start, found⟩ := Option.bind_eq_some_iff.1 found
      -- behind the word there would be a blank, in the operator or behind it
      have touched := not_between_blanks (free.2 word reserved) start space
      cases more with
      | nil =>
        obtain rfl : rest' = rest := Option.some.inj found
        rw [touched] at behind
        cases behind
      | cons d more =>
        obtain rfl := blank d rfl
        obtain ⟨front, all, rfl⟩ := after?_eq_some_iff.1 found
        cases all with
        | cons first _ =>
          obtain rfl := eq_of_agree rfl first
          cases touched
    · rfl

/-- **No operator starts in a side**, if no equals sign follows it. -/
theorem nestedWith_missed {spelling : Text × CmpOp} (mem : spelling ∈ spellings)
    {before : Option Char} {t rest : Text} (nested : NestedWith Unreserved before t rest)
    (stop : IsStop rest) (other : rest.head? ≠ some '=') :
    NestedWith (fun before ahead =>
      afterOperator? spelling.1 spelling.2.isWords before ahead = none) before t rest := by
  refine nested.of_stop stop stop fun {before c t} free more => ?_
  refine afterOperator?_eq_none mem free fun equals => ?_
  cases t with
  | nil => exact other equals
  | cons d t =>
    obtain rfl : d = '=' := Option.some.inj equals
    exact (more.of_cons (by decide) (by decide)).2.1.1 '=' rfl (by simp [reservedSigns])

/-! ### Comparisons -/

/-- A comparison is well nested if its sides and its operator between blanks are. -/
theorem nestedWith_comparison {allows : Option Char → Text → Prop} {lhs word rhs : Text}
    (left : NestedWith allows none lhs (' ' :: (word ++ ' ' :: rhs)))
    (middle : NestedWith allows (lastFrom none lhs) (' ' :: (word ++ [' '])) rhs)
    (right : NestedWith allows (some ' ') rhs []) :
    NestedWith allows none (lhs ++ ' ' :: (word ++ ' ' :: rhs)) [] := by
  have split : ' ' :: (word ++ ' ' :: rhs) = ' ' :: (word ++ [' ']) ++ rhs := by simp
  rw [split] at left ⊢
  refine .append (by rwa [List.append_nil]) (.append (by rwa [List.append_nil]) ?_)
  rwa [← List.cons_append, lastFrom_concat]

/-- The signs, letters and blanks of an operator are loose. -/
theorem isLoose_spelling :
    ∀ spelling ∈ spellings, ∀ a ∈ ' ' :: (spelling.1 ++ [' ']), IsLoose a := by
  have checked : ∀ spelling ∈ spellings,
      (' ' :: (spelling.1 ++ [' '])).all (fun a => decide (IsLoose a)) = true := by decide
  intro spelling mem a member
  exact of_decide_eq_true (List.all_eq_true.1 (checked spelling mem) a member)

/-- No connector starts in an operator between blanks. -/
theorem checked_keywords : ∀ spelling ∈ spellings,
    rulesOut (caseKeyword :: endKeyword :: Connected.keywords) (' ' :: (spelling.1 ++ [' ']))
      = true := by
  decide

/-- No operator that is searched for before another one starts in it; that no `NOT` follows `IS`
depends on what stands behind it. -/
theorem checked_earlier : spellings.Pairwise fun earlier spelling =>
    earlier = (isNot.text, isNot) ∧ spelling = (is.text, is)
      ∨ rulesOut [caseKeyword, endKeyword, earlier.1] (' ' :: (spelling.1 ++ [' '])) = true := by
  decide +kernel

/-- What starts a text in no letter case does not stand there as an operator. -/
theorem afterOperator?_of_missed {operator ahead : Text} (missed : after? true operator ahead = none)
    (words : Bool) (before : Option Char) : afterOperator? operator words before ahead = none := by
  rw [afterOperator?]
  split
  · rw [missed, Option.filter_none, ite_self]
  · exact after?_eq_none_of_ignoreCase missed

section Operators

variable {spelling : Text × CmpOp} (mem : spelling ∈ spellings) {word : Text}
  (spelled : sameLetters spelling.1 word = true) {before : Option Char} {rest : Text}
include mem spelled

/-- An operator between blanks is loose in any letter case, and no word starts in it that is ruled
out there. -/
theorem nestedWith_operator {words : List Text}
    (out : rulesOut (caseKeyword :: endKeyword :: words) (' ' :: (spelling.1 ++ [' '])) = true) :
    NestedWith (fun _ ahead => ∀ k ∈ words, after? true k ahead = none) before
      (' ' :: (word ++ [' '])) rest := by
  have space : List.Forall₂ (fun a b => agree true a b = true) [' '] [' '] := .cons rfl .nil
  have between : List.Forall₂ (fun a b => agree true a b = true) (' ' :: (spelling.1 ++ [' ']))
      (' ' :: (word ++ [' '])) := .cons rfl (List.rel_append (sameLetters_iff.1 spelled) space)
  exact nestedWith_of_rulesOut between (isLoose_spelling spelling mem) out

/-- The operator is found where it stands. -/
theorem afterOperator?_spelled :
    afterOperator? spelling.1 spelling.2.isWords (some ' ') (word ++ ' ' :: rest)
      = some (' ' :: rest) := by
  cases words : spelling.2.isWords with
  | true =>
    have found : after? true spelling.1 (word ++ ' ' :: rest) = some (' ' :: rest) :=
      after?_eq_some_iff.2 ⟨word, sameLetters_iff.1 spelled, rfl⟩
    rw [afterOperator?, found]
    rfl
  | false =>
    have checked : ∀ spelling ∈ spellings, spelling.2.isWords = false →
        spelling.1.all (fun a => !a.isAlpha) = true := by decide
    have marks : ∀ a ∈ spelling.1, a.isAlpha = false := fun a member =>
      (Bool.not_eq_true' _).mp (List.all_eq_true.1 (checked spelling mem words) a member)
    rw [eq_of_sameLetters marks spelled]
    exact after?_append false word _

end Operators

/-- `IS NOT` is not found where `IS` stands, if what follows is no bare `NOT`. -/
theorem nestedWith_is {word rhs : Text} (spelled : sameLetters is.text word = true)
    (right : NestedWith Unreserved (some ' ') rhs []) {before : Option Char} :
    NestedWith (fun before ahead => afterOperator? isNot.text true before ahead = none) before
      (' ' :: (word ++ [' '])) rhs := by
  have bare : ∀ ahead, after? true ['N', 'O', 'T'] rhs = some ahead →
      ahead.head?.any isAsciiBlank = false := by
    intro ahead found
    obtain ⟨front, all, split⟩ := after?_eq_some_iff.1 found
    cases all with
    | @cons _ n _ more first _ =>
      obtain rfl : rhs = n :: (more ++ ahead) := split
      have other : agree true 'C' n = false := (agree_congr first 'C').symm
      have free := (right.of_cons (isLoose_of_agree (by decide) first) other).2.1.2
      rw [List.append_nil] at free
      exact not_between_blanks (free _ (by decide)) found rfl
  have missed : ∀ {c : Char} (before : Option Char) (t : Text), agree true 'I' c = false →
      afterOperator? isNot.text true before (c :: t) = none := by
    intro c before t differ
    refine afterOperator?_of_missed ?_ true before
    show after? true ('I' :: _) (c :: t) = none
    rw [after?, if_neg (ne_true_of_eq_false differ)]
  have keyword : ∀ {a b c : Char} {k : Text} {before : Option Char} {t : Text},
      agree true b c = true → agree true a b = false →
        startsKeyword (a :: k) before (c :: t) = false := by
    intro a b c k before t same differ
    exact startsWord_cons_of_differ ((agree_congr same a).symm.trans differ) before t
  cases sameLetters_iff.1 spelled with
  | @cons _ i _ word first others =>
    cases others with
    | @cons _ s _ word second others =>
      cases others
      refine .cons_mark (by decide) rfl (missed _ _ rfl) ?_
      refine .char (isLoose_of_agree (by decide) first) (keyword first rfl) (keyword first rfl) ?_ ?_
      · have step : after? true isNot.text (i :: s :: ' ' :: rhs) = after? true ['N', 'O', 'T'] rhs := by
          show after? true ('I' :: 'S' :: ' ' :: _) _ = _
          rw [after?, if_pos first, after?, if_pos second]
          rfl
        show ((after? true isNot.text (i :: s :: ' ' :: rhs)).filter _) = none
        rw [step, Option.filter_eq_none_iff]
        intro ahead found blank
        rw [bare ahead found] at blank
        cases blank
      · refine .char (isLoose_of_agree (by decide) second) (keyword second rfl) (keyword second rfl)
          (missed _ _ ((agree_congr second 'I').symm.trans rfl)) ?_
        exact .cons_mark (by decide) rfl (missed _ _ rfl) .nil

theorem isTrimmed_sides {lhs rhs : Text} (left : IsSide lhs) (right : IsSide rhs) (word : Text) :
    IsTrimmed (lhs ++ ' ' :: (word ++ ' ' :: rhs)) := by
  have joined := left.trimmed.append (' ' :: (word ++ [' '])) right.trimmed
  simpa using joined

section Sides

variable {spelling : Text × CmpOp} (mem : spelling ∈ spellings) {lhs word rhs : Text}
  (spelled : sameLetters spelling.1 word = true) (left : IsSide lhs) (right : IsSide rhs)
include mem spelled left

/-- The operator splits the comparison. -/
theorem splitAt?_spelled :
    splitAt? spelling.1 spelling.2.isWords (lhs ++ ' ' :: (word ++ ' ' :: rhs))
      = some (lhs ++ [' '], ' ' :: rhs) := by
  have missed : ∀ before rest,
      afterOperator? spelling.1 spelling.2.isWords before (' ' :: rest) = none := by
    have differ : ∀ spelling ∈ spellings, diverges false true spelling.1 [' '] = true := by decide
    exact fun before rest =>
      afterOperator?_of_missed (after?_append_of_diverges (differ spelling mem) nofun) _ before
  have stop : IsStop (' ' :: (word ++ ' ' :: rhs)) := isStop_cons rfl (by decide) _
  have split : lhs ++ ' ' :: (word ++ ' ' :: rhs) = lhs ++ [' '] ++ (word ++ ' ' :: rhs) := by simp
  have reads : (operatorScan spelling.1 spelling.2.isWords).Reads 0 none (lhs ++ [' ']) 0
      (word ++ ' ' :: rhs) := by
    apply operatorScan_reads_nested
    refine .append (nestedWith_missed mem (left.nested_front stop) stop (by simp)) ?_
    exact .cons_mark (by decide) rfl (missed _ _) .nil
  have all := sameLetters_iff.1 spelled
  have noKeyword : ∀ k ∈ [caseKeyword, endKeyword], ∀ before,
      startsKeyword k before (word ++ ' ' :: rhs) = false := by
    have differ : ∀ spelling ∈ spellings, ∀ k ∈ [caseKeyword, endKeyword],
        diverges false true k spelling.1 = true := by decide
    intro k keyword before
    refine startsKeyword_append_of_diverges ?_ before _
    rw [← diverges_congr all]
    exact differ spelling mem k keyword
  have start : ∀ c ∈ (word ++ ' ' :: rhs).head?, IsLoose c := by
    cases word with
    | nil =>
      rintro _ ⟨⟩
      decide
    | cons c word =>
      rintro _ ⟨⟩
      obtain ⟨a, member, same⟩ := exists_agree_of_mem all (List.mem_cons_self ..)
      exact isLoose_of_agree (isLoose_spelling spelling mem a (by simp [member])) same
  have last : lastFrom none (lhs ++ [' ']) = some ' ' := lastFrom_concat ..
  rw [split]
  refine splitAt?_of_reads reads start (noKeyword _ (by simp) _) (noKeyword _ (by simp) _) ?_ ?_
  · simp
  · rw [last]
    exact afterOperator?_spelled mem spelled

include right

/-- An operator that is searched for before does not split the comparison. -/
theorem splitAt?_earlier {earlier : Text × CmpOp} (mem' : earlier ∈ spellings)
    (other : earlier = (isNot.text, isNot) ∧ spelling = (is.text, is)
      ∨ rulesOut [caseKeyword, endKeyword, earlier.1] (' ' :: (spelling.1 ++ [' '])) = true) :
    splitAt? earlier.1 earlier.2.isWords (lhs ++ ' ' :: (word ++ ' ' :: rhs)) = none := by
  have stop : IsStop (' ' :: (word ++ ' ' :: rhs)) := isStop_cons rfl (by decide) _
  apply splitAt?_eq_none
  apply operatorScan_reads_nested
  apply nestedWith_comparison
  · exact nestedWith_missed mem' (left.nested_front stop) stop (by simp)
  · rcases other with ⟨rfl, rfl⟩ | out
    · exact nestedWith_is spelled right.nested_behind
    · refine (nestedWith_operator mem spelled out).imp fun missed => ?_
      exact afterOperator?_of_missed (missed earlier.1 (List.mem_singleton_self _)) _ _
  · exact nestedWith_missed mem' right.nested_behind isStop_nil (by simp)

/-- **A comparison is split at the operator between its sides.** -/
theorem split?_sides :
    split? (lhs ++ ' ' :: (word ++ ' ' :: rhs)) = some (lhs ++ [' '], spelling.2, ' ' :: rhs) := by
  obtain ⟨front, back, order⟩ := List.append_of_mem mem
  have before := checked_earlier
  rw [order, List.pairwise_append] at before
  rw [split?, List.findSome?_eq_some_iff]
  refine ⟨front, spelling, back, order, ?_, fun earlier mem' => ?_⟩
  · simp only [splitAt?_spelled mem spelled left, Option.map_some]
  · have listed : earlier ∈ spellings := by
      rw [order]
      exact List.mem_append_left _ mem'
    have other := before.2.2 earlier mem' spelling (List.mem_cons_self ..)
    simp only [splitAt?_earlier mem spelled left right listed other, Option.map_none]

/-- **A comparison is one token of a condition.** -/
theorem isToken_sides : Connected.IsToken (lhs ++ ' ' :: (word ++ ' ' :: rhs))
    (.text (lhs ++ ' ' :: (word ++ ' ' :: rhs))) := by
  have stop : IsStop (' ' :: (word ++ ' ' :: rhs)) := isStop_cons rfl (by decide) _
  have avoid : ∀ {before : Option Char} {ahead : Text},
      Unreserved before ahead → avoids Connected.keywords before ahead :=
    fun free k mem => free.2 k (List.mem_append_left _ mem)
  have nested : NestedWith (avoids Connected.keywords) none (lhs ++ ' ' :: (word ++ ' ' :: rhs)) [] := by
    apply nestedWith_comparison
    · exact (left.nested_front stop).imp avoid
    · refine (nestedWith_operator mem spelled (checked_keywords spelling mem)).imp ?_
      intro before ahead missed k mem
      rw [startsWord, missed k mem]
    · exact right.nested_behind.imp avoid
  have operand : Connected.IsOperand (lhs ++ ' ' :: (word ++ ' ' :: rhs)) :=
    ⟨isTrimmed_sides left right word, nestedWith_iff_nested.1 nested⟩
  have piece := operand.isPiece (fun contents whole => (left.nested_front stop).not_group
    left.trimmed.nonempty (List.cons_ne_nil _ _) whole)
  exact (piece _).isToken (Nat.le_refl _)

end Sides

end CmpOp

namespace Parser

/-- **A comparison is split at its operator.** Let two sides be trimmed and well nested and hold,
outside literals, parentheses and case distinctions, neither a sign of comparisons nor a connector or
a word of an operator. With one of the spellings of operators between them, in any letter case and
between blanks, they are read as a condition exactly if both are read as expressions. The condition
is the comparison of these with the operator that is spelled like this. -/
theorem reads_comparison {spelling : Text × CmpOp} (mem : spelling ∈ CmpOp.spellings)
    {lhs word rhs : Text} (spelled : sameLetters spelling.1 word = true)
    (left : CmpOp.IsSide lhs) (right : CmpOp.IsSide rhs) (c : Condition) :
    condition (lhs ++ ' ' :: (word ++ ' ' :: rhs)) none = .ok c
      ↔ ∃ l r, expression lhs none = .ok l ∧ expression rhs none = .ok r
        ∧ c = .simple l spelling.2 r := by
  have isToken := CmpOp.isToken_sides mem spelled left right
  have split := CmpOp.split?_sides mem spelled left right
  rw [condition_eq_ok_iff, bareCondition_eq_grammar, Grammar.condition, isToken.2,
    Grammar.conditionOfTokens, Grammar.conditionOfToken,
    Grammar.comparison_of_sides split (CmpOp.isTrimmed_sides left right word) left.trimmed
      right.trimmed, Result.bind_eq_ok_iff]
  simp only [Result.bind_eq_ok_iff]
  constructor
  · rintro ⟨l, readLeft, r, readRight, same⟩
    cases same
    exact ⟨l, r, readLeft, readRight, rfl⟩
  · rintro ⟨l, r, readLeft, readRight, rfl⟩
    exact ⟨l, readLeft, r, readRight, rfl⟩

/-! A case distinction in lower case with a comparison in it, and a call with a literal that is a word
of an operator. -/

def caseSide : Text :=
  ['c', 'a', 's', 'e'] ++ ([' ', 'w', 'h', 'e', 'n', ' ', '1', '<', '2', ' ', 't', 'h', 'e', 'n',
    ' ', '3', ' '] ++ (['e', 'n', 'd'] ++ []))

def callSide : Text :=
  ['f', '(', '"', ' ', 'i', 's', ' ', '"', ')']

theorem isSide_case : CmpOp.IsSide caseSide := by
  refine ⟨⟨List.cons_ne_nil _ _, by rintro _ ⟨⟩; rfl, by rintro _ ⟨⟩; rfl⟩, ?_⟩
  refine .case rfl rfl ?_ rfl rfl .nil
  iterate 17 refine .char (by decide) (by decide) (by decide) (by decide) ?_
  exact .nil

theorem isSide_call : CmpOp.IsSide callSide := by
  refine ⟨⟨List.cons_ne_nil _ _, by rintro _ ⟨⟩; rfl, by rintro _ ⟨⟩; rfl⟩, ?_⟩
  refine .char (by decide) (by decide) (by decide) (by decide) ?_
  refine @NestedWith.group _ _ ['"', ' ', 'i', 's', ' ', '"'] [] [] ?_ .nil
  exact @Nested.literal _ _ [' ', 'i', 's', ' '] [] _ rfl .nil

theorem reads_comparison_notLike :
    (CmpOp.notLike.text, CmpOp.notLike) ∈ CmpOp.spellings
      ∧ sameLetters CmpOp.notLike.text ['n', 'O', 't', ' ', 'l', 'i', 'k', 'e'] = true
      ∧ CmpOp.IsSide caseSide ∧ CmpOp.IsSide callSide
      ∧ condition (caseSide ++ ' ' :: (['n', 'O', 't', ' ', 'l', 'i', 'k', 'e'] ++ ' ' :: callSide))
          none
        = .ok (.simple
          (.case [(.simple (.scalar (.int 1) none) .lt (.scalar (.int 2) none),
            .scalar (.int 3) none)] none none)
          .notLike (.func "f" false [.scalar (.string " is ") none] none)) := by
  have listed : (CmpOp.notLike.text, CmpOp.notLike) ∈ CmpOp.spellings := by decide
  refine ⟨listed, rfl, isSide_case, isSide_call, ?_⟩
  exact (reads_comparison listed rfl isSide_case isSide_call _).2 ⟨_, _, rfl, rfl, rfl⟩

end Parser

end RecordMapper
