import RecordMapper.Proofs.Query.Canonical
import RecordMapper.Proofs.Text.Scans

/-!
Comparisons are split at their operator.

The search for an operator passes over solid texts, since the words in them are followed by a
parenthesis and stand in no blanks, and over every operator that is searched for later. So a
comparison is split at the operator between its sides (`CmpOp.split?_append`): none of those searched
for before stands anywhere in it.
-/

namespace RecordMapper

open Text

/-! ### Operators at the outermost level -/

/-- The signs that comparisons start with. -/
def comparisonSigns : Text := ['<', '>', '=', '!']

/-- The operator starts with a sign of comparisons, or is made of words. -/
inductive IsOperator : Text → Bool → Prop
  | signs {c : Char} {operator : Text} (sign : c ∈ comparisonSigns) :
    IsOperator (c :: operator) false
  | words {c : Char} {operator : Text} (letter : c.isAlpha = true)
    (letters : ∀ a ∈ operator, a.isAlpha = true ∨ a = ' ') : IsOperator (c :: operator) true

theorem isAsciiWord_of_mem_comparisonSigns {c : Char} (mem : c ∈ comparisonSigns) :
    isAsciiWord c = false := by
  have checked : (comparisonSigns.all fun c => !isAsciiWord c) = true := rfl
  simpa using List.all_eq_true.1 checked c mem

/-- No operator of words stands at the start of a word that a parenthesis follows. -/
theorem filter_after?_word {letters w : Text} (alpha : ∀ a ∈ letters, a.isAlpha = true ∨ a = ' ')
    (word : ∀ c ∈ w, isAsciiWord c = true) (rest : Text) :
    ((after? true letters (w ++ '(' :: rest)).filter fun rest => rest.head?.any isAsciiBlank)
      = none := by
  rw [Option.filter_eq_none_iff]
  intro behind found blank
  obtain ⟨front, all, same⟩ := after?_eq_some_iff.1 found
  rcases List.append_eq_append_iff.1 same with ⟨more, rfl, split⟩ | ⟨more, rfl, rfl⟩
  · cases more with
    | nil =>
      obtain rfl : behind = '(' :: rest := split.symm
      cases blank
    | cons c more =>
      -- the parenthesis would be part of the operator
      obtain ⟨rfl, -⟩ := List.cons.inj split
      obtain ⟨a, mem, same⟩ := exists_agree_of_mem all (b := '(') (by simp)
      rw [agree_comm] at same
      obtain rfl : '(' = a := eq_of_agree rfl same
      rcases alpha '(' mem with letter | space
      · cases letter
      · cases space
  · cases more with
    | nil => cases blank
    | cons c more =>
      rw [List.cons_append, List.head?_cons, Option.any_some,
        isAsciiBlank_of_isAsciiWord (word c (by simp))] at blank
      cases blank

section Search

variable {operator : Text} {words : Bool} (isOperator : IsOperator operator words)
include isOperator

/-- A character that is no letter and no sign of a comparison starts no operator. -/
theorem afterOperator?_cons_eq_none {c : Char} (other : c.isAlpha = false)
    (sign : c ∉ comparisonSigns) (before : Option Char) (rest : Text) :
    afterOperator? operator words before (c :: rest) = none := by
  cases isOperator with
  | @signs a operator mem =>
    have differ : a ≠ c := by
      rintro rfl
      exact sign mem
    exact after?_cons_eq_none' other differ operator rest
  | @words a operator letter letters =>
    have differ : a ≠ c := by
      rintro rfl
      rw [letter] at other
      cases other
    rw [afterOperator?, if_pos rfl, after?_cons_eq_none' other differ operator rest]
    split <;> rfl

/-- No operator starts inside a word. -/
theorem afterOperator?_word {c : Char} (word : isAsciiWord c = true) {before : Char}
    (touching : isAsciiWord before = true) (rest : Text) :
    afterOperator? operator words (some before) (c :: rest) = none := by
  cases isOperator with
  | @signs a operator mem =>
    have mark := isAsciiWord_of_mem_comparisonSigns mem
    have differ : a ≠ c := by
      rintro rfl
      rw [word] at mark
      cases mark
    exact after?_cons_eq_none (not_isAlpha_of_not_word mark) differ operator rest
  | words letter letters =>
    rw [afterOperator?, if_pos rfl, Option.any_some, isAsciiBlank_of_isAsciiWord touching]
    rfl

/-- No operator starts a word that a parenthesis follows. -/
theorem afterOperator?_call {w : Text} (word : IsAsciiWord w) (before : Option Char) (rest : Text) :
    afterOperator? operator words before (w ++ '(' :: rest) = none := by
  cases isOperator with
  | @signs a operator mem =>
    obtain ⟨c, w, rfl⟩ := List.exists_cons_of_ne_nil word.1
    have mark := isAsciiWord_of_mem_comparisonSigns mem
    have differ : a ≠ c := by
      rintro rfl
      rw [word.2 a (List.mem_cons_self ..)] at mark
      cases mark
    exact after?_cons_eq_none (not_isAlpha_of_not_word mark) differ operator _
  | words letter letters =>
    rw [afterOperator?, if_pos rfl]
    split
    · refine filter_after?_word (fun a mem => ?_) word.2 rest
      rcases List.mem_cons.1 mem with rfl | mem
      · exact .inl letter
      · exact letters a mem
    · rfl

/-! ### Passing over operands -/

theorem reads_mark {c : Char} (inert : IsInert c) (other : c.isAlpha = false)
    (sign : c ∉ comparisonSigns) (before : Option Char) (rest : Text) :
    (operatorScan operator words).Reads 0 before [c] 0 rest :=
  operatorScan_reads_top inert.ne
    (startsKeyword_cons_of_not_isAlpha (by simp [caseKeyword]) letters_caseKeyword other rest)
    (startsKeyword_cons_of_not_isAlpha (by simp [endKeyword]) letters_endKeyword other rest)
    (afterOperator?_cons_eq_none isOperator other sign before rest)

theorem reads_digits {w : Text} (digits : ∀ c ∈ w, c.isDigit = true) (before : Option Char)
    (rest : Text) : (operatorScan operator words).Reads 0 before w 0 rest := by
  refine .of_each (fun c mem before rest => ?_) rest
  have word := isAsciiWord_of_isDigit (digits c mem)
  refine reads_mark isOperator (.inl word) (not_isAlpha_of_isDigit (digits c mem)) ?_ before rest
  intro sign
  rw [isAsciiWord_of_mem_comparisonSigns sign] at word
  cases word

/-- The name of a call is passed. -/
theorem reads_name {w : Text} (word : IsAsciiWord w) (other : ¬ IsKeyword w) (before : Option Char)
    (rest : Text) : (operatorScan operator words).Reads 0 before w 0 ('(' :: rest) := by
  have behind : ∀ c ∈ ('(' :: rest : Text).head?, isAsciiWord c = false := by
    rintro c ⟨⟩
    rfl
  have noCase : startsKeyword caseKeyword before (w ++ '(' :: rest) = false :=
    startsKeyword_append_of_word letters_caseKeyword word behind
      fun same => absurd (.inl same) other
  have noEnd : startsKeyword endKeyword before (w ++ '(' :: rest) = false :=
    startsKeyword_append_of_word letters_endKeyword word behind
      fun same => absurd (.inr same) other
  have missed := afterOperator?_call isOperator word before rest
  have touched : ∀ (w : Text) (b : Char), (∀ c ∈ w, isAsciiWord c = true) → isAsciiWord b = true →
      (operatorScan operator words).Reads 0 (some b) w 0 ('(' :: rest) := by
    intro w
    induction w with
    | nil =>
      intro b _ _
      exact .nil _
    | cons c w ih =>
      intro b word touching
      have letter := word c (List.mem_cons_self ..)
      have inside : mayPrecedeKeyword b = false := by simp [mayPrecedeKeyword, touching]
      refine .cons (operatorScan_reads_top (IsInert.ne (.inl letter)) (startsKeyword_of_touching inside _)
        (startsKeyword_of_touching inside _) (afterOperator?_word isOperator letter touching _)) ?_
      exact ih c (fun d mem => word d (List.mem_cons_of_mem _ mem)) letter
  obtain ⟨c, w, rfl⟩ := List.exists_cons_of_ne_nil word.1
  have letter := word.2 c (List.mem_cons_self ..)
  exact .cons (operatorScan_reads_top (IsInert.ne (.inl letter)) noCase noEnd missed)
    (touched w c (fun d mem => word.2 d (List.mem_cons_of_mem _ mem)) letter)

/-- **The search passes over solid texts.** -/
theorem reads_solid {x : Text} (solid : Solid x) {before : Option Char} (clear : ClearBefore before)
    {rest : Text} (behind : ClearBehind rest) :
    (operatorScan operator words).Reads 0 before x 0 rest := by
  have inside : ∀ {contents : Text} {b c : Char} {rest : Text}, Balanced contents →
      mayPrecedeKeyword b = true → mayFollowKeyword c = true →
        (operatorScan operator words).Reads 1 (some b) contents 1 (c :: rest) := by
    intro contents b c rest balanced before behind
    have passed : (insideScan operator words).Reads 0 (some b) contents 0 (c :: rest) :=
      insideScan_lawful.reads_balanced balanced (clearBefore_some before)
        (clearBehind_cons behind rest)
    exact passed
  have reference : ∀ {t : Text}, IsReference t →
      (operatorScan operator words).Reads 1 (some '\x7b') t 1 ('\x7d' :: rest) := by
    intro t reference
    have passed : (insideScan operator words).Reads 0 (some '\x7b') t 0 ('\x7d' :: rest) :=
      insideScan_lawful.reads_reference reference rest
    exact passed
  have space : ∀ (before : Option Char) (rest : Text),
      (operatorScan operator words).Reads 1 before [' '] 1 rest := by
    intro before rest
    have passed : (insideScan operator words).Reads 0 before [' '] 0 rest :=
      insideScan_lawful.reads_other (.inr (.inl (by simp [glueChars]))) rfl rest
    exact passed
  have group : ∀ {contents : Text} {before : Option Char}, Balanced contents →
      (operatorScan operator words).Reads 0 before ('(' :: (contents ++ [')'])) 0 rest := by
    intro contents before balanced
    exact .cons (operatorScan_reads_open (.inl rfl) 0 before _)
      (.append (inside balanced rfl rfl) (operatorScan_reads_close (.inl rfl) 0 _ rest))
  cases solid with
  | digits _ digits => exact reads_digits isOperator digits before rest
  | negative _ digits =>
    refine .cons (reads_mark isOperator (.inr (.inl (by simp [glueChars]))) rfl
      (by simp [comparisonSigns]) before _) (reads_digits isOperator digits _ rest)
  | field isReference =>
    exact .cons (operatorScan_reads_open (.inr rfl) 0 before _)
      (.append (reference isReference) (operatorScan_reads_close (.inr rfl) 0 _ rest))
  | literal t => exact operatorScan_reads_literal 0 before rest (literal?_escapeQuoted t)
  | call identifier other balanced =>
    exact .append (reads_name isOperator identifier.word other before _) (group balanced)
  | group balanced => exact group balanced
  | case balanced _ =>
    refine .append (operatorScan_reads_openCase 0 rfl
      (standsAlone_of_clear clear (clearBehind_cons rfl _))) ?_
    refine .cons (space _ _) (.append (inside balanced rfl rfl) (.cons (space _ _) ?_))
    exact operatorScan_reads_closeCase 0 rfl (standsAlone_of_clear (clearBefore_some rfl) behind)

/-! ### Passing over other operators -/

omit isOperator in
/-- Neither the operator nor a keyword of case distinctions starts anywhere in the text, however it
goes on. -/
def missedIn (operator : Text) (words : Bool) : Text → Bool
  | [] => true
  | c :: t =>
    (isAsciiWord c || glueChars.contains c)
      && diverges false true caseKeyword (c :: t) && diverges false true endKeyword (c :: t)
      && diverges false words operator (c :: t) && missedIn operator words t

omit isOperator in
theorem afterOperator?_append_of_diverges {t : Text}
    (differ : diverges false words operator t = true) (before : Option Char) (rest : Text) :
    afterOperator? operator words before (t ++ rest) = none := by
  cases words with
  | false => exact after?_append_of_diverges differ fun whole => by cases whole
  | true =>
    rw [afterOperator?, if_pos rfl, after?_append_of_diverges differ (fun whole => by cases whole)]
    split <;> rfl

omit isOperator in
theorem reads_missed {x : Text} (missed : missedIn operator words x = true)
    (before : Option Char) (rest : Text) :
    (operatorScan operator words).Reads 0 before x 0 rest := by
  induction x generalizing before with
  | nil => exact .nil rest
  | cons c x ih =>
    simp only [missedIn, Bool.and_eq_true, Bool.or_eq_true] at missed
    obtain ⟨⟨⟨⟨inert, noCase⟩, noEnd⟩, missed⟩, others⟩ := missed
    have plain : IsInert c := by
      rcases inert with word | glue
      · exact .inl word
      · exact .inr (.inl (List.contains_iff_mem.1 glue))
    exact .cons (operatorScan_reads_top plain.ne (startsKeyword_append_of_diverges noCase before rest)
      (startsKeyword_append_of_diverges noEnd before rest)
      (afterOperator?_append_of_diverges missed before rest)) (ih others (some c))

/-- **The search passes over linked texts**, if it misses what links them. -/
theorem reads_linked {infixes : List Text}
    (missed : infixes.all (fun k => missedIn operator words (' ' :: (k ++ [' ']))) = true)
    {x : Text} (linked : Linked infixes x) {before : Option Char} (clear : ClearBefore before)
    {rest : Text} (behind : ClearBehind rest) :
    (operatorScan operator words).Reads 0 before x 0 rest := by
  induction linked generalizing rest with
  | solid solid => exact reads_solid isOperator solid clear behind
  | @link x k y _ mem back ih =>
    have split : ' ' :: (k ++ ' ' :: y) = ' ' :: (k ++ [' ']) ++ y := by simp
    have infix_missed := List.all_eq_true.1 missed k mem
    rw [split]
    refine .append (ih (clearBehind_cons rfl _)) (.append (reads_missed infix_missed _ _) ?_)
    refine reads_solid isOperator back ?_ behind
    rw [← List.cons_append, lastFrom_concat]
    exact clearBefore_some rfl

/-- An operator opens and closes nothing. -/
theorem IsOperator.start : ∃ c rest, operator = c :: rest ∧
    c ≠ '"' ∧ c ≠ '(' ∧ c ≠ ')' ∧ c ≠ '\x7b' ∧ c ≠ '\x7d' := by
  cases isOperator with
  | @signs c rest sign =>
    refine ⟨c, rest, rfl, ?_⟩
    simp only [comparisonSigns, List.mem_cons, List.not_mem_nil, or_false] at sign
    rcases sign with rfl | rfl | rfl | rfl <;> decide
  | @words c rest letter _ => exact ⟨c, rest, rfl, (isInert_of_isAlpha letter).ne⟩

/-- An operator that stands behind what is read splits the text there. -/
theorem splitAt?_append {x rest behind : Text}
    (reads : (operatorScan operator words).Reads 0 none x 0 (operator ++ rest))
    (noCase : diverges false true caseKeyword operator = true)
    (noEnd : diverges false true endKeyword operator = true)
    (found : afterOperator? operator words (lastFrom none x) (operator ++ rest) = some behind) :
    splitAt? operator words (x ++ (operator ++ rest)) = some (x, behind) := by
  obtain ⟨c, tail, split, plain⟩ := isOperator.start
  refine splitAt?_of_reads reads ?_ (startsKeyword_append_of_diverges noCase _ rest)
    (startsKeyword_append_of_diverges noEnd _ rest) (by simp [split]) found
  rw [split]
  rintro d ⟨⟩
  exact plain

end Search

/-- A solid text does not start with a word and a blank, unless that is `CASE`. -/
theorem filter_after?_solid {a : Char} {letters : Text} (letter : a.isAlpha = true)
    (alpha : ∀ b ∈ letters, b.isAlpha = true ∨ b = ' ')
    (other : diverges false true (a :: letters) caseKeyword = true) {x : Text} (solid : Solid x)
    (rest : Text) :
    ((after? true (a :: letters) (x ++ rest)).filter fun rest => rest.head?.any isAsciiBlank)
      = none := by
  have mark : ∀ {c : Char} (t : Text), c.isAlpha = false →
      ((after? true (a :: letters) (c :: t)).filter fun rest => rest.head?.any isAsciiBlank)
        = none := by
    intro c t other
    have differ : a ≠ c := by
      rintro rfl
      rw [letter] at other
      cases other
    rw [after?_cons_eq_none' other differ]
    rfl
  cases solid with
  | @digits w nonempty digits =>
    obtain ⟨c, w, rfl⟩ := List.exists_cons_of_ne_nil nonempty
    exact mark _ (not_isAlpha_of_isDigit (digits c (List.mem_cons_self ..)))
  | negative _ _ => exact mark _ rfl
  | field _ => exact mark _ rfl
  | literal t => exact mark _ rfl
  | @call name inner identifier _ _ =>
    have split : name ++ '(' :: (inner ++ [')']) ++ rest
        = name ++ '(' :: (inner ++ ')' :: rest) := by simp
    rw [split]
    refine filter_after?_word (fun b mem => ?_) identifier.word.2 _
    rcases List.mem_cons.1 mem with rfl | mem
    · exact .inl letter
    · exact alpha b mem
  | group _ => exact mark _ rfl
  | case _ _ =>
    rw [List.append_assoc, after?_append_of_diverges other (fun whole => by cases whole)]
    rfl

/-- A linked text does not start with a word and a blank, unless that is `CASE`. -/
theorem filter_after?_linked {a : Char} {letters : Text} (letter : a.isAlpha = true)
    (alpha : ∀ b ∈ letters, b.isAlpha = true ∨ b = ' ')
    (other : diverges false true (a :: letters) caseKeyword = true) {infixes : List Text} {x : Text}
    (linked : Linked infixes x) (rest : Text) :
    ((after? true (a :: letters) (x ++ rest)).filter fun rest => rest.head?.any isAsciiBlank)
      = none := by
  induction linked generalizing rest with
  | solid solid => exact filter_after?_solid letter alpha other solid rest
  | link _ _ _ ih =>
    rw [List.append_assoc]
    exact ih _

/-! ### Splitting comparisons -/

namespace CmpOp

theorem isOperator_text (op : CmpOp) : IsOperator op.text op.isWords := by
  cases op with
  | le | ge | ne | eq | lt | gt => exact .signs (by simp [comparisonSigns])
  | isNot | is | notLike | like | notIn | isIn => exact .words rfl (by simp)

theorem isOperator_of_mem_spellings {spelling : Text × CmpOp} (mem : spelling ∈ spellings) :
    IsOperator spelling.1 spelling.2.isWords := by
  by_cases same : spelling.1 = spelling.2.text
  · rw [same]
    exact isOperator_text spelling.2
  · -- one spelling is not the text of its operator
    have other : spelling = (['!', '='], ne) := by
      have checked : spellings.all (fun spelling =>
          spelling.1 == spelling.2.text || spelling == (['!', '='], ne)) = true := rfl
      simpa [same] using List.all_eq_true.1 checked spelling mem
    rw [other]
    exact .signs (by simp [comparisonSigns])

/-- The spelling is found neither between operands nor in the operator; that no `NOT` follows `IS`
depends on what stands behind it. -/
def missedBy (op : CmpOp) (spelling : Text × CmpOp) : Bool :=
  (op == .is && spelling == (isNot.text, isNot)
    || missedIn spelling.1 spelling.2.isWords (' ' :: (op.text ++ [' '])))
  && signs.all fun k => missedIn spelling.1 spelling.2.isWords (' ' :: (k ++ [' ']))

/-- The operators searched for before this one are not found in a comparison with it. -/
theorem missed_before (op : CmpOp) :
    ((spellings.takeWhile fun spelling => spelling.2 != op).all op.missedBy) = true := by
  cases op <;> decide +kernel

theorem missed_in_signs (op : CmpOp) :
    (signs.all fun k => missedIn op.text op.isWords (' ' :: (k ++ [' ']))) = true := by
  cases op <;> decide +kernel

section Sides

variable {lhs rhs : Text} (left : Linked signs lhs) (right : Linked signs rhs)
include left right

/-- `IS NOT` is not found where `IS` stands: what follows is no bare `NOT`. -/
theorem reads_is :
    (operatorScan isNot.text true).Reads 0 none (lhs ++ ' ' :: (is.text ++ ' ' :: rhs)) 0 [] := by
  have isOperator := isOperator_text isNot
  have missed := missed_in_signs isNot
  have space : ∀ before rest, (operatorScan isNot.text true).Reads 0 before [' '] 0 rest :=
    reads_mark isOperator (.inr (.inl (by simp [glueChars]))) rfl (by simp [comparisonSigns])
  have bare : ((after? true ['N', 'O', 'T'] (rhs ++ [])).filter fun rest =>
      rest.head?.any isAsciiBlank) = none :=
    filter_after?_linked rfl (by simp) rfl right []
  have noOperator : afterOperator? isNot.text true (some ' ') ('I' :: 'S' :: ' ' :: (rhs ++ []))
      = none := bare
  have first : (operatorScan isNot.text true).Reads 0 (some ' ') ['I'] 0
      ('S' :: ' ' :: (rhs ++ [])) :=
    operatorScan_reads_top (isInert_of_isAlpha rfl).ne rfl rfl noOperator
  have second : (operatorScan isNot.text true).Reads 0 (some 'I') ['S'] 0 (' ' :: (rhs ++ [])) :=
    operatorScan_reads_top (isInert_of_isAlpha rfl).ne rfl rfl (afterOperator?_word isOperator rfl rfl _)
  have last := reads_linked isOperator missed right (clearBefore_some (c := ' ') rfl)
    clearBehind_nil
  refine .append (reads_linked isOperator missed left clearBefore_none (clearBehind_cons rfl _)) ?_
  exact .cons (space _ _) (.cons first (.cons second (.cons (space _ _) last)))

/-- A spelling that is missed does not split the comparison. -/
theorem splitAt?_of_missedBy {op : CmpOp} {spelling : Text × CmpOp} (mem : spelling ∈ spellings)
    (missed : op.missedBy spelling = true) :
    splitAt? spelling.1 spelling.2.isWords (lhs ++ ' ' :: (op.text ++ ' ' :: rhs)) = none := by
  have isOperator := isOperator_of_mem_spellings mem
  simp only [missedBy, Bool.and_eq_true, Bool.or_eq_true, beq_iff_eq] at missed
  obtain ⟨infix_missed, signs_missed⟩ := missed
  apply splitAt?_eq_none
  rcases infix_missed with ⟨rfl, rfl⟩ | infix_missed
  · exact reads_is left right
  · have split : ' ' :: (op.text ++ ' ' :: rhs) = ' ' :: (op.text ++ [' ']) ++ rhs := by simp
    rw [split]
    refine .append (reads_linked isOperator signs_missed left clearBefore_none
      (clearBehind_cons rfl _)) (.append (reads_missed infix_missed _ _) ?_)
    refine reads_linked isOperator signs_missed right ?_ clearBehind_nil
    rw [← List.cons_append, lastFrom_concat]
    exact clearBefore_some rfl

omit right in
/-- The operator splits the comparison. -/
theorem splitAt?_text (op : CmpOp) :
    splitAt? op.text op.isWords (lhs ++ ' ' :: (op.text ++ ' ' :: rhs))
      = some (lhs ++ [' '], ' ' :: rhs) := by
  have isOperator := isOperator_text op
  have split : lhs ++ ' ' :: (op.text ++ ' ' :: rhs) = lhs ++ [' '] ++ (op.text ++ ' ' :: rhs) := by
    simp
  have noCase : diverges false true caseKeyword op.text = true := by cases op <;> rfl
  have noEnd : diverges false true endKeyword op.text = true := by cases op <;> rfl
  have found : afterOperator? op.text op.isWords (lastFrom none (lhs ++ [' ']))
      (op.text ++ ' ' :: rhs) = some (' ' :: rhs) := by
    rw [lastFrom_concat, afterOperator?, after?_append, after?_append]
    cases op.isWords <;> rfl
  have side : (operatorScan op.text op.isWords).Reads 0 none lhs 0
      ([' '] ++ (op.text ++ ' ' :: rhs)) :=
    reads_linked isOperator (missed_in_signs op) left clearBefore_none (clearBehind_cons rfl _)
  have space := reads_mark isOperator (c := ' ') (.inr (.inl (by simp [glueChars]))) rfl
    (by simp [comparisonSigns]) (lastFrom none lhs) (op.text ++ ' ' :: rhs)
  rw [split]
  exact splitAt?_append isOperator (side.append space) noCase noEnd found

/-- **A comparison is split at its operator.** -/
theorem split?_append (op : CmpOp) :
    split? (lhs ++ ' ' :: (op.text ++ ' ' :: rhs)) = some (lhs ++ [' '], op, ' ' :: rhs) := by
  have order : spellings = (spellings.takeWhile fun spelling => spelling.2 != op)
      ++ (op.text, op) :: (spellings.dropWhile fun spelling => spelling.2 != op).tail := by
    cases op <;> rfl
  rw [split?, List.findSome?_eq_some_iff]
  refine ⟨_, _, _, order, ?_, ?_⟩
  · simp only [splitAt?_text left, Option.map_some]
  · intro spelling mem
    have missed := List.all_eq_true.1 (missed_before op) spelling mem
    have listed : spelling ∈ spellings := List.takeWhile_subset _ mem
    simp only [splitAt?_of_missedBy left right listed missed, Option.map_none]

end Sides

end CmpOp

end RecordMapper
