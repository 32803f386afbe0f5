import RecordMapper.Proofs.Text.Balanced
import RecordMapper.Query.Operator

/-!
Solid texts, and texts linked by operators.

A solid text is one that no operator divides: a number, a field reference, a literal, a call, text
in parentheses or a case distinction. Linked texts are solid texts with operators between them, and
blanks around those. What surrounds a linked text sees only where it starts and how it ends: it ends
in a bracket, a quote, a digit or the word `END` (`Linked.ending`).
-/

namespace RecordMapper.Text

/-! ### Ends -/

theorem isAsciiWord_of_isDigit {c : Char} (digit : c.isDigit = true) : isAsciiWord c = true := by
  simp [isAsciiWord, Char.isAlphanum, digit]

/-- What holds of all digits can be checked. -/
theorem forall_isDigit {p : Char → Bool}
    (checked : ((List.range 128).all fun n =>
      !(Char.ofNat n).isDigit || p (Char.ofNat n)) = true) {c : Char}
    (digit : c.isDigit = true) : p c = true := by
  have found := forall_isAscii (p := fun c => !c.isDigit || p c) checked
    (isAscii_of_isAsciiWord (isAsciiWord_of_isDigit digit))
  simpa [digit] using found

theorem not_isAlpha_of_isDigit {c : Char} (digit : c.isDigit = true) : c.isAlpha = false := by
  simpa using forall_isDigit (p := fun c => !c.isAlpha) rfl digit

/-- The last letters of a solid text, the last one first. -/
def endings : List Text :=
  [['\x7d'], ['"'], [')'], endKeyword.reverse]
    ++ ['0', '1', '2', '3', '4', '5', '6', '7', '8', '9'].map fun c => [c]

/-- The text ends as solid texts do. -/
def HasEnding (x : Text) : Prop :=
  ∃ e ∈ endings, ∃ front, x.reverse = e ++ front

theorem start_of_mem_endings {e : Text} (mem : e ∈ endings) :
    ∃ c rest, e = c :: rest ∧ isBlank c = false := by
  have checked : endings.all (fun e => e.head?.any fun c => !isBlank c) = true := rfl
  have first := List.all_eq_true.1 checked e mem
  cases e with
  | nil => cases first
  | cons c e => exact ⟨c, e, rfl, by simpa using first⟩

theorem HasEnding.exists_mem {x : Text} (ending : HasEnding x) :
    ∃ c ∈ x, isBlank c = false := by
  obtain ⟨e, mem, front, same⟩ := ending
  obtain ⟨c, e, rfl, other⟩ := start_of_mem_endings mem
  refine ⟨c, ?_, other⟩
  rw [← List.mem_reverse, same]
  exact List.mem_append_left _ (List.mem_cons_self ..)

/-- A text that ends like none of the solid texts is not one. -/
theorem HasEnding.ne {x u : Text} (ending : HasEnding x)
    (differ : endings.all (fun e => diverges true false e u.reverse) = true) : x ≠ u := by
  rintro rfl
  obtain ⟨e, mem, front, same⟩ := ending
  have missed : after? false e (x.reverse ++ []) = none :=
    after?_append_of_diverges (List.all_eq_true.1 differ e mem) fun _ => rfl
  rw [List.append_nil, same, after?_append] at missed
  cases missed

theorem HasEnding.append {y : Text} (ending : HasEnding y) (x : Text) : HasEnding (x ++ y) := by
  obtain ⟨e, mem, front, same⟩ := ending
  exact ⟨e, mem, front ++ x.reverse, by simp [same]⟩

theorem hasEnding_singleton {c : Char} (mem : [c] ∈ endings) : HasEnding [c] :=
  ⟨[c], mem, [], rfl⟩

theorem mem_digits_of_isDigit {c : Char} (digit : c.isDigit = true) :
    c ∈ ['0', '1', '2', '3', '4', '5', '6', '7', '8', '9'] := by
  have checked := forall_isDigit
    (p := fun c => ['0', '1', '2', '3', '4', '5', '6', '7', '8', '9'].contains c) rfl digit
  exact List.contains_iff_mem.1 checked

theorem hasEnding_of_digits {w : Text} (nonempty : w ≠ []) (digits : ∀ c ∈ w, c.isDigit = true) :
    HasEnding w := by
  obtain ⟨w, c, rfl⟩ := (List.eq_nil_or_concat w).resolve_left nonempty
  have digit := mem_digits_of_isDigit (digits c (by simp))
  rw [List.concat_eq_append]
  refine (hasEnding_singleton ?_).append w
  exact List.mem_append_right _ (List.mem_map_of_mem digit)

/-! ### Solid texts -/

/-- An ASCII word that does not start with a digit. -/
structure IsIdentifier (t : Text) : Prop where
  word : IsAsciiWord t
  start : ∀ c ∈ t.head?, isNameStart c = true

/-- Whether a text is an identifier can be checked. -/
theorem isIdentifier_of_checked {t : Text}
    (checked : (!t.isEmpty && t.all isAsciiWord && t.head?.all isNameStart) = true) :
    IsIdentifier t := by
  rw [Bool.and_eq_true, Option.all_eq_true] at checked
  exact ⟨isAsciiWord_of_checked checked.1, checked.2⟩

/-- A text that is closed at both of its ends. -/
inductive Solid : Text → Prop
  | digits {w : Text} (nonempty : w ≠ []) (digits : ∀ c ∈ w, c.isDigit = true) : Solid w
  | negative {w : Text} (nonempty : w ≠ []) (digits : ∀ c ∈ w, c.isDigit = true) : Solid ('-' :: w)
  | field {t : Text} (reference : IsReference t) : Solid ('\x7b' :: (t ++ ['\x7d']))
  | literal (t : Text) : Solid ('"' :: (escapeQuoted t ++ ['"']))
  | call {name inner : Text} (identifier : IsIdentifier name) (other : ¬ IsKeyword name)
    (balanced : Balanced inner) : Solid (name ++ '(' :: (inner ++ [')']))
  | group {inner : Text} (balanced : Balanced inner) : Solid ('(' :: (inner ++ [')']))
  | case {body : Text} (balanced : Balanced body) (ending : HasEnding body) :
    Solid (caseKeyword ++ ' ' :: (body ++ ' ' :: endKeyword))

/-- A number is no keyword, since keywords start with a letter. -/
theorem not_isKeyword_of_digits {w : Text} (digits : ∀ c ∈ w, c.isDigit = true) :
    ¬ IsKeyword w := by
  have differ : ∀ {a : Char} {keyword : Text}, a.isAlpha = true →
      ¬ sameLetters (a :: keyword) w = true := by
    intro a keyword letter same
    cases sameLetters_iff.1 same with
    | @cons _ c _ _ first _ =>
      have other := not_isAlpha_of_isDigit (digits c (List.mem_cons_self ..))
      rw [agree_comm] at first
      rw [eq_of_agree other first, letter] at other
      cases other
  rintro (same | same)
  · exact differ rfl same
  · exact differ rfl same

theorem Solid.balanced {x : Text} (solid : Solid x) : Balanced x := by
  have number : ∀ {w : Text}, w ≠ [] → (∀ c ∈ w, c.isDigit = true) → Balanced w := by
    intro w nonempty digits
    exact .word ⟨nonempty, fun c mem => isAsciiWord_of_isDigit (digits c mem)⟩
      (not_isKeyword_of_digits digits)
  cases solid with
  | digits nonempty digits => exact number nonempty digits
  | @negative w nonempty digits =>
    have minus : Balanced ([] ++ ['-'] ++ w) :=
      .join .nil (by simp) (by simp [glueChars]) (number nonempty digits)
    exact minus
  | field reference => exact .field reference
  | literal t => exact .literal t
  | call identifier other balanced => exact .call identifier.word other balanced
  | group balanced => exact .group balanced
  | case balanced _ => exact .case balanced

theorem Solid.ending {x : Text} (solid : Solid x) : HasEnding x := by
  have brace : HasEnding ['\x7d'] := hasEnding_singleton (by simp [endings])
  have quote : HasEnding ['"'] := hasEnding_singleton (by simp [endings])
  have parenthesis : HasEnding [')'] := hasEnding_singleton (by simp [endings])
  cases solid with
  | digits nonempty digits => exact hasEnding_of_digits nonempty digits
  | negative nonempty digits => exact (hasEnding_of_digits nonempty digits).append ['-']
  | @field t _ => exact brace.append ('\x7b' :: t)
  | literal t => exact quote.append ('"' :: escapeQuoted t)
  | @call name inner _ _ _ =>
    rw [← List.cons_append, ← List.append_assoc]
    exact parenthesis.append _
  | @group inner _ => exact parenthesis.append ('(' :: inner)
  | @case body _ _ =>
    have keyword : HasEnding endKeyword := ⟨endKeyword.reverse, by simp [endings], [], by simp⟩
    have ended := keyword.append (caseKeyword ++ ' ' :: (body ++ [' ']))
    simpa using ended

/-! ### Linked texts -/

/-- Solid texts with infixes between them. -/
inductive Linked (infixes : List Text) : Text → Prop
  | solid {x : Text} (solid : Solid x) : Linked infixes x
  | link {x k y : Text} (front : Linked infixes x) (mem : k ∈ infixes) (back : Solid y) :
    Linked infixes (x ++ ' ' :: (k ++ ' ' :: y))

/-- The signs of arithmetic. -/
def signs : List Text :=
  MathOp.all.map fun op => [op.symbol]

/-- What links the parts of a comparison. -/
def comparisons : List Text :=
  signs ++ CmpOp.spellings.map fun spelling => spelling.2.text

/-- What links the parts of a condition. -/
def connectors : List Text :=
  comparisons ++ [BoolOp.and.keyword, BoolOp.or.keyword]

theorem Linked.mono {infixes infixes' : List Text} (sub : infixes ⊆ infixes') {x : Text}
    (linked : Linked infixes x) : Linked infixes' x := by
  induction linked with
  | solid solid => exact .solid solid
  | link _ mem back ih => exact .link ih (sub mem) back

theorem Linked.ending {infixes : List Text} {x : Text} (linked : Linked infixes x) :
    HasEnding x := by
  cases linked with
  | solid solid => exact solid.ending
  | @link x k y _ _ back =>
    have ended := back.ending.append (x ++ ' ' :: (k ++ [' ']))
    simpa using ended

/-- Linked texts with at least one operator between them. -/
inductive Chained (infixes : List Text) : Text → Prop
  | link {x k y : Text} (front : Linked infixes x) (mem : k ∈ infixes) (back : Solid y) :
    Chained infixes (x ++ ' ' :: (k ++ ' ' :: y))

theorem Chained.linked {infixes : List Text} {x : Text} (chained : Chained infixes x) :
    Linked infixes x := by
  cases chained with
  | link front mem back => exact .link front mem back

/-- Linked texts with an operator between them are linked. -/
theorem Linked.append {infixes : List Text} {x k y : Text} (front : Linked infixes x)
    (mem : k ∈ infixes) (back : Linked infixes y) :
    Chained infixes (x ++ ' ' :: (k ++ ' ' :: y)) := by
  induction back with
  | solid solid => exact .link front mem solid
  | @link y l z _ mem' back' ih =>
    have chained := Chained.link ih.linked mem' back'
    simpa using chained

theorem mem_signs (op : MathOp) : [op.symbol] ∈ signs := by
  refine List.mem_map.2 ⟨op, ?_, rfl⟩
  cases op <;> simp [MathOp.all]

theorem mem_comparisons (op : CmpOp) : op.text ∈ comparisons := by
  refine List.mem_append_right _ (List.mem_map.2 ⟨(op.text, op), ?_, rfl⟩)
  cases op <;> simp [CmpOp.spellings]

theorem balanced_of_glue {k : Text} (nonempty : k ≠ [])
    (glued : (k.all fun c => glueChars.contains c) = true) : Balanced k := by
  have joined : Balanced ([] ++ k ++ []) := by
    refine .join .nil nonempty (fun c mem => ?_) .nil
    exact List.contains_iff_mem.1 (List.all_eq_true.1 glued c mem)
  simpa using joined

theorem balanced_of_word {w : Text} (nonempty : w ≠ []) (word : w.all isAsciiWord = true)
    (other : (sameLetters caseKeyword w || sameLetters endKeyword w) = false) : Balanced w := by
  refine .word ⟨nonempty, List.all_eq_true.1 word⟩ ?_
  rw [Bool.or_eq_false_iff] at other
  rintro (same | same)
  · rw [other.1] at same
    cases same
  · rw [other.2] at same
    cases same

theorem balanced_words {x y : Text} (first : Balanced x) (second : Balanced y) :
    Balanced (x ++ [' '] ++ y) :=
  first.join (by simp) (by simp [glueChars]) second

theorem balanced_text (op : CmpOp) : Balanced op.text := by
  have word : ∀ w ∈ [['I', 'S'], ['N', 'O', 'T'], ['L', 'I', 'K', 'E'], ['I', 'N']],
      Balanced w := by
    intro w mem
    simp only [List.mem_cons, List.not_mem_nil, or_false] at mem
    rcases mem with rfl | rfl | rfl | rfl
    all_goals exact balanced_of_word (by simp) rfl rfl
  cases op with
  | le | ge | ne | eq | lt | gt => exact balanced_of_glue (by simp [CmpOp.text]) rfl
  | is => exact word _ (by simp [CmpOp.text])
  | like => exact word _ (by simp [CmpOp.text])
  | isIn => exact word _ (by simp [CmpOp.text])
  | isNot => exact balanced_words (word ['I', 'S'] (by simp)) (word ['N', 'O', 'T'] (by simp))
  | notLike =>
    exact balanced_words (word ['N', 'O', 'T'] (by simp)) (word ['L', 'I', 'K', 'E'] (by simp))
  | notIn => exact balanced_words (word ['N', 'O', 'T'] (by simp)) (word ['I', 'N'] (by simp))

/-- Every infix is balanced. -/
theorem balanced_of_mem_connectors {k : Text} (mem : k ∈ connectors) : Balanced k := by
  simp only [connectors, comparisons, List.mem_append, List.mem_map] at mem
  rcases mem with (sign | ⟨⟨spelling, op⟩, -, rfl⟩) | connector
  · obtain ⟨op, -, rfl⟩ := List.mem_map.1 sign
    cases op <;> exact balanced_of_glue (by simp) rfl
  · exact balanced_text op
  · simp only [List.mem_cons, List.not_mem_nil, or_false] at connector
    rcases connector with rfl | rfl
    all_goals exact balanced_of_word (by simp [BoolOp.keyword]) rfl rfl

theorem Linked.balanced {x : Text} (linked : Linked connectors x) : Balanced x := by
  induction linked with
  | solid solid => exact solid.balanced
  | @link x k y _ mem back ih =>
    have space : ∀ c ∈ [' '], c ∈ glueChars := by simp [glueChars]
    have joined := (ih.join (by simp) space (balanced_of_mem_connectors mem)).join (by simp) space
      back.balanced
    simpa using joined

/-! ### Trimming -/

theorem Solid.start {x : Text} (solid : Solid x) : ∃ c rest, x = c :: rest ∧ isBlank c = false := by
  cases solid with
  | @digits w nonempty digits =>
    obtain ⟨c, w, rfl⟩ := List.exists_cons_of_ne_nil nonempty
    have digit := digits c (List.mem_cons_self ..)
    exact ⟨c, w, rfl, isBlank_of_isAsciiWord (isAsciiWord_of_isDigit digit)⟩
  | negative _ _ => exact ⟨_, _, rfl, rfl⟩
  | field _ => exact ⟨_, _, rfl, rfl⟩
  | literal t => exact ⟨_, _, rfl, rfl⟩
  | @call name inner identifier _ _ =>
    obtain ⟨c, name, rfl⟩ := List.exists_cons_of_ne_nil identifier.word.1
    exact ⟨c, _, rfl, isBlank_of_isAsciiWord (identifier.word.2 c (List.mem_cons_self ..))⟩
  | group _ => exact ⟨_, _, rfl, rfl⟩
  | case _ _ => exact ⟨'C', _, rfl, rfl⟩

theorem Linked.start {infixes : List Text} {x : Text} (linked : Linked infixes x) :
    ∃ c rest, x = c :: rest ∧ isBlank c = false := by
  induction linked with
  | solid solid => exact solid.start
  | @link x k y _ _ _ ih =>
    obtain ⟨c, rest, rfl, other⟩ := ih
    exact ⟨c, _, rfl, other⟩

theorem HasEnding.stop {x : Text} (ending : HasEnding x) :
    ∀ c ∈ x.getLast?, isBlank c = false := by
  obtain ⟨e, mem, front, same⟩ := ending
  obtain ⟨d, e, rfl, other⟩ := start_of_mem_endings mem
  intro c last
  rw [← List.head?_reverse, same] at last
  cases last
  exact other

theorem Solid.isTrimmed {x : Text} (solid : Solid x) : IsTrimmed x := by
  obtain ⟨c, rest, rfl, other⟩ := solid.start
  refine ⟨by simp, ?_, solid.ending.stop⟩
  rintro d ⟨⟩
  exact other

/-- Linked texts have no blanks at their ends. -/
theorem Linked.isTrimmed {infixes : List Text} {x : Text} (linked : Linked infixes x) :
    IsTrimmed x := by
  obtain ⟨c, rest, rfl, other⟩ := linked.start
  refine ⟨by simp, ?_, linked.ending.stop⟩
  rintro d ⟨⟩
  exact other

end RecordMapper.Text
