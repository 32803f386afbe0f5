import RecordMapper.Proofs.Query.Parts
import RecordMapper.Proofs.Text.Mentions
import RecordMapper.Proofs.Text.NestedScans

/-!
The forms of well-nested texts in which an operator stands.

An operator sign that well-nested text stands in front of is inside no literal and no parentheses of
it. So it would stand at the end of what a field reference or a literal starts with, where nothing
but an alias may stand: **the text has none of these forms** (`Form.field?_eq_none_of_symbol`,
`Form.literal?_eq_none_of_symbol`).

With nothing but an alias behind the operator, **the text is neither a call nor a case distinction**
(`Form.call?_eq_none_of_symbol`, `Form.case?_eq_none_of_symbol`): these end in a parenthesis or in
`END`, behind which no operator may stand, and an alias holds no parenthesis, and no `END` that no
`CASE` stands in front of.
-/

namespace RecordMapper

open Text

namespace MathOp

theorem mem_all (op : MathOp) : op ∈ all := by
  cases op <;> simp [all]

/-- The sign of an operator is no part of a word, of a number or of a field reference. -/
theorem symbol_other (op : MathOp) :
    isWord op.symbol = false ∧ isBlank op.symbol = false ∧ Text.isDigit op.symbol = false
      ∧ op.symbol ∉ ['\x7b', '\x7d', '(', ')', '.', '"'] := by
  cases op <;> decide

theorem isLoose_symbol (op : MathOp) : IsLoose op.symbol := by
  cases op <;> decide

end MathOp

/-- A character that does not stand behind a cut stands in front of it. -/
theorem Text.exists_of_not_mem {x back front y : Text} {c : Char}
    (same : x ++ c :: back = front ++ y) (outside : c ∉ y) :
    ∃ z, front = x ++ c :: z ∧ back = z ++ y := by
  rcases List.append_eq_append_iff.1 same with ⟨z, before, after⟩ | ⟨z, -, after⟩
  · cases z with
    | nil =>
      have begins : c :: back = y := after
      exact absurd (by simp [← begins]) outside
    | cons d z =>
      obtain ⟨rfl, rfl⟩ := List.cons.inj after
      exact ⟨z, before, rfl⟩
  · exact absurd (by simp [after]) outside

namespace Form

variable {t : Text} (op : MathOp)

theorem IsNaming.not_mem_symbol {naming name : Text} (named : IsNaming naming name) :
    op.symbol ∉ naming := by
  intro mem
  obtain ⟨word, blank, -⟩ := op.symbol_other
  rcases named.mem _ mem with here | here
  · rw [blank] at here
    cases here
  · rw [word] at here
    cases here

/-- No operator stands in the end of an expression. -/
theorem not_mem_symbol_of_ending? {a : Option String} (found : ending? t = some a) :
    op.symbol ∉ t := by
  rcases exists_of_ending? found with ⟨rfl, -⟩ | ⟨name, -, named⟩
  · exact List.not_mem_nil
  · exact named.not_mem_symbol op

/-- A text in which an operator stands is no field reference. -/
theorem field?_eq_none_of_symbol (mem : op.symbol ∈ t) : field? t = none := by
  rw [Option.eq_none_iff_forall_ne_some]
  intro ref found
  obtain ⟨word, -, -, mark⟩ := op.symbol_other
  simp only [List.mem_cons, List.not_mem_nil, or_false, not_or] at mark
  have outside : ∀ {name : Text}, IsName name → op.symbol ∉ name := by
    intro name isName mem
    rw [isName.2 _ mem] at word
    cases word
  obtain ⟨tail, ending, form⟩ := exists_of_field? found
  have unnamed := not_mem_symbol_of_ending? op ending
  rcases form with ⟨name, isName, rfl⟩ | ⟨table, name, isTable, isName, rfl, -⟩
  · simp [mark, outside isName, unnamed] at mem
  · simp [mark, outside isTable, outside isName, unnamed] at mem

/-- If an operator stands in a literal behind its first character, that is a string literal which
holds the operator. -/
theorem exists_string_of_literal? {c : Char} {l : Literal} {a : Option String} (mem : op.symbol ∈ t)
    (found : literal? (c :: t) = some (l, a)) :
    ∃ behind contents tail, c :: t = '"' :: behind ∧ Text.literal? behind = some (contents, tail)
      ∧ op.symbol ∉ tail := by
  obtain ⟨-, -, digit, mark⟩ := op.symbol_other
  simp only [List.mem_cons, List.not_mem_nil, or_false, not_or] at mark
  obtain ⟨tail, ending, form⟩ := exists_of_literal? found
  have unnamed := not_mem_symbol_of_ending? op ending
  rcases form with ⟨sign, number, -, either, numeral, whole⟩ | ⟨contents, behind, -, whole, read⟩
  · -- only the first character of a number may be a sign
    have inside : op.symbol ∈ number ++ tail := by
      rcases either with rfl | rfl
      · have same : c :: t = number ++ tail := whole
        exact same ▸ List.mem_cons_of_mem c mem
      · have same : t = number ++ tail := (List.cons.inj whole).2
        exact same ▸ mem
    rcases List.mem_append.1 inside with here | here
    · rcases numeral.chars _ here with isDigit | point
      · rw [digit] at isDigit
        cases isDigit
      · exact absurd point mark.2.2.2.2.1
    · exact absurd here unnamed
  · exact ⟨behind, contents, tail, whole, read, unnamed⟩

/-- A text in which an operator stands behind well-nested text is no literal. -/
theorem literal?_eq_none_of_symbol {allows : Option Char → Text → Prop} {before : Option Char}
    {x y : Text} (nested : NestedWith allows before x (op.symbol :: y)) (nonempty : x ≠ []) :
    literal? (x ++ op.symbol :: y) = none := by
  rw [Option.eq_none_iff_forall_ne_some]
  rintro ⟨l, a⟩ found
  obtain ⟨behind, contents, tail, whole, read, unnamed⟩ : ∃ behind contents tail,
      x ++ op.symbol :: y = '"' :: behind ∧ Text.literal? behind = some (contents, tail)
        ∧ op.symbol ∉ tail := by
    obtain ⟨c, x, rfl⟩ := List.exists_cons_of_ne_nil nonempty
    exact exists_string_of_literal? op (by simp) found
  -- the literal is closed in the text in front
  cases nested with
  | nil => exact nonempty rfl
  | char loose _ _ _ _ => exact loose.1 (List.cons.inj whole).1
  | @literal _ contents' t _ closed _ =>
    have same : contents' ++ '"' :: (t ++ op.symbol :: y) = behind := by simpa using whole
    rw [← same, literal?_closed closed] at read
    obtain ⟨-, rfl⟩ := Prod.mk.inj (Option.some.inj read)
    exact unnamed (by simp)
  | field _ _ => cases (List.cons.inj whole).1
  | group _ _ => cases (List.cons.inj whole).1
  | case opens _ _ _ _ _ =>
    obtain ⟨c, opening, rfl, first⟩ := exists_cons_of_sameLetters opens
    obtain ⟨rfl, -⟩ := List.cons.inj whole
    cases first

/-! ### In front of an alias -/

/-- A text in which an operator stands in front of nothing but an alias is no call. -/
theorem call?_eq_none_of_symbol {front naming name : Text} (named : IsNaming naming name) :
    call? (front ++ op.symbol :: naming) = none := by
  rw [Option.eq_none_iff_forall_ne_some]
  intro call found
  obtain ⟨-, -, -, mark⟩ := op.symbol_other
  simp only [List.mem_cons, List.not_mem_nil, or_false, not_or] at mark
  obtain ⟨name, gap, behind, tail, whole, -, -, -, closed, ending⟩ := exists_of_call? found
  have outside := not_mem_symbol_of_ending? op ending
  obtain ⟨rfl, -⟩ := exists_of_closingFrom? closed
  have split : name ++ (gap ++ '(' :: call.arguments) ++ ')' :: tail
      = front ++ op.symbol :: naming := by simp [whole]
  have unclosed : ')' ∉ op.symbol :: naming := by
    intro mem
    rcases List.mem_cons.1 mem with same | mem
    · exact mark.2.2.2.1 same.symm
    · rcases named.mem _ mem with blank | word
      · cases blank
      · cases word
  -- the parenthesis is closed in front of the operator, so that would stand in the end
  obtain ⟨z, -, rfl⟩ := exists_of_not_mem split unclosed
  exact outside (by simp)

/-- No operator stands in the end of a case distinction. -/
theorem not_mem_symbol_of_caseEnding? {ending : Bool × Option String}
    (found : caseEnding? t = some ending) : op.symbol ∉ t := by
  obtain ⟨closed, a⟩ := ending
  obtain ⟨c, word, rest, rfl, blank, written, form⟩ := exists_of_caseEnding? found
  obtain ⟨other, visible, -, mark⟩ := op.symbol_other
  simp only [List.mem_cons, List.not_mem_nil, or_false, not_or] at mark
  have unblank : ∀ {x : Text}, (∀ d ∈ x, isBlank d = true) → op.symbol ∉ x := by
    intro x blanks mem
    rw [blanks _ mem] at visible
    cases visible
  have first : op.symbol ∉ [c] := unblank (List.forall_mem_singleton.2 blank)
  have unwritten : op.symbol ∉ word := by
    intro mem
    rw [written.isWord letters_endKeyword _ mem] at other
    cases other
  have behind : op.symbol ∉ rest := by
    rcases form with ⟨-, ⟨-, blanks⟩ | ending⟩ | ⟨-, gap, behind, rfl, blanks, ending⟩
    · exact unblank blanks
    · exact not_mem_symbol_of_ending? op ending
    · simp [unblank blanks, mark, not_mem_symbol_of_ending? op ending]
  simp only [List.mem_singleton] at first
  simp [first, unwritten, behind]

omit op in
/-- **A case distinction ends with the keyword.** -/
theorem startsKeyword_of_caseEnding? {ending : Bool × Option String} {c : Char}
    (found : caseEnding? (c :: t) = some ending) :
    isBlank c = true ∧ startsKeyword endKeyword (some c) t = true := by
  obtain ⟨closed, a⟩ := ending
  obtain ⟨d, word, rest, same, blank, written, form⟩ := exists_of_caseEnding? found
  obtain ⟨rfl, rfl⟩ := List.cons.inj same
  have stop_blank : ∀ {d : Char} (t : Text), isBlank d = true → IsStop (d :: t) := by
    intro d t blank
    refine isStop_cons (isWord_of_isBlank blank) ?_ t
    rintro rfl
    cases blank
  have stop : IsStop rest := by
    rcases form with ⟨-, ⟨-, blanks⟩ | ending⟩ | ⟨-, gap, behind, rfl, blanks, -⟩
    · cases rest with
      | nil => exact isStop_nil
      | cons d rest => exact stop_blank rest (blanks d (List.mem_cons_self ..))
    · rcases exists_of_ending? ending with ⟨rfl, -⟩ | ⟨name, -, front, word, back, rfl, blanks, -⟩
      · exact isStop_nil
      · obtain ⟨d, front, rfl⟩ := List.exists_cons_of_ne_nil blanks.1
        exact stop_blank _ (blanks.2 d (List.mem_cons_self ..))
    · cases gap with
      | nil => exact isStop_cons rfl (by decide) behind
      | cons d gap => exact stop_blank _ (blanks d (List.mem_cons_self ..))
  have short : ∀ a ∈ endKeyword, fold a ≠ 's' := by
    simp only [endKeyword, List.forall_mem_cons]
    exact ⟨by decide, by decide, by decide, List.forall_mem_nil _⟩
  have spelled := written.sameLetters letters_endKeyword short
  refine ⟨blank, startsKeyword_of_word (sameLetters_iff.1 spelled) ?_⟩
  have other := isAsciiWord_of_isWord (isWord_of_isBlank blank)
  have brace : c ≠ '\x7b' := (isLoose_of_isBlank blank).1.2.2.2.1
  rw [stop.standsAlone_eq]
  simp [standsAlone, mayPrecedeKeyword, other, brace]

omit op in
/-- The word in front of an alias neither opens nor closes anything. -/
theorem isLoose_of_written {word : Text} (written : IsWritten ['A', 'S'] word) :
    ∀ d ∈ word, IsLoose d ∧ agree true 'C' d = false := by
  have other : ∀ a ∈ ['A', 'S'], agree true 'C' a = false := by
    simp only [List.forall_mem_cons]
    exact ⟨rfl, rfl, List.forall_mem_nil _⟩
  intro d mem
  have letter := written.isWord letters_asKeyword d mem
  have loose : IsLoose d := by
    refine ⟨?_, ?_, ?_, ?_, ?_⟩
    all_goals
      rintro rfl
      cases letter
  have folded : fold d ∈ ['A', 'S'].map fold := written ▸ List.mem_map_of_mem mem
  obtain ⟨a, member, same⟩ := List.mem_map.1 folded
  refine ⟨loose, ?_⟩
  rcases agree_of_fold (letters_asKeyword a member) same.symm with agrees | ⟨rfl, -⟩
  · rw [← agree_congr agrees]
    exact other a member
  · rfl

/-- A text in which an operator stands in front of nothing but an alias is no case distinction. -/
theorem case?_eq_none_of_symbol {front naming name : Text} (named : IsNaming naming name)
    (nested : Nested [] (some op.symbol) naming []) :
    case? (front ++ op.symbol :: naming) = none := by
  rw [Option.eq_none_iff_forall_ne_some]
  intro c found
  obtain ⟨lead, keyword, gap, tail, whole, -, -, -, -, ending⟩ := exists_of_case? found
  have outside := not_mem_symbol_of_caseEnding? op ending
  cases tail with
  | nil => cases ending
  | cons b tail =>
  obtain ⟨blank, starts⟩ := startsKeyword_of_caseEnding? ending
  have split : front ++ op.symbol :: naming
      = (if c.opened then ['('] else []) ++ (lead ++ (keyword ++ (gap ++ c.body))) ++ b :: tail := by
    rw [whole]
    simp
  obtain ⟨x, -, behind⟩ := exists_of_not_mem split outside
  obtain ⟨x', word, y', same, blanks, written, blanks', isName⟩ := named
  -- the end stands in the alias, and in front of its name, which holds no blank
  have unblank : b ∉ name := by
    intro mem
    have word := isName.2 b mem
    rw [isWord_of_isBlank blank] at word
    cases word
  have split' : x ++ b :: tail = x' ++ (word ++ y') ++ name := by
    rw [← behind, same]
    simp
  obtain ⟨z, inside, -⟩ := exists_of_not_mem split' unblank
  have plain : ∀ d ∈ x' ++ (word ++ y'), IsLoose d ∧ agree true 'C' d = false := by
    simp only [List.forall_mem_append]
    exact ⟨fun d mem => isLoose_of_isBlank (blanks.2 d mem), isLoose_of_written written,
      fun d mem => isLoose_of_isBlank (blanks'.2 d mem)⟩
  rw [inside, List.forall_mem_append] at plain
  rw [behind] at nested
  have more := (nestedWith_iff_nested.2 nested).behind plain.1
  have loose := isLoose_of_isBlank blank
  have closes := (more.of_cons loose.1 loose.2).2.2.not_startsKeyword (by rintro rfl; cases starts)
  rw [List.append_nil, starts] at closes
  cases closes

end Form

end RecordMapper
