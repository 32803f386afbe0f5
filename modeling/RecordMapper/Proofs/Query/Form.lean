import RecordMapper.Proofs.Query.Canonical
import RecordMapper.Proofs.Query.Parts
import RecordMapper.Proofs.Text.Scans

/-!
The forms of printed expressions.

Each form is recognized in the text of an expression of that form, with its parts and its alias, and
in no other: a solid text in front of an operator is neither a field reference nor a literal
(`Form.field?_of_solid`, `Form.literal?_of_solid`), and its end is no alias
(`Form.splitAlias_of_linked`).
-/

namespace RecordMapper

open Text

namespace Form

/-! ### Words and blanks -/

/-- A word is read up to a character that is none of a word. -/
theorem word?_append {w rest : Text} (word : IsName w)
    (behind : ∀ c ∈ rest.head?, isWord c = false) : word? (w ++ rest) = some (w, rest) := by
  obtain ⟨taken, dropped⟩ := takeWhile_append_of_head word.2 behind
  rw [word?, taken, dropped]
  simp [word.1]

theorem word?_cons_eq_none {c : Char} (other : isWord c = false) (t : Text) :
    word? (c :: t) = none := by
  simp [word?, other]

theorem afterWord?_append (w rest : Text) : afterWord? w (w ++ rest) = some rest := by
  induction w with
  | nil => rfl
  | cons a w ih => rw [List.cons_append, afterWord?, if_pos rfl, ih]

theorem afterBlanks?_of_start {t : Text} (start : ∀ c ∈ t.head?, isBlank c = false) :
    afterBlanks? (' ' :: t) = some t := by
  have space : isBlank ' ' = true := rfl
  rw [afterBlanks?, if_pos space]
  exact congrArg some (trimStart_of_start start)

theorem afterBlanks?_space {c : Char} (other : isBlank c = false) (t : Text) :
    afterBlanks? (' ' :: c :: t) = some (c :: t) :=
  afterBlanks?_of_start fun d first => by
    cases first
    exact other

/-! ### Aliases at the end -/

/-- **An alias is read back.** -/
theorem ending?_printAlias {a : Option String} (word : ∀ name ∈ a, IsAsciiWord name.toList) :
    ending? (printAlias a) = some a := by
  cases a with
  | none => rfl
  | some name =>
    have isWord := word name rfl
    obtain ⟨c, tail, split⟩ := List.exists_cons_of_ne_nil isWord.1
    have blank : isBlank c = false := isBlank_of_isAsciiWord (isWord.2 c (by simp [split]))
    have found : word? name.toList = some (name.toList, []) := by
      have read : word? (name.toList ++ []) = some (name.toList, []) :=
        word?_append isWord.isName nofun
      rwa [List.append_nil] at read
    have behind : afterBlanks? (' ' :: name.toList) = some name.toList := by
      rw [split]
      exact afterBlanks?_space blank tail
    have keyword : afterWord? ['A', 'S'] ('A' :: 'S' :: ' ' :: name.toList)
        = some (' ' :: name.toList) := afterWord?_append ['A', 'S'] _
    have start : afterBlanks? (' ' :: 'A' :: 'S' :: ' ' :: name.toList)
        = some ('A' :: 'S' :: ' ' :: name.toList) := afterBlanks?_space rfl _
    show ending? (' ' :: 'A' :: 'S' :: ' ' :: name.toList) = _
    simp only [ending?, start, keyword, behind, found, Option.bind_eq_bind, Option.bind_some]
    simp

/-- A sign behind a blank is no alias. -/
theorem ending?_sign {k : Text} (mem : k ∈ signs) (rest : Text) :
    ending? (' ' :: (k ++ ' ' :: rest)) = none := by
  obtain ⟨op, -, rfl⟩ := List.mem_map.1 mem
  cases op <;> rfl

/-! ### Field references -/

theorem field?_name {name : Text} (word : IsName name) (rest : Text) :
    field? ('\x7b' :: (name ++ '\x7d' :: rest))
      = (ending? rest).map fun a => ⟨none, String.ofList name, a⟩ := by
  have read : word? (name ++ '\x7d' :: rest) = some (name, '\x7d' :: rest) :=
    word?_append word fun c mem => by cases mem; rfl
  simp only [field?, read, Option.bind_eq_bind, Option.bind_some]
  cases ending? rest <;> rfl

theorem field?_qualified {table name : Text} (table_word : IsName table)
    (word : IsName name) (rest : Text) :
    field? ('\x7b' :: (table ++ '.' :: name ++ '\x7d' :: rest))
      = (ending? rest).map fun a => ⟨some (String.ofList table), String.ofList name, a⟩ := by
  have first : word? (table ++ '.' :: name ++ '\x7d' :: rest)
      = some (table, '.' :: (name ++ '\x7d' :: rest)) := by
    rw [List.append_assoc]
    exact word?_append table_word fun c mem => by cases mem; rfl
  have second : word? (name ++ '\x7d' :: rest) = some (name, '\x7d' :: rest) :=
    word?_append word fun c mem => by cases mem; rfl
  simp only [field?, first, second, Option.bind_eq_bind, Option.bind_some]
  cases ending? rest <;> rfl

/-- **A field reference is read back**, with what stands behind it as its alias. -/
theorem field?_printName {ref : FieldRef} (word : IsAsciiWord ref.name.toList)
    (table : ∀ table ∈ ref.table, IsAsciiWord table.toList) (rest : Text) :
    field? ('\x7b' :: (ref.printName ++ '\x7d' :: rest))
      = (ending? rest).map fun a => ⟨ref.table, ref.name, a⟩ := by
  unfold FieldRef.printName
  split
  · rename_i t found
    rw [field?_qualified (table t found).isName word.isName, found, String.ofList_toList,
      String.ofList_toList]
  · rename_i none
    rw [field?_name word.isName, none, String.ofList_toList]

/-- A text that starts with no brace is no field reference. -/
theorem field?_cons_eq_none {c : Char} (other : c ≠ '\x7b') (t : Text) :
    field? (c :: t) = none := by
  unfold field?
  split
  · rename_i same
    exact absurd (List.cons.inj same).1 other
  · rfl

theorem field?_of_word {w : Text} (word : IsAsciiWord w) (t : Text) : field? (w ++ t) = none := by
  obtain ⟨c, w, rfl⟩ := List.exists_cons_of_ne_nil word.1
  refine field?_cons_eq_none ?_ _
  rintro rfl
  have brace := word.2 '\x7b' (List.mem_cons_self ..)
  cases brace

/-- A solid text is no field reference, if no alias stands behind it. -/
theorem field?_of_solid {x : Text} (solid : Solid x) {rest : Text} (unnamed : ending? rest = none) :
    field? (x ++ rest) = none := by
  cases solid with
  | digits nonempty digits =>
    exact field?_of_word ⟨nonempty, fun c mem => isAsciiWord_of_isDigit (digits c mem)⟩ rest
  | negative _ _ => exact field?_cons_eq_none (by decide) _
  | @field t reference =>
    have split : '\x7b' :: (t ++ ['\x7d']) ++ rest = '\x7b' :: (t ++ '\x7d' :: rest) := by simp
    rw [split]
    rcases reference with word | ⟨table, name, table_word, word, rfl⟩
    · rw [field?_name word.isName, unnamed]
      rfl
    · rw [field?_qualified table_word.isName word.isName, unnamed]
      rfl
  | literal _ => exact field?_cons_eq_none (by decide) _
  | call identifier _ _ =>
    rw [List.append_assoc]
    exact field?_of_word identifier.word _
  | group _ => exact field?_cons_eq_none (by decide) _
  | case _ _ => exact field?_cons_eq_none (by decide) _

/-! ### Literals -/

/-- The escapes of a literal are undone. -/
theorem unescape_escapeQuoted (t : Text) : unescape (escapeQuoted t) = t := by
  induction t with
  | nil => rfl
  | cons c t ih =>
    rw [escapeQuoted_cons]
    split
    · simp [unescape, ih]
    · rename_i other
      rw [not_or] at other
      rw [List.singleton_append, unescape, ih]
      · intro same _
        exact other.2 same
      · intro _ _ same _
        exact other.2 same

theorem isDigit_of_isAscii {c : Char} (ascii : IsAscii c) : Text.isDigit c = c.isDigit := by
  have small : c.toNat < 128 := ascii
  rw [Text.isDigit, if_pos small]

/-- What follows a number does not go on with it. -/
def EndsNumber (rest : Text) : Prop :=
  ∀ c ∈ rest.head?, Text.isDigit c = false ∧ c ≠ '.'

/-- Digits are read up to something else. -/
theorem digits?_append {w rest : Text} (nonempty : w ≠ []) (digits : ∀ c ∈ w, c.isDigit = true)
    (behind : ∀ c ∈ rest.head?, Text.isDigit c = false) : digits? (w ++ rest) = some (w, rest) := by
  have all : ∀ c ∈ w, Text.isDigit c = true := by
    intro c mem
    rw [isDigit_of_isAscii (isAscii_of_isAsciiWord (isAsciiWord_of_isDigit (digits c mem)))]
    exact digits c mem
  obtain ⟨taken, dropped⟩ := takeWhile_append_of_head all behind
  rw [digits?, taken, dropped]
  simp [nonempty]

theorem unsigned?_append {w rest : Text} (nonempty : w ≠ []) (digits : ∀ c ∈ w, c.isDigit = true)
    (behind : EndsNumber rest) : unsigned? (w ++ rest) = some (w, rest) := by
  have read := digits?_append nonempty digits fun c mem => (behind c mem).1
  simp only [unsigned?, read, Option.bind_eq_bind, Option.bind_some]
  split
  · exact absurd rfl (behind '.' rfl).2
  · rfl

theorem unsigned?_cons_eq_none {c : Char} (other : Text.isDigit c = false) (t : Text) :
    unsigned? (c :: t) = none := by
  simp [unsigned?, digits?, other]

/-- A text that starts with no quote, no sign and no digit is no literal. -/
theorem literal?_cons_eq_none {c : Char} (quote : c ≠ '"') (minus : c ≠ '-')
    (other : Text.isDigit c = false) (t : Text) : literal? (c :: t) = none := by
  have start : literalStart? (c :: t) = none := by
    unfold literalStart?
    split
    · rename_i same
      exact absurd (List.cons.inj same).1 quote
    · rename_i same
      exact absurd (List.cons.inj same).1 minus
    · rw [unsigned?_cons_eq_none other]
      rfl
  rw [literal?, start]
  rfl

theorem literalStart?_digits {w rest : Text} (nonempty : w ≠ [])
    (digits : ∀ c ∈ w, c.isDigit = true) (behind : EndsNumber rest) :
    literalStart? (w ++ rest) = some (.number w, rest) := by
  obtain ⟨c, tail, rfl⟩ := List.exists_cons_of_ne_nil nonempty
  have read := unsigned?_append nonempty digits behind
  have digit := digits c (List.mem_cons_self ..)
  unfold literalStart?
  split
  · rename_i same
    rw [(List.cons.inj same).1] at digit
    cases digit
  · rename_i same
    rw [(List.cons.inj same).1] at digit
    cases digit
  · rw [read]
    rfl

theorem literalStart?_negative {w rest : Text} (nonempty : w ≠ [])
    (digits : ∀ c ∈ w, c.isDigit = true) (behind : EndsNumber rest) :
    literalStart? ('-' :: w ++ rest) = some (.number ('-' :: w), rest) := by
  rw [List.cons_append, literalStart?, unsigned?_append nonempty digits behind]
  rfl

theorem literalStart?_print (n : Int) {rest : Text} (behind : EndsNumber rest) :
    literalStart? (Integer.print n ++ rest) = some (.number (Integer.print n), rest) := by
  have digits : ∀ c ∈ Integer.digits n.natAbs, c.isDigit = true :=
    fun c mem => Integer.isDigit_of_mem_digits mem
  unfold Integer.print
  split
  · exact literalStart?_negative (Integer.digits_ne_nil _) digits behind
  · exact literalStart?_digits (Integer.digits_ne_nil _) digits behind

theorem literalStart?_escapeQuoted (t rest : Text) :
    literalStart? ('"' :: (escapeQuoted t ++ '"' :: rest))
      = some (.string (escapeQuoted t), rest) := by
  rw [literalStart?, literal?_append]
  rfl

/-- A name is no literal. -/
theorem literal?_of_identifier {name : Text} (identifier : IsIdentifier name) (rest : Text) :
    literal? (name ++ rest) = none := by
  obtain ⟨c, tail, rfl⟩ := List.exists_cons_of_ne_nil identifier.word.1
  have checked := forall_isAsciiWord
    (p := fun c => !isNameStart c || (c != '"' && c != '-' && !Text.isDigit c)) rfl
    (identifier.word.2 c (List.mem_cons_self ..))
  rw [identifier.start c rfl] at checked
  simp only [Bool.not_true, Bool.false_or, Bool.and_eq_true, bne_iff_ne, Bool.not_eq_true']
    at checked
  exact literal?_cons_eq_none checked.1.1 checked.1.2 checked.2 _

/-- A solid text is no literal, if no alias stands behind it. -/
theorem literal?_of_solid {x : Text} (solid : Solid x) {rest : Text} (unnamed : ending? rest = none)
    (behind : EndsNumber rest) : literal? (x ++ rest) = none := by
  have number : ∀ {t : Text} {l : Literal}, literalStart? t = some (l, rest) →
      literal? t = none := by
    intro t l start
    simp only [literal?, start, unnamed, Option.bind_eq_bind, Option.bind_some, Option.bind_none]
  cases solid with
  | digits nonempty digits => exact number (literalStart?_digits nonempty digits behind)
  | negative nonempty digits => exact number (literalStart?_negative nonempty digits behind)
  | field _ => exact literal?_cons_eq_none (by decide) (by decide) rfl _
  | literal t =>
    have split : '"' :: (escapeQuoted t ++ ['"']) ++ rest
        = '"' :: (escapeQuoted t ++ '"' :: rest) := by simp
    rw [split]
    exact number (literalStart?_escapeQuoted t rest)
  | call identifier _ _ =>
    rw [List.append_assoc]
    exact literal?_of_identifier identifier _
  | group _ => exact literal?_cons_eq_none (by decide) (by decide) rfl _
  | case _ _ => exact literal?_cons_eq_none (by decide) (by decide) rfl _

/-! ### Aliases of chains -/

theorem head?_reverse_of_ending {t : Text} (ending : HasEnding t) (behind : Text) :
    ∀ c ∈ (t.reverse ++ behind).head?, isBlank c = false := by
  obtain ⟨e, mem, front, same⟩ := ending
  obtain ⟨d, e, rfl, other⟩ := start_of_mem_endings mem
  intro c first
  rw [same] at first
  cases first
  exact other

/-- **An alias is split off a chain.** -/
theorem splitAlias_printAlias {body : Text} (trimmed : IsTrimmed body) {name : String}
    (identifier : IsIdentifier name.toList) :
    splitAlias (body ++ printAlias (some name)) = (body, some name.toList) := by
  have reversed : (body ++ printAlias (some name)).reverse
      = name.toList.reverse ++ ' ' :: 'S' :: 'A' :: ' ' :: body.reverse := by
    simp [printAlias]
  have word : IsAsciiWord name.toList.reverse := by
    constructor
    · simpa using identifier.word.1
    · intro c mem
      exact identifier.word.2 c (List.mem_reverse.1 mem)
  have read : word? (name.toList.reverse ++ ' ' :: 'S' :: 'A' :: ' ' :: body.reverse)
      = some (name.toList.reverse, ' ' :: 'S' :: 'A' :: ' ' :: body.reverse) :=
    word?_append word.isName fun c mem => by cases mem; rfl
  obtain ⟨c, tail, split⟩ := List.exists_cons_of_ne_nil identifier.word.1
  have first : name.toList.reverse.getLast? = some c := by simp [split]
  have start : isNameStart c = true := identifier.start c (by simp [split])
  have blanks : afterBlanks? (' ' :: 'S' :: 'A' :: ' ' :: body.reverse)
      = some ('S' :: 'A' :: ' ' :: body.reverse) := afterBlanks?_space rfl _
  have keyword : afterWord? ['S', 'A'] ('S' :: 'A' :: ' ' :: body.reverse)
      = some (' ' :: body.reverse) := afterWord?_append ['S', 'A'] _
  have behind : afterBlanks? (' ' :: body.reverse) = some body.reverse := by
    refine afterBlanks?_of_start fun c first => trimmed.stop c ?_
    rwa [List.head?_reverse] at first
  have nonempty : body.reverse.isEmpty = false := by
    rw [List.isEmpty_reverse]
    exact trimmed.isEmpty_eq_false
  simp only [splitAlias, reversed, read, first, start, blanks, keyword, behind, nonempty,
    Option.bind_eq_bind, Option.bind_some, if_true]
  simp

/-- A text that ends in no word has no alias. -/
theorem splitAlias_of_mark {t : Text} {c : Char} (other : isWord c = false) :
    splitAlias (t ++ [c]) = (t ++ [c], none) := by
  simp only [splitAlias, List.reverse_append, List.reverse_singleton, List.singleton_append,
    word?_cons_eq_none other, Option.bind_eq_bind, Option.bind_none, Option.getD_none]

/-- Digits at the end are no alias. -/
theorem splitAlias_digits {front w : Text} (nonempty : w ≠ [])
    (digits : ∀ c ∈ w, c.isDigit = true) (before : ∀ c ∈ front.getLast?, isWord c = false) :
    splitAlias (front ++ w) = (front ++ w, none) := by
  obtain ⟨c, w, rfl⟩ := List.exists_cons_of_ne_nil nonempty
  have word : IsAsciiWord (c :: w).reverse := by
    constructor
    · simp
    · intro d mem
      exact isAsciiWord_of_isDigit (digits d (List.mem_reverse.1 mem))
  have read : word? ((c :: w).reverse ++ front.reverse)
      = some ((c :: w).reverse, front.reverse) := by
    refine word?_append word.isName ?_
    rwa [List.head?_reverse]
  have first : (c :: w).reverse.getLast? = some c := by simp
  have start : isNameStart c = false := by
    have checked := forall_isDigit (p := fun c => !isNameStart c) rfl
      (digits c (List.mem_cons_self ..))
    simpa using checked
  simp only [splitAlias, List.reverse_append, read, first, start, Option.bind_eq_bind,
    Option.bind_some]
  rfl

/-- The `END` of a case distinction is no alias: no `AS` stands before it. -/
theorem splitAlias_case {front : Text} (ending : HasEnding front) :
    splitAlias (front ++ ' ' :: endKeyword) = (front ++ ' ' :: endKeyword, none) := by
  have reversed : (front ++ ' ' :: endKeyword).reverse
      = endKeyword.reverse ++ ' ' :: front.reverse := by
    simp
  have word : IsAsciiWord endKeyword.reverse := isAsciiWord_of_checked rfl
  have read : word? (endKeyword.reverse ++ ' ' :: front.reverse)
      = some (endKeyword.reverse, ' ' :: front.reverse) :=
    word?_append word.isName fun c mem => by cases mem; rfl
  have first : endKeyword.reverse.getLast? = some 'E' := rfl
  have start : isNameStart 'E' = true := rfl
  have behind : afterBlanks? (' ' :: front.reverse) = some front.reverse := by
    refine afterBlanks?_of_start ?_
    have other := head?_reverse_of_ending ending []
    rwa [List.append_nil] at other
  have unnamed : afterWord? ['S', 'A'] front.reverse = none := by
    obtain ⟨e, mem, rest, same⟩ := ending
    obtain ⟨c, e, rfl, -⟩ := start_of_mem_endings mem
    have checked : endings.all (fun e => e.head?.any fun c => fold 'S' != fold c) = true := rfl
    have differ := List.all_eq_true.1 checked _ mem
    have other : ¬ fold 'S' = fold c := by simpa using differ
    rw [same, List.cons_append, afterWord?, if_neg other]
  simp only [splitAlias, reversed, read, first, start, behind, unnamed, Option.bind_eq_bind,
    Option.bind_some, if_true]
  rfl

/-- **A solid text ends in no alias**, if it is no part of a longer word. -/
theorem splitAlias_append_solid {x : Text} (solid : Solid x) {front : Text}
    (before : ∀ c ∈ front.getLast?, isWord c = false) :
    splitAlias (front ++ x) = (front ++ x, none) := by
  cases solid with
  | digits nonempty digits => exact splitAlias_digits nonempty digits before
  | @negative w nonempty digits =>
    have before : ∀ c ∈ (front ++ ['-']).getLast?, isWord c = false := by
      intro c last
      rw [List.getLast?_concat] at last
      cases last
      rfl
    have found := splitAlias_digits nonempty digits before
    simpa using found
  | @field t _ =>
    have found := splitAlias_of_mark (t := front ++ '\x7b' :: t) (c := '\x7d') rfl
    simpa using found
  | literal t =>
    have found := splitAlias_of_mark (t := front ++ '"' :: escapeQuoted t) (c := '"') rfl
    simpa using found
  | @call name inner _ _ _ =>
    have found := splitAlias_of_mark (t := front ++ name ++ '(' :: inner) (c := ')') rfl
    simpa using found
  | @group inner _ =>
    have found := splitAlias_of_mark (t := front ++ '(' :: inner) (c := ')') rfl
    simpa using found
  | @case body _ ending =>
    have found := splitAlias_case (ending.append (front ++ caseKeyword ++ [' ']))
    simpa using found

/-- **A linked text has no alias.** -/
theorem splitAlias_of_linked {infixes : List Text} {t : Text} (linked : Linked infixes t) :
    splitAlias t = (t, none) := by
  cases linked with
  | solid solid =>
    have found : splitAlias ([] ++ t) = ([] ++ t, none) := splitAlias_append_solid solid nofun
    exact found
  | @link x k y _ _ back =>
    have before : ∀ c ∈ (x ++ ' ' :: (k ++ [' '])).getLast?, isWord c = false := by
      intro c last
      rw [← List.cons_append, ← List.append_assoc, List.getLast?_concat] at last
      cases last
      rfl
    have found := splitAlias_append_solid back before
    simpa using found

/-! ### Calls -/

/-- **A call is read back**, with what stands behind it as its alias. -/
theorem call?_append {name inner : Text} (identifier : IsIdentifier name)
    (balanced : Balanced inner) (rest : Text) :
    call? (name ++ '(' :: (inner ++ ')' :: rest))
      = (ending? rest).map fun a => ⟨String.ofList name, inner, a⟩ := by
  have read : word? (name ++ '(' :: (inner ++ ')' :: rest))
      = some (name, '(' :: (inner ++ ')' :: rest)) :=
    word?_append identifier.word.isName fun c mem => by cases mem; rfl
  obtain ⟨c, tail, split⟩ := List.exists_cons_of_ne_nil identifier.word.1
  have first : name.head? = some c := by simp [split]
  have start : isNameStart c = true := identifier.start c first
  have trimmed : trimStart ('(' :: (inner ++ ')' :: rest)) = '(' :: (inner ++ ')' :: rest) := rfl
  simp only [call?, read, first, start, trimmed, closing?_append balanced, Option.bind_eq_bind,
    Option.bind_some, if_true]
  cases ending? rest <;> rfl

/-- A case distinction is no call: no parenthesis stands behind its first word. -/
theorem call?_caseKeyword {c : Char} (blank : isBlank c = false) (other : c ≠ '(') (t : Text) :
    call? (caseKeyword ++ ' ' :: c :: t) = none := by
  have word : IsAsciiWord caseKeyword := isAsciiWord_of_checked rfl
  have read : word? (caseKeyword ++ ' ' :: c :: t) = some (caseKeyword, ' ' :: c :: t) :=
    word?_append word.isName fun c mem => by cases mem; rfl
  have first : caseKeyword.head? = some 'C' := rfl
  have start : isNameStart 'C' = true := rfl
  have trimmed : trimStart ([' '] ++ c :: t) = c :: t := by
    refine dropWhile_isBlank_append (by simp [isBlank]) fun d first => ?_
    cases first
    exact blank
  rw [List.singleton_append] at trimmed
  simp only [call?, read, first, start, trimmed, Option.bind_eq_bind, Option.bind_some, if_true]
  split
  · rename_i same
    exact absurd (List.cons.inj same).1 other
  · rfl

/-! ### Case distinctions -/

/-- Without a long s, keywords are read as elsewhere. -/
theorem afterWord?_eq_after? {w t : Text} (short : ∀ c ∈ w, c ≠ 'ſ') (short' : ∀ c ∈ t, c ≠ 'ſ') :
    afterWord? w t = after? true w t := by
  induction w generalizing t with
  | nil => rfl
  | cons a w ih =>
    cases t with
    | nil => rfl
    | cons b t =>
      have left := short a (List.mem_cons_self ..)
      have right := short' b (List.mem_cons_self ..)
      rw [afterWord?, after?, fold, fold, if_neg left, if_neg right,
        ih (fun c mem => short c (List.mem_cons_of_mem _ mem))
          fun c mem => short' c (List.mem_cons_of_mem _ mem)]
      simp [agree]

theorem ne_long_s_of_word {w : Text} (word : IsAsciiWord w) : ∀ c ∈ w, c ≠ 'ſ' := by
  rintro c mem rfl
  have long := word.2 'ſ' mem
  cases long

/-- No case distinction ends inside a word. -/
theorem lastCaseEnding?_word_append {w rest : Text} (word : IsAsciiWord w)
    (later : lastCaseEnding? rest = none) : lastCaseEnding? (w ++ rest) = none :=
  lastCaseEnding?_visible (fun d mem => isBlank_of_isAsciiWord (word.2 d mem)) later

/-- An alias that is not `END` ends no case distinction. -/
theorem caseEnding?_name {name : Text} (word : IsAsciiWord name)
    (other : sameLetters endKeyword name = false) : caseEnding? (' ' :: name) = none := by
  have keyword : IsAsciiWord endKeyword := isAsciiWord_of_checked rfl
  have same : afterWord? endKeyword name = after? true endKeyword name :=
    afterWord?_eq_after? (ne_long_s_of_word keyword) (ne_long_s_of_word word)
  have space : isBlank ' ' = true := rfl
  cases found : after? true endKeyword name with
  | none =>
    simp only [caseEnding?, space, same, found, if_true, Option.bind_eq_bind, Option.bind_none]
  | some rest =>
    obtain ⟨front, all, rfl⟩ := after?_eq_some_iff.1 found
    cases rest with
    | nil =>
      rw [sameLetters, found] at other
      cases other
    | cons c rest =>
      have letter := word.2 c (by simp)
      have blank := isBlank_of_isAsciiWord letter
      have trimmed : trimStart (c :: rest) = c :: rest :=
        trimStart_of_start fun d first => by
          cases first
          exact blank
      have unnamed : ending? (c :: rest) = none := by
        simp [ending?, afterBlanks?, blank]
      simp only [caseEnding?, space, same, found, trimmed, if_true, Option.bind_eq_bind,
        Option.bind_some]
      split
      · rename_i nothing
        cases nothing
      · rename_i closed
        rw [(List.cons.inj closed).1] at letter
        cases letter
      · rw [unnamed]
        rfl

/-- The alias of a case distinction: it is not `END`, in any case. -/
def IsCaseAlias (a : Option String) : Prop :=
  ∀ name ∈ a, IsAsciiWord name.toList ∧ sameLetters endKeyword name.toList = false

/-- The last ending of a case distinction is the one before its alias. -/
theorem lastCaseEnding?_printAlias {a : Option String} (named : IsCaseAlias a) :
    lastCaseEnding? (endKeyword ++ printAlias a) = none := by
  have keyword : IsAsciiWord endKeyword := isAsciiWord_of_checked rfl
  refine lastCaseEnding?_word_append keyword ?_
  cases a with
  | none => rfl
  | some name =>
    obtain ⟨word, other⟩ := named name rfl
    have contents : lastCaseEnding? name.toList = none := by
      have inside : lastCaseEnding? (name.toList ++ []) = none :=
        lastCaseEnding?_word_append word rfl
      rwa [List.append_nil] at inside
    have last : lastCaseEnding? (' ' :: name.toList) = none := by
      rw [lastCaseEnding?, contents]
      simp only [caseEnding?_name word other, Option.map_none]
    have separated : lastCaseEnding? (['A', 'S'] ++ ' ' :: name.toList) = none :=
      lastCaseEnding?_word_append (isAsciiWord_of_checked rfl) last
    show lastCaseEnding? (' ' :: (['A', 'S'] ++ ' ' :: name.toList)) = none
    rw [lastCaseEnding?, separated]
    rfl

theorem caseEnding?_printAlias {a : Option String} (named : IsCaseAlias a) :
    caseEnding? (' ' :: (endKeyword ++ printAlias a)) = some (false, a) := by
  have keyword := afterWord?_append endKeyword (printAlias a)
  have space : isBlank ' ' = true := rfl
  have read := ending?_printAlias fun name mem => (named name mem).1
  simp only [caseEnding?, space, keyword, if_true, Option.bind_eq_bind, Option.bind_some]
  cases a with
  | none => rfl
  | some name =>
    rw [read]
    rfl

/-- **A case distinction is read back.** -/
theorem case?_append {c : Char} (blank : isBlank c = false) (body : Text) {a : Option String}
    (named : IsCaseAlias a) :
    case? (caseKeyword ++ ' ' :: c :: (body ++ ' ' :: (endKeyword ++ printAlias a)))
      = some ⟨false, c :: body, false, a⟩ := by
  have keyword := afterWord?_append caseKeyword
    (' ' :: c :: (body ++ ' ' :: (endKeyword ++ printAlias a)))
  have trimmed :
      trimStart (caseKeyword ++ ' ' :: c :: (body ++ ' ' :: (endKeyword ++ printAlias a)))
      = caseKeyword ++ ' ' :: c :: (body ++ ' ' :: (endKeyword ++ printAlias a)) := rfl
  have last : lastCaseEnding? (' ' :: (endKeyword ++ printAlias a)) = some ([], false, a) := by
    rw [lastCaseEnding?, lastCaseEnding?_printAlias named]
    simp only [caseEnding?_printAlias named, Option.map_some]
  have found := lastCaseEnding?_later last (' ' :: c :: body)
  have blanks : (' ' :: c :: (body ++ ' ' :: (endKeyword ++ printAlias a))).takeWhile isBlank
      = [' '] := by
    have space : isBlank ' ' = true := rfl
    simp [space, blank]
  rw [List.append_nil, List.cons_append, List.cons_append] at found
  have unopened : ∀ rest, caseKeyword ++ ' ' :: c :: (body ++ ' ' :: (endKeyword ++ printAlias a))
      ≠ '(' :: rest := by
    intro rest same
    cases same
  rw [case?_unopened unopened, caseBehind?, trimmed, keyword, Option.bind_some, found,
    Option.bind_some, blanks]
  rfl

end Form

end RecordMapper
