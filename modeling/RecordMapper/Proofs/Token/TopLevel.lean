import RecordMapper.Proofs.Text.Segments
import RecordMapper.Proofs.Token.ByteScans

/-!
The search for an operator over bytes.

`Byte.topLevelFrom?` looks for the first byte of an operator outside literals, parentheses, field
references and case distinctions. It jumps behind each literal and each keyword, and passes the bytes
of a longer character one by one; none of them is one of an ASCII character, so that they mean nothing
to it (`Byte.topLevelFrom?_foreign`). So an operator of ASCII characters is found where the search over
characters splits the text (`Text.operatorOffset?_eq`), in front of a character and behind one.
-/

namespace RecordMapper

open Text

/-! ### The search -/

namespace Byte

/-- An ASCII blank. -/
def isBlank (b : UInt8) : Bool :=
  b == ofAscii ' ' || b == ofAscii '\t' || b == ofAscii '\n' || b == ofAscii '\x0C'
    || b == ofAscii '\r'

/-- The bytes start with a keyword, which stands on its own. -/
def startsKeyword (keyword : List UInt8) (before : Option UInt8) (bytes : List UInt8) : Bool :=
  match after? true keyword bytes with
  | some rest => standsAlone before rest.head?
  | none => false

/-- The bytes start with an operator; one written as words ignores letter case and needs an ASCII
blank on both sides. -/
def startsOperator (operator : List UInt8) (words : Bool) (before : Option UInt8)
    (bytes : List UInt8) : Bool :=
  if words then
    before.any isBlank && (after? true operator bytes).any fun rest => rest.head?.any isBlank
  else (after? false operator bytes).isSome

/-- Finds the position of an operator with nothing around it. `depth` counts the parentheses, braces
and case distinctions that are open, `skip` bytes are not looked at any more, and `position` counts
the bytes passed. -/
def topLevelFrom? (operator : List UInt8) (words : Bool) :
    (depth skip : Nat) → (before : Option UInt8) → (position : Nat) → List UInt8 → Option Nat
  | _, _, _, _, [] => none
  | depth, skip + 1, _, position, b :: bytes =>
    topLevelFrom? operator words depth skip (some b) (position + 1) bytes
  | depth, 0, before, position, b :: bytes =>
    let next (depth skip : Nat) :=
      topLevelFrom? operator words depth skip (some b) (position + 1) bytes
    if b = ofAscii '"' then
      match quotedEnd? b 0 (position + 1) bytes with
      | some stop => next depth (stop - (position + 1))
      | none => none
    else if b = ofAscii '(' ∨ b = ofAscii '\x7b' then next (depth + 1) 0
    else if b = ofAscii ')' ∨ b = ofAscii '\x7d' then next (depth - 1) 0
    else if startsKeyword (Text.bytes caseKeyword) before (b :: bytes) then next (depth + 1) 3
    else if startsKeyword (Text.bytes endKeyword) before (b :: bytes) then next (depth - 1) 2
    else if depth = 0 ∧ startsOperator operator words before (b :: bytes) then some position
    else next depth 0

end Byte

/-- The offset of the first occurrence of the operator outside literals, parentheses, field
references and case distinctions. -/
def Text.operatorOffset? (operator : Text) (words : Bool) (t : Text) : Option Nat :=
  Byte.topLevelFrom? (bytes operator) words 0 0 none 0 (bytes t)

/-! ### What the bytes start with -/

theorem ascii_caseKeyword : caseKeyword ≠ [] ∧ ∀ a ∈ caseKeyword, IsAscii a := by
  simp [caseKeyword, IsAscii]

theorem ascii_endKeyword : endKeyword ≠ [] ∧ ∀ a ∈ endKeyword, IsAscii a := by
  simp [endKeyword, IsAscii]

namespace Byte

/-- Which ASCII character a character is, is told from each of its bytes. -/
theorem eq_ofAscii_iff_of_mem {c d : Char} (ascii : IsAscii d) {b : UInt8}
    (mem : b ∈ String.utf8EncodeChar c) : b = ofAscii d ↔ c = d := by
  constructor
  · intro same
    by_contra differ
    exact ne_ofAscii_of_mem ascii differ mem same
  · rintro rfl
    rw [utf8EncodeChar_of_isAscii ascii] at mem
    exact List.mem_singleton.1 mem

theorem isBlank_of_mem {c : Char} {b : UInt8} (mem : b ∈ String.utf8EncodeChar c) :
    isBlank b = isAsciiBlank c := by
  have same : ∀ {d : Char}, IsAscii d → (b == ofAscii d) = (c == d) := fun ascii =>
    Bool.eq_iff_iff.2 (by rw [beq_iff_eq, beq_iff_eq, eq_ofAscii_iff_of_mem ascii mem])
  simp only [isBlank, isAsciiBlank]
  rw [same (by decide), same (by decide), same (by decide), same (by decide), same (by decide)]

theorem startsKeyword_bytes {keyword : Text} (ascii : ∀ a ∈ keyword, IsAscii a)
    (before : Option Char) (t : Text) :
    startsKeyword (bytes keyword) (lastByte? before) (bytes t)
      = Text.startsKeyword keyword before t := by
  rw [startsKeyword, after?_bytes ascii, Text.startsKeyword]
  cases Text.after? true keyword t with
  | none => rfl
  | some rest => exact standsAlone_eq before rest

theorem any_eq_not_all {α : Type} (p : α → Bool) (found : Option α) :
    found.any p = !found.all fun a => !p a := by
  cases found <;> simp

theorem any_lastByte? (before : Option Char) :
    (lastByte? before).any isBlank = before.any isAsciiBlank := by
  rw [any_eq_not_all, any_eq_not_all, all_lastByte? _ (fun c => !isAsciiBlank c)]
  exact fun mem => congrArg not (isBlank_of_mem mem)

theorem any_head?_bytes (t : Text) : (bytes t).head?.any isBlank = t.head?.any isAsciiBlank := by
  rw [any_eq_not_all, any_eq_not_all, all_head?_bytes _ (fun c => !isAsciiBlank c)]
  exact fun mem => congrArg not (isBlank_of_mem mem)

theorem startsOperator_bytes {operator : Text} (ascii : ∀ a ∈ operator, IsAscii a) (words : Bool)
    (before : Option Char) (t : Text) :
    startsOperator (bytes operator) words (lastByte? before) (bytes t)
      = (afterOperator? operator words before t).isSome := by
  rw [startsOperator, afterOperator?]
  cases words with
  | false => simp [after?_bytes ascii]
  | true =>
    simp only [if_true, any_lastByte?, after?_bytes ascii, Option.any_map, any_head?_bytes]
    cases before.any isAsciiBlank with
    | false => rfl
    | true => cases Text.after? true operator t <;> simp [Option.filter_some, apply_ite]

/-! ### Passing bytes -/

variable {operator : Text} {words : Bool} {depth skip position : Nat}

/-- Bytes that are not looked at. -/
theorem topLevelFrom?_skip (operator : List UInt8) (before : Option UInt8)
    (front rest : List UInt8) :
    topLevelFrom? operator words depth front.length before position (front ++ rest)
      = topLevelFrom? operator words depth 0 (front.getLast?.or before) (position + front.length)
          rest := by
  induction front generalizing before position with
  | nil => rfl
  | cons b front ih =>
    rw [List.length_cons, List.cons_append, topLevelFrom?, ih, getLast?_cons_or]
    congr 1
    omega

/-- **Bytes of a character that is not ASCII mean nothing to the search.** -/
theorem topLevelFrom?_foreign (ascii : operator ≠ [] ∧ ∀ a ∈ operator, IsAscii a) {c : Char}
    (other : ¬ IsAscii c) {front : List UInt8} (sub : front ⊆ String.utf8EncodeChar c)
    (before : Option UInt8) (rest : List UInt8) :
    topLevelFrom? (bytes operator) words depth 0 before position (front ++ rest)
      = topLevelFrom? (bytes operator) words depth 0 (front.getLast?.or before)
          (position + front.length) rest := by
  induction front generalizing before position with
  | nil => rfl
  | cons b front ih =>
    have mem := sub (List.mem_cons_self ..)
    have differ : ∀ {d : Char}, IsAscii d → b ≠ ofAscii d := fun ascii =>
      ne_ofAscii_of_le (le_of_mem_utf8EncodeChar other mem) ascii
    have noCase := after?_foreign ascii_caseKeyword other mem true (front ++ rest)
    have noEnd := after?_foreign ascii_endKeyword other mem true (front ++ rest)
    have missed := fun ignoreCase => after?_foreign ascii other mem ignoreCase (front ++ rest)
    have step : topLevelFrom? (bytes operator) words depth 0 before position (b :: (front ++ rest))
        = topLevelFrom? (bytes operator) words depth 0 (some b) (position + 1) (front ++ rest) := by
      simp [topLevelFrom?, startsKeyword, startsOperator, noCase, noEnd, missed,
        differ (d := '"') (by decide), differ (d := '(') (by decide), differ (d := ')') (by decide),
        differ (d := '\x7b') (by decide), differ (d := '\x7d') (by decide)]
    rw [List.cons_append, step, ih (List.subset_of_cons_subset sub), getLast?_cons_or,
      List.length_cons]
    congr 1
    omega

end Byte

/-! ### Passing characters -/

namespace Text

variable {operator : Text} {words : Bool}

/-- In a literal that is not closed nothing is found. -/
theorem splitFrom?_of_literalFrom? {m : Mode} (inside : m ≠ .plain) {t : Text}
    (unclosed : literalFrom? m t = none) (depth : Nat) (before : Option Char) :
    splitFrom? operator words depth 0 m before t = none := by
  induction t generalizing m before with
  | nil => rfl
  | cons c t ih =>
    rw [literalFrom?] at unclosed
    split at unclosed
    · cases unclosed
    · rename_i goesOn
      rw [splitFrom?_cons_of_not_plain inside, ih goesOn (Option.map_eq_none_iff.1 unclosed)]
      rfl

theorem splitFrom?_of_unclosed {t : Text} (unclosed : literal? t = none) (depth : Nat)
    (before : Option Char) :
    splitFrom? operator words depth 0 .plain before ('"' :: t) = none := by
  have nothing : splitFrom? operator words depth 0 (Mode.plain.after '"') (some '"') t = none :=
    splitFrom?_of_literalFrom? (by decide) unclosed depth (some '"')
  rw [splitFrom?_cons_plain, if_pos rfl]
  exact congrArg (prependFound '"') nothing

/-- A character that is not ASCII starts nothing that is. -/
theorem after?_cons_foreign {start : Text} (ascii : start ≠ [] ∧ ∀ a ∈ start, IsAscii a) {c : Char}
    (other : ¬ IsAscii c) (ignoreCase : Bool) (t : Text) : after? ignoreCase start (c :: t) = none := by
  obtain ⟨a, more, rfl⟩ := List.exists_cons_of_ne_nil ascii.1
  rw [after?, if_neg]
  exact fun same => other (isAscii_of_agree (ascii.2 a (List.mem_cons_self ..)) same)

/-- A character that is not ASCII means nothing to the search. -/
theorem splitFrom?_foreign (ascii : operator ≠ [] ∧ ∀ a ∈ operator, IsAscii a) {c : Char}
    (other : ¬ IsAscii c) (depth : Nat) (before : Option Char) (t : Text) :
    splitFrom? operator words depth 0 .plain before (c :: t)
      = prependFound c (splitFrom? operator words depth 0 .plain (some c) t) := by
  have differ : ∀ {d : Char}, IsAscii d → c ≠ d := ne_of_not_isAscii other
  have noCase := after?_cons_foreign ascii_caseKeyword other true t
  have noEnd := after?_cons_foreign ascii_endKeyword other true t
  have missed := fun ignoreCase => after?_cons_foreign ascii other ignoreCase t
  rw [Spacing.splitFrom?_cons (differ (by decide))]
  simp only [differ (d := '(') (by decide), differ (d := ')') (by decide),
    differ (d := '\x7b') (by decide), differ (d := '\x7d') (by decide), startsKeyword, noCase, noEnd,
    afterOperator?, missed, Option.filter_none, ite_self, or_self, if_false, Bool.false_eq_true]
  split
  · rename_i zero
    rw [zero]
  · rfl

/-- The letters of a keyword behind its first one. -/
theorem letters_of_startsKeyword {keyword : Text} (letters : ∀ a ∈ keyword, a.isAlpha = true)
    {before : Option Char} {c : Char} {t : Text}
    (starts : startsKeyword keyword before (c :: t) = true) :
    ∀ d ∈ t.take (keyword.length - 1), IsAscii d ∧ d ≠ '"' := by
  rw [startsKeyword] at starts
  split at starts
  · rename_i rest after
    obtain ⟨word, all, whole⟩ := after?_eq_some_iff.1 after
    intro d mem
    have inside : d ∈ word := by
      cases all with
      | nil => cases mem
      | cons _ others =>
        rw [List.cons_append] at whole
        obtain ⟨-, rfl⟩ := List.cons.inj whole
        rw [List.length_cons, Nat.add_sub_cancel, others.length_eq, List.take_left] at mem
        exact List.mem_cons_of_mem _ mem
    have letter := isAsciiWord_of_mem_of_agree letters all d inside
    refine ⟨isAscii_of_isAsciiWord letter, ?_⟩
    rintro rfl
    cases letter
  · cases starts

/-- Where a search stops, counted in bytes. -/
def offsetOf (position : Nat) (found : Text × Text) : Nat :=
  position + (bytes found.1).length

theorem map_offsetOf_prependFound (position : Nat) (c : Char) (found : Option (Text × Text)) :
    (prependFound c found).map (offsetOf position)
      = found.map (offsetOf (position + c.utf8Size)) := by
  cases found with
  | none => rfl
  | some split =>
    simp only [prependFound, Option.map_some, offsetOf, length_bytes_cons]
    rw [Nat.add_assoc]

theorem map_offsetOf_foldr (position : Nat) (x : Text) (found : Option (Text × Text)) :
    (x.foldr prependFound found).map (offsetOf position)
      = found.map (offsetOf (position + (bytes x).length)) := by
  induction x generalizing position with
  | nil => rfl
  | cons c x ih =>
    rw [List.foldr_cons, map_offsetOf_prependFound, ih, length_bytes_cons, Nat.add_assoc]

end Text

/-! ### Bytes and characters -/

namespace Byte

variable {operator : Text} {words : Bool} {depth skip position : Nat}

/-- The search ends in a literal that is not closed. -/
theorem topLevelFrom?_unclosed {t : Text} (unclosed : literal? t = none) (before : Option UInt8) :
    topLevelFrom? (bytes operator) words depth 0 before position (bytes ('"' :: t)) = none := by
  rw [bytes_cons_of_isAscii (by decide), topLevelFrom?, if_pos rfl, quotedEnd?_bytes, unclosed]
  rfl

/-- The search jumps behind a literal that is closed. -/
theorem topLevelFrom?_literal {contents rest : Text}
    (closed : literal? (contents ++ '"' :: rest) = some (contents, rest)) (before : Option UInt8) :
    topLevelFrom? (bytes operator) words depth 0 before position
        (bytes ('"' :: (contents ++ '"' :: rest)))
      = topLevelFrom? (bytes operator) words depth 0 (some (ofAscii '"'))
          (position + (bytes ('"' :: (contents ++ ['"']))).length) (bytes rest) := by
  have quote : IsAscii '"' := by decide
  have inside : bytes (contents ++ '"' :: rest) = bytes (contents ++ ['"']) ++ bytes rest := by
    rw [← bytes_append, List.append_assoc, List.singleton_append]
  have last : (bytes (contents ++ ['"'])).getLast? = some (ofAscii '"') := by
    rw [bytes_append, bytes_cons_of_isAscii quote, bytes_nil, List.getLast?_concat]
  have size : (bytes (contents ++ ['"'])).length = (bytes contents).length + 1 := by
    rw [bytes_append, bytes_cons_of_isAscii quote, List.length_append]
    rfl
  have jump : position + 1 + (bytes contents).length + 1 - (position + 1)
      = (bytes (contents ++ ['"'])).length := by omega
  rw [bytes_cons_of_isAscii quote, topLevelFrom?, if_pos rfl, quotedEnd?_bytes, closed]
  simp only [Option.map_some, jump]
  rw [inside, topLevelFrom?_skip, last, Option.some_or, bytes_cons_of_isAscii quote,
    List.length_cons]
  congr 1
  omega

/-- In front of an ASCII character that is no quote both searches do the same, if they go on alike
behind it. -/
theorem topLevelFrom?_cons (ascii : operator ≠ [] ∧ ∀ a ∈ operator, IsAscii a) {c : Char}
    (ascii_c : IsAscii c) (unquoted : c ≠ '"') {t : Text}
    (next : ∀ depth skip, (∀ d ∈ t.take skip, IsAscii d ∧ d ≠ '"') →
      topLevelFrom? (bytes operator) words depth skip (some (ofAscii c)) (position + 1) (bytes t)
        = (prependFound c (splitFrom? operator words depth skip .plain (some c) t)).map
            (offsetOf position))
    (depth : Nat) (before : Option Char) :
    topLevelFrom? (bytes operator) words depth 0 (lastByte? before) position (bytes (c :: t))
      = (splitFrom? operator words depth 0 .plain before (c :: t)).map (offsetOf position) := by
  have read := fun depth => next depth 0 (List.forall_mem_nil _)
  have same : ∀ {d : Char}, IsAscii d → (ofAscii c = ofAscii d ↔ c = d) :=
    fun ascii => ofAscii_inj ascii_c ascii
  rw [bytes_cons_of_isAscii ascii_c, topLevelFrom?, ← bytes_cons_of_isAscii ascii_c,
    startsKeyword_bytes ascii_caseKeyword.2, startsKeyword_bytes ascii_endKeyword.2,
    startsOperator_bytes ascii.2, Spacing.splitFrom?_cons unquoted]
  simp only [same (d := '"') (by decide), same (d := '(') (by decide), same (d := ')') (by decide),
    same (d := '\x7b') (by decide), same (d := '\x7d') (by decide), if_neg unquoted]
  split
  · exact read (depth + 1)
  split
  · exact read (depth - 1)
  split
  · rename_i starts
    exact next (depth + 1) 3 (letters_of_startsKeyword letters_caseKeyword starts)
  split
  · rename_i starts
    exact next (depth - 1) 2 (letters_of_startsKeyword letters_endKeyword starts)
  -- the operator stands here, or both go on
  by_cases zero : depth = 0
  · subst zero
    cases here : afterOperator? operator words before (c :: t) with
    | some rest => simp [offsetOf]
    | none => simpa using read 0
  · simpa [zero] using read depth

/-- **The search over bytes finds the operator where the search over characters splits the text.** -/
theorem topLevelFrom?_bytes (ascii : operator ≠ [] ∧ ∀ a ∈ operator, IsAscii a) {t : Text}
    (letters : ∀ c ∈ t.take skip, IsAscii c ∧ c ≠ '"') (before : Option Char) :
    topLevelFrom? (bytes operator) words depth skip (lastByte? before) position (bytes t)
      = (splitFrom? operator words depth skip .plain before t).map (offsetOf position) := by
  -- a literal is passed as a whole, so what lies behind it is shorter, but not one step ahead
  induction size : t.length using Nat.strong_induction_on
    generalizing t depth skip before position with
  | h length ih =>
    subst size
    cases t with
    | nil => cases skip <;> rfl
    | cons c t =>
      have shorter : t.length < (c :: t).length := Nat.lt_succ_self _
      by_cases ascii_c : IsAscii c
      · have last : lastByte? (some c) = some (ofAscii c) := by
          simp [lastByte?, utf8EncodeChar_of_isAscii ascii_c]
        have single : c.utf8Size = 1 := by
          rw [← String.length_utf8EncodeChar, utf8EncodeChar_of_isAscii ascii_c]
          rfl
        have next : ∀ depth skip, (∀ d ∈ t.take skip, IsAscii d ∧ d ≠ '"') →
            topLevelFrom? (bytes operator) words depth skip (some (ofAscii c)) (position + 1)
                (bytes t)
              = (prependFound c (splitFrom? operator words depth skip .plain (some c) t)).map
                  (offsetOf position) := by
          intro depth skip letters
          rw [← last, ih _ shorter letters (some c) rfl, map_offsetOf_prependFound, single]
        cases skip with
        | succ skip =>
          rw [List.take_succ_cons, List.forall_mem_cons] at letters
          obtain ⟨⟨-, unquoted⟩, letters⟩ := letters
          rw [bytes_cons_of_isAscii ascii_c, topLevelFrom?, next depth skip letters, splitFrom?,
            after_plain_of_ne unquoted]
          rfl
        | zero =>
          by_cases quote : c = '"'
          · subst quote
            cases closed : literal? t with
            | none => rw [topLevelFrom?_unclosed closed, splitFrom?_of_unclosed closed]; rfl
            | some found =>
              obtain ⟨contents, rest⟩ := found
              obtain rfl := eq_append_of_literal? closed
              have fewer : rest.length < ('"' :: (contents ++ '"' :: rest)).length := by
                simp only [List.length_cons, List.length_append]
                omega
              rw [topLevelFrom?_literal closed, ← last,
                ih _ fewer (List.forall_mem_nil _) (some '"') rfl,
                Spacing.splitFrom?_literal (literal?_closed closed []), map_offsetOf_foldr]
          · exact topLevelFrom?_cons ascii ascii_c quote next depth before
      · obtain rfl : skip = 0 := by
          cases skip with
          | zero => rfl
          | succ skip =>
            rw [List.take_succ_cons, List.forall_mem_cons] at letters
            exact absurd letters.1.1 ascii_c
        have nonempty : String.utf8EncodeChar c ≠ [] := String.utf8EncodeChar_ne_nil
        have last : (String.utf8EncodeChar c).getLast?.or (lastByte? before) = lastByte? (some c) := by
          rw [List.getLast?_eq_some_getLast nonempty]
          exact (List.getLast?_eq_some_getLast nonempty).symm
        rw [bytes_cons, topLevelFrom?_foreign ascii ascii_c (List.Subset.refl _), last,
          String.length_utf8EncodeChar, ih _ shorter (List.forall_mem_nil _) (some c) rfl,
          splitFrom?_foreign ascii ascii_c, map_offsetOf_prependFound]

end Byte

/-- **An operator stands where the search over characters splits the text.** -/
theorem Text.operatorOffset?_eq {operator : Text} (ascii : operator ≠ [] ∧ ∀ a ∈ operator, IsAscii a)
    (words : Bool) (t : Text) :
    operatorOffset? operator words t
      = (splitAt? operator words t).map fun (left, _) => (bytes left).length := by
  have found := @Byte.topLevelFrom?_bytes operator words 0 0 0 ascii t (List.forall_mem_nil _) none
  have count : offsetOf 0 = fun (found : Text × Text) => (bytes found.1).length :=
    funext fun _ => Nat.zero_add _
  rw [count] at found
  exact found

end RecordMapper
