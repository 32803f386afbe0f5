import RecordMapper.Proofs.Text.Scans

/-!
Field references that a text mentions.

A `Qualified` is a reference to a field behind an alias. A text mentions it where it stands outside
string literals (`Qualified.MentionedIn`). It consists of word characters, braces and a point, so
**nothing else without braces cuts it** (`Qualified.MentionedFrom.cut`): where a text is taken apart
at a blank, a comma or a parenthesis, one of the parts mentions what the text mentioned. The scans
of query text take texts apart outside literals only.
-/

namespace RecordMapper

open Text

/-! ### Modes -/

namespace Text

/-- The mode behind a text. -/
def Mode.across (m : Mode) (t : Text) : Mode :=
  t.foldl Mode.after m

@[simp] theorem Mode.across_nil (m : Mode) : m.across [] = m :=
  rfl

@[simp] theorem Mode.across_cons (m : Mode) (c : Char) (t : Text) :
    m.across (c :: t) = (m.after c).across t :=
  rfl

@[simp] theorem Mode.across_append (m : Mode) (x y : Text) :
    m.across (x ++ y) = (m.across x).across y :=
  List.foldl_append

/-- No literal is opened in a text without quotes. -/
theorem Mode.across_unquoted {t : Text} (unquoted : '"' ∉ t) : Mode.plain.across t = .plain := by
  induction t with
  | nil => rfl
  | cons c t ih =>
    have other : c ≠ '"' := fun same => unquoted (same ▸ List.mem_cons_self ..)
    rw [Mode.across_cons, after_plain_of_ne other]
    exact ih fun mem => unquoted (List.mem_cons_of_mem c mem)

/-- A literal is open, and nothing in the text closes it. -/
def Unclosed (m : Mode) (t : Text) : Prop :=
  m ≠ .plain ∧ literalFrom? m t = none

/-- What follows in an unclosed literal is part of it. -/
theorem Unclosed.across {m : Mode} {x y : Text} (unclosed : Unclosed m (x ++ y)) :
    Unclosed (m.across x) y := by
  induction x generalizing m with
  | nil => exact unclosed
  | cons c x ih =>
    obtain ⟨-, none⟩ := unclosed
    rw [List.cons_append, literalFrom?] at none
    split at none
    · cases none
    · rename_i inside
      exact ih ⟨inside, Option.map_eq_none_iff.1 none⟩

/-- The scan stands outside literals, or in one that nothing in the text closes. -/
def Settled (m : Mode) (t : Text) : Prop :=
  m = .plain ∨ Unclosed m t

/-- A text that opens and closes literals as a whole is passed. -/
theorem Settled.across {m : Mode} {x y : Text} (settled : Settled m (x ++ y))
    (whole : Mode.plain.across x = .plain) : Settled (m.across x) y := by
  rcases settled with rfl | unclosed
  · exact .inl whole
  · exact .inr unclosed.across

/-! ### Scans -/

theorem across_flattenBlanksFrom (m : Mode) (t : Text) :
    m.across (flattenBlanksFrom m t) = m.across t := by
  induction t generalizing m with
  | nil => rfl
  | cons c t ih =>
    rw [flattenBlanksFrom]
    split
    · rename_i blank
      have unquoted : c ≠ '"' := by
        rintro rfl
        cases blank.2
      rw [Mode.across_cons, Mode.across_cons, blank.1, after_plain_of_ne unquoted,
        after_plain_of_ne (by decide)]
      exact ih .plain
    · exact ih (m.after c)

theorem flattenBlanksFrom_append (m : Mode) (x y : Text) :
    flattenBlanksFrom m (x ++ y) = flattenBlanksFrom m x ++ flattenBlanksFrom (m.across x) y := by
  induction x generalizing m with
  | nil => rfl
  | cons c x ih =>
    rw [List.cons_append, flattenBlanksFrom, ih, flattenBlanksFrom, List.cons_append,
      Mode.across_cons]

theorem flattenBlanksFrom_of_not_isBlank {t : Text} (other : ∀ c ∈ t, isBlank c = false)
    (m : Mode) : flattenBlanksFrom m t = t := by
  induction t generalizing m with
  | nil => rfl
  | cons c t ih =>
    have visible := other c (List.mem_cons_self ..)
    rw [flattenBlanksFrom, ih fun d mem => other d (List.mem_cons_of_mem c mem)]
    simp [visible]

/-- A literal ends at a quote, behind which the mode is plain again. -/
theorem exists_of_literalFrom? {m : Mode} (inside : m ≠ .plain) {t contents rest : Text}
    (found : literalFrom? m t = some (contents, rest)) :
    t = contents ++ '"' :: rest ∧ m.across (contents ++ ['"']) = .plain := by
  induction t generalizing m contents with
  | nil => cases found
  | cons c t ih =>
    rw [literalFrom?] at found
    split at found
    · rename_i plain
      obtain ⟨rfl, rfl⟩ := Prod.mk.inj (Option.some.inj found)
      obtain rfl : c = '"' := by
        cases m with
        | plain => exact absurd rfl inside
        | quoted =>
          by_contra other
          simp only [Mode.after, if_neg other] at plain
          split at plain
          · cases plain
          · cases plain
        | escaped => cases plain
      exact ⟨rfl, plain⟩
    · rename_i goesOn
      have prepended : prependFound c (literalFrom? (m.after c) t) = some (contents, rest) := found
      obtain ⟨contents', later, rfl⟩ := exists_of_prependFound prepended
      obtain ⟨rfl, plain⟩ := ih goesOn later
      exact ⟨rfl, plain⟩

/-- What an open parenthesis encloses ends outside literals, in front of one that closes it. -/
theorem exists_of_closingFrom? {depth : Nat} {m : Mode} {t inner rest : Text}
    (found : closingFrom? depth m t = some (inner, rest)) :
    t = inner ++ ')' :: rest ∧ m.across inner = .plain := by
  induction t generalizing depth m inner with
  | nil => cases found
  | cons c t ih =>
    have passed : ∀ {depth : Nat},
        prependFound c (closingFrom? depth (m.after c) t) = some (inner, rest) →
        c :: t = inner ++ ')' :: rest ∧ m.across inner = .plain := by
      intro depth prepended
      obtain ⟨inner', later, rfl⟩ := exists_of_prependFound prepended
      obtain ⟨rfl, plain⟩ := ih later
      exact ⟨rfl, plain⟩
    simp only [closingFrom?] at found
    split at found
    · exact passed found
    · split at found
      · rename_i closes
        cases depth with
        | zero =>
          obtain ⟨rfl, rfl⟩ := Prod.mk.inj (Option.some.inj found)
          exact ⟨by rw [closes.2]; rfl, closes.1⟩
        | succ depth => exact passed found
      · exact passed found

/-- A text that is unwrapped stands in parentheses of which the one is closed by the other. -/
theorem exists_of_unwrapped? {t inner : Text} (found : unwrapped? t = some inner) :
    t = '(' :: (inner ++ [')']) ∧ closing? (inner ++ [')']) = some (inner, []) := by
  rw [unwrapped?.eq_def] at found
  split at found
  · split at found
    · rename_i closed
      cases found
      obtain ⟨rfl, -⟩ := exists_of_closingFrom? closed
      exact ⟨rfl, closed⟩
    · cases found
  · cases found

theorem isInfix_of_unwrapped? {t inner : Text} (found : unwrapped? t = some inner) :
    inner <:+: t :=
  ⟨['('], [')'], (exists_of_unwrapped? found).1.symm⟩

/-- An operator that splits a text stands outside literals. -/
theorem exists_of_splitFrom? {operator : Text} {words : Bool} {depth skip : Nat} {m : Mode}
    {before : Option Char} {t left right : Text}
    (found : splitFrom? operator words depth skip m before t = some (left, right)) :
    ∃ rest, t = left ++ rest ∧ m.across left = .plain
      ∧ afterOperator? operator words (lastFrom before left) rest = some right := by
  induction t generalizing depth skip m before left with
  | nil => cases found
  | cons c t ih =>
    have passed : ∀ {depth skip : Nat},
        prependFound c (splitFrom? operator words depth skip (m.after c) (some c) t)
          = some (left, right) →
        ∃ rest, c :: t = left ++ rest ∧ m.across left = .plain
          ∧ afterOperator? operator words (lastFrom before left) rest = some right := by
      intro depth skip prepended
      obtain ⟨left', later, rfl⟩ := exists_of_prependFound prepended
      obtain ⟨rest, rfl, plain, after⟩ := ih later
      exact ⟨rest, rfl, plain, after⟩
    cases skip with
    | succ skip =>
      rw [splitFrom?] at found
      exact passed found
    | zero =>
      rw [splitFrom?] at found
      split at found
      · rename_i plain
        -- quotes, keywords, and what else opens or closes something are passed
        iterate 5
          split at found
          · exact passed found
        split at found
        · split at found
          · rename_i rest after
            obtain ⟨rfl, rfl⟩ := Prod.mk.inj (Option.some.inj found)
            exact ⟨c :: t, rfl, plain, after⟩
          · exact passed found
        · exact passed found
      · exact passed found

end Text

/-! ### References -/

/-- A reference to a field behind the alias of a relation. -/
structure Qualified where
  table : Text
  name : Text
  table_isName : IsName table
  name_isName : IsName name

namespace Qualified

variable (r : Qualified)

/-- The reference as it is written. -/
def text : Text :=
  '\x7b' :: (r.table ++ '.' :: (r.name ++ ['\x7d']))

theorem chars_text {c : Char} (mem : c ∈ r.text) :
    isWord c = true ∨ c = '\x7b' ∨ c = '.' ∨ c = '\x7d' := by
  simp only [text, List.mem_cons, List.mem_append, List.not_mem_nil, or_false] at mem
  rcases mem with rfl | mem | rfl | mem | rfl
  · exact .inr (.inl rfl)
  · exact .inl (r.table_isName.2 c mem)
  · exact .inr (.inr (.inl rfl))
  · exact .inl (r.name_isName.2 c mem)
  · exact .inr (.inr (.inr rfl))

theorem not_mem_text {c : Char} (other : isWord c = false)
    (mark : c ≠ '\x7b' ∧ c ≠ '.' ∧ c ≠ '\x7d') : c ∉ r.text := by
  intro mem
  rcases r.chars_text mem with word | same | same | same
  · rw [other] at word
    cases word
  · exact mark.1 same
  · exact mark.2.1 same
  · exact mark.2.2 same

theorem quote_not_mem_text : '"' ∉ r.text :=
  r.not_mem_text rfl (by decide)

theorem isBlank_of_mem_text {c : Char} (mem : c ∈ r.text) : isBlank c = false := by
  cases blank : isBlank c with
  | false => rfl
  | true =>
    refine absurd mem (r.not_mem_text (isWord_of_isBlank blank) ⟨?_, ?_, ?_⟩)
    all_goals
      rintro rfl
      cases blank

theorem text_eq_concat : ∃ front, r.text = front ++ ['\x7d'] :=
  ⟨'\x7b' :: (r.table ++ '.' :: r.name), by simp [text]⟩

/-! ### Mentions -/

/-- The reference stands in a text that is scanned from the mode, outside literals. -/
def MentionedFrom (m : Mode) (t : Text) : Prop :=
  ∃ front back, t = front ++ (r.text ++ back) ∧ m.across front = .plain

/-- The reference stands in the text, outside string literals. -/
def MentionedIn (t : Text) : Prop :=
  r.MentionedFrom .plain t

end Qualified

/-! ### Neutral texts -/

namespace Text

/-- The text holds neither quotes nor braces. -/
def IsNeutral (t : Text) : Prop :=
  ∀ c ∈ t, c ≠ '"' ∧ c ≠ '\x7b' ∧ c ≠ '\x7d'

variable {t x y : Text}

theorem isNeutral_of {p : Char → Bool} (all : ∀ c ∈ t, p c = true)
    (checked : (!p '"' && !p '\x7b' && !p '\x7d') = true) : IsNeutral t := by
  simp only [Bool.and_eq_true, Bool.not_eq_true'] at checked
  intro c mem
  refine ⟨?_, ?_, ?_⟩
  all_goals
    rintro rfl
    rw [all _ mem] at checked
    simp at checked

theorem isNeutral_of_checked
    (checked : (t.all fun c => c != '"' && c != '\x7b' && c != '\x7d') = true) : IsNeutral t :=
  isNeutral_of (List.all_eq_true.1 checked) rfl

theorem isNeutral_of_blank (blank : ∀ c ∈ t, isBlank c = true) : IsNeutral t :=
  isNeutral_of blank rfl

theorem IsName.isNeutral (name : IsName t) : IsNeutral t :=
  isNeutral_of name.2 rfl

theorem IsNeutral.append (front : IsNeutral x) (back : IsNeutral y) : IsNeutral (x ++ y) :=
  List.forall_mem_append.2 ⟨front, back⟩

theorem IsNeutral.cons {c : Char} (other : c ≠ '"' ∧ c ≠ '\x7b' ∧ c ≠ '\x7d') (back : IsNeutral y) :
    IsNeutral (c :: y) :=
  List.forall_mem_cons.2 ⟨other, back⟩

theorem IsNeutral.reverse (neutral : IsNeutral t) : IsNeutral t.reverse :=
  fun c mem => neutral c (List.mem_reverse.1 mem)

theorem IsNeutral.of_agree {ignoreCase : Bool} (neutral : IsNeutral x)
    (agrees : List.Forall₂ (fun a b => agree ignoreCase a b = true) x y) : IsNeutral y := by
  intro c mem
  refine ⟨?_, ?_, ?_⟩
  all_goals
    rintro rfl
    have same := neutral _ ((mem_iff_of_agree rfl agrees).1 mem)
    simp at same

theorem IsNeutral.unquoted (neutral : IsNeutral t) : '"' ∉ t :=
  fun mem => (neutral _ mem).1 rfl

theorem IsNeutral.unopened (neutral : IsNeutral t) : '\x7b' ∉ t :=
  fun mem => (neutral _ mem).2.1 rfl

theorem IsNeutral.unclosed (neutral : IsNeutral t) : '\x7d' ∉ t :=
  fun mem => (neutral _ mem).2.2 rfl

end Text

/-! ### What does not cut a reference -/

namespace Qualified

variable {r : Qualified} {m : Mode} {x k y t : Text}

theorem MentionedFrom.append (mentioned : r.MentionedFrom m x) (y : Text) :
    r.MentionedFrom m (x ++ y) := by
  obtain ⟨front, back, rfl, plain⟩ := mentioned
  exact ⟨front, back ++ y, by simp, plain⟩

theorem MentionedFrom.isInfix (mentioned : r.MentionedFrom m t) : r.text <:+: t := by
  obtain ⟨front, back, rfl, -⟩ := mentioned
  exact ⟨front, back, by simp⟩

/-- Nothing is mentioned in a literal that is never closed. -/
theorem MentionedFrom.not_unclosed (mentioned : r.MentionedFrom m t) : ¬ Unclosed m t := by
  obtain ⟨front, back, rfl, plain⟩ := mentioned
  exact fun unclosed => unclosed.across.1 plain

/-- What is mentioned ahead stands outside literals there. -/
theorem MentionedFrom.of_settled (mentioned : r.MentionedFrom m t) (settled : Settled m t) :
    r.MentionedIn t := by
  rcases settled with rfl | unclosed
  · exact mentioned
  · exact absurd unclosed mentioned.not_unclosed

/-- A text is dropped that no reference can start in. -/
theorem MentionedFrom.of_append (mentioned : r.MentionedFrom m (k ++ y)) (unopened : '\x7b' ∉ k) :
    r.MentionedFrom (m.across k) y := by
  obtain ⟨front, back, split, plain⟩ := mentioned
  rcases List.append_eq_append_iff.1 split with ⟨between, rfl, rfl⟩ | ⟨between, rfl, same⟩
  · exact ⟨between, back, rfl, by simpa using plain⟩
  · cases between with
    | nil => exact ⟨[], back, same.symm, by simpa using plain⟩
    | cons c between =>
      obtain ⟨rfl, -⟩ := List.cons.inj same
      exact absurd (List.mem_append_right front (List.mem_cons_self ..)) unopened

/-- A text is dropped that no reference can end in. -/
theorem MentionedFrom.of_concat (mentioned : r.MentionedFrom m (x ++ k)) (unclosed : '\x7d' ∉ k) :
    r.MentionedFrom m x := by
  obtain ⟨start, last⟩ := r.text_eq_concat
  obtain ⟨front, back, split, plain⟩ := mentioned
  have regrouped : x ++ k = front ++ start ++ '\x7d' :: back := by simp [split, last]
  rcases List.append_eq_append_iff.1 regrouped with ⟨between, -, same⟩ | ⟨between, rfl, same⟩
  · exact absurd (by simp [same]) unclosed
  · cases between with
    | nil =>
      have starts : '\x7d' :: back = k := same
      exact absurd (starts ▸ List.mem_cons_self ..) unclosed
    | cons d between =>
      obtain ⟨rfl, -⟩ := List.cons.inj same
      exact ⟨front, between, by simp [last], plain⟩

/-- A character that is none of the reference stands before or behind it. -/
theorem split_at {front back : Text} {c : Char} (split : x ++ c :: y = front ++ (r.text ++ back))
    (other : c ∉ r.text) :
    (∃ rest, x = front ++ (r.text ++ rest))
      ∨ ∃ between, front = x ++ c :: between ∧ y = between ++ (r.text ++ back) := by
  rcases List.append_eq_append_iff.1 split with ⟨between, rfl, later⟩ | ⟨between, rfl, across⟩
  · cases between with
    | nil =>
      obtain ⟨rfl, -⟩ := List.cons.inj later
      exact absurd (List.mem_cons_self ..) other
    | cons d between =>
      obtain ⟨rfl, rfl⟩ := List.cons.inj later
      exact .inr ⟨between, rfl, rfl⟩
  · rcases List.append_eq_append_iff.1 across with ⟨rest, rfl, -⟩ | ⟨rest, reference, same⟩
    · exact .inl ⟨rest, rfl⟩
    · cases rest with
      | nil => exact .inl ⟨[], by simp [reference]⟩
      | cons d rest =>
        obtain ⟨rfl, -⟩ := List.cons.inj same
        exact absurd (reference ▸ by simp) other

/-- A character that is none of the reference does not cut it. -/
theorem MentionedFrom.cut_at {c : Char} (mentioned : r.MentionedFrom m (x ++ c :: y))
    (other : c ∉ r.text) : r.MentionedFrom m x ∨ r.MentionedFrom ((m.across x).after c) y := by
  obtain ⟨front, back, split, plain⟩ := mentioned
  rcases split_at split other with ⟨rest, rfl⟩ | ⟨between, rfl, rfl⟩
  · exact .inl ⟨front, rest, rfl, plain⟩
  · exact .inr ⟨between, back, rfl, by simpa using plain⟩

theorem isInfix_cut {c : Char} (inside : r.text <:+: x ++ c :: y) (other : c ∉ r.text) :
    r.text <:+: x ∨ r.text <:+: y := by
  obtain ⟨front, back, split⟩ := inside
  rw [List.append_assoc] at split
  rcases split_at split.symm other with ⟨rest, rfl⟩ | ⟨between, rfl, rfl⟩
  · exact .inl ⟨front, rest, List.append_assoc ..⟩
  · exact .inr ⟨between, back, List.append_assoc ..⟩

/-- **A neutral text does not cut a reference**, if it holds a character that is none of the
reference: what was mentioned stands before or behind it. -/
theorem MentionedFrom.cut (mentioned : r.MentionedFrom m (x ++ (k ++ y))) (neutral : IsNeutral k)
    {c : Char} (mem : c ∈ k) (other : c ∉ r.text) :
    r.MentionedFrom m x ∨ r.MentionedFrom (m.across (x ++ k)) y := by
  obtain ⟨k, k', rfl⟩ := List.append_of_mem mem
  have regrouped : x ++ (k ++ c :: k' ++ y) = x ++ k ++ c :: (k' ++ y) := by simp
  rw [regrouped] at mentioned
  rcases mentioned.cut_at other with before | behind
  · exact .inl (before.of_concat fun closes => neutral.unclosed (List.mem_append_left _ closes))
  · refine .inr ?_
    have rest := behind.of_append fun opens =>
      neutral.unopened (List.mem_append_right k (List.mem_cons_of_mem c opens))
    simpa using rest

theorem MentionedIn.of_append (mentioned : r.MentionedIn (k ++ y)) (neutral : IsNeutral k) :
    r.MentionedIn y := by
  have behind := MentionedFrom.of_append mentioned neutral.unopened
  rwa [Mode.across_unquoted neutral.unquoted] at behind

theorem MentionedIn.of_concat (mentioned : r.MentionedIn (x ++ k)) (neutral : IsNeutral k) :
    r.MentionedIn x :=
  MentionedFrom.of_concat mentioned neutral.unclosed

theorem not_isNeutral_of_isInfix (inside : r.text <:+: t) : ¬ IsNeutral t :=
  fun neutral => neutral.unopened (inside.subset (List.mem_cons_self ..))

theorem MentionedIn.not_isNeutral (mentioned : r.MentionedIn t) : ¬ IsNeutral t :=
  not_isNeutral_of_isInfix mentioned.isInfix

/-! ### Blanks -/

theorem MentionedIn.trimStart (mentioned : r.MentionedIn t) : r.MentionedIn (trimStart t) := by
  have blank : ∀ c ∈ t.takeWhile isBlank, isBlank c = true := fun c => List.mem_takeWhile_imp
  have split : t.takeWhile isBlank ++ Text.trimStart t = t := List.takeWhile_append_dropWhile
  rw [← split] at mentioned
  exact mentioned.of_append (isNeutral_of_blank blank)

theorem MentionedIn.trimEnd (mentioned : r.MentionedIn t) : r.MentionedIn (trimEnd t) := by
  have blank : ∀ c ∈ t.reverse.takeWhile isBlank, isBlank c = true :=
    fun c => List.mem_takeWhile_imp
  have split : Text.trimEnd t ++ (t.reverse.takeWhile isBlank).reverse = t := by
    rw [Text.trimEnd, ← List.reverse_append, List.takeWhile_append_dropWhile, List.reverse_reverse]
  rw [← split] at mentioned
  exact mentioned.of_concat (isNeutral_of_blank blank).reverse

/-- Trimming takes no reference away. -/
theorem MentionedIn.trim (mentioned : r.MentionedIn t) : r.MentionedIn t.trim :=
  mentioned.trimStart.trimEnd

theorem MentionedIn.isEmpty_eq_false (mentioned : r.MentionedIn t) : t.isEmpty = false := by
  obtain ⟨front, back, rfl, -⟩ := mentioned
  simp [text]

/-- The flattening of blanks leaves references as they are. -/
theorem MentionedIn.flattenBlanks (mentioned : r.MentionedIn t) :
    r.MentionedIn (flattenBlanks t) := by
  obtain ⟨front, back, rfl, plain⟩ := mentioned
  refine ⟨flattenBlanksFrom .plain front, flattenBlanksFrom (Mode.plain.across (front ++ r.text))
    back, ?_, by rwa [across_flattenBlanksFrom]⟩
  rw [Text.flattenBlanks, flattenBlanksFrom_append, flattenBlanksFrom_append,
    flattenBlanksFrom_of_not_isBlank fun c => r.isBlank_of_mem_text, Mode.across_append]

/-! ### Parentheses -/

/-- What is mentioned behind an open parenthesis stands before or behind the one that closes it. -/
theorem MentionedIn.closing? {inner rest : Text} (mentioned : r.MentionedIn t)
    (found : closing? t = some (inner, rest)) : r.MentionedIn inner ∨ r.MentionedIn rest := by
  obtain ⟨rfl, plain⟩ := exists_of_closingFrom? found
  rcases mentioned.cut_at (r.not_mem_text rfl (by decide)) with inside | behind
  · exact .inl inside
  · rw [plain, after_plain_of_ne (by decide)] at behind
    exact .inr behind

theorem MentionedIn.unwrapped? {inner : Text} (mentioned : r.MentionedIn t)
    (found : unwrapped? t = some inner) : r.MentionedIn inner := by
  obtain ⟨rfl, closed⟩ := exists_of_unwrapped? found
  have behind : r.MentionedIn (inner ++ [')']) :=
    mentioned.of_append (k := ['(']) (isNeutral_of_checked rfl)
  rcases behind.closing? closed with inside | nothing
  · exact inside
  · cases nothing.isEmpty_eq_false

end Qualified

end RecordMapper
