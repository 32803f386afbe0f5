import RecordMapper.Proofs.Text.Words
import RecordMapper.Value.Printing

/-!
Balanced texts, and the scans that pass over them.

A text is balanced if its literals, parentheses, braces and case distinctions are closed, and no
other keyword of case distinctions stands in it on its own. A `Scan` is what the scans of a text
have in common: it reads character by character, keeps a depth, and looks at the character before.
It is lawful if it treats literals as a whole, and if whatever a parenthesis, a brace or `CASE` does
to its depth is undone by what closes them. **A lawful scan passes over balanced text**
(`Scan.Lawful.reads_balanced`): at its end, the scan stands where it stood.
-/

namespace RecordMapper.Text

/-! ### Balanced texts -/

/-- The characters that stand between words, references and spans. -/
def glueChars : List Char :=
  [' ', ',', '+', '-', '*', '/', '%', '^', '<', '>', '=']

/-- What holds of all characters between words can be checked. -/
theorem of_mem_glueChars {p : Char → Bool} (checked : glueChars.all p = true) {c : Char}
    (mem : c ∈ glueChars) : p c = true :=
  List.all_eq_true.1 checked c mem

/-- The text between the braces of a field reference: a word, perhaps behind another and a point. -/
def IsReference (t : Text) : Prop :=
  IsAsciiWord t ∨ ∃ table name, IsAsciiWord table ∧ IsAsciiWord name ∧ t = table ++ '.' :: name

theorem isReference_singleton {c : Char} (word : isAsciiWord c = true) : IsReference [c] :=
  .inl ⟨List.cons_ne_nil c [], List.forall_mem_singleton.2 word⟩

/-- Everything that is opened in the text is closed in it, and there are no keywords of case
distinctions but those of the ones in it. -/
inductive Balanced : Text → Prop
  | nil : Balanced []
  | word {w : Text} (word : IsAsciiWord w) (other : ¬ IsKeyword w) : Balanced w
  | field {t : Text} (reference : IsReference t) : Balanced ('\x7b' :: (t ++ ['\x7d']))
  | literal (t : Text) : Balanced ('"' :: (escapeQuoted t ++ ['"']))
  | call {name inner : Text} (word : IsAsciiWord name) (other : ¬ IsKeyword name)
    (balanced : Balanced inner) : Balanced (name ++ '(' :: (inner ++ [')']))
  | group {inner : Text} (balanced : Balanced inner) : Balanced ('(' :: (inner ++ [')']))
  | case {body : Text} (balanced : Balanced body) :
    Balanced (caseKeyword ++ ' ' :: (body ++ ' ' :: endKeyword))
  | join {x glue y : Text} (front : Balanced x) (nonempty : glue ≠ [])
    (glued : ∀ c ∈ glue, c ∈ glueChars) (back : Balanced y) : Balanced (x ++ glue ++ y)

/-! ### Scans -/

/-- A scan: what it finds in a text, from a depth and the character before, and what its results
are with a character in front. -/
structure Scan (ρ : Type) where
  read : (depth : Nat) → (before : Option Char) → Text → ρ
  prepend : Char → ρ → ρ
  /-- The depth behind an open parenthesis, an open brace and the word `CASE`. -/
  inParens : Nat → Nat
  inBraces : Nat → Nat
  inCase : Nat → Nat

/-- The last character of a text, or the one before it if it is empty. -/
def lastFrom (before : Option Char) (t : Text) : Option Char :=
  t.foldl (fun _ c => some c) before

theorem lastFrom_append (before : Option Char) (x y : Text) :
    lastFrom before (x ++ y) = lastFrom (lastFrom before x) y :=
  List.foldl_append

@[simp] theorem lastFrom_concat (before : Option Char) (x : Text) (c : Char) :
    lastFrom before (x ++ [c]) = some c := by
  simp [lastFrom]

theorem lastFrom_enclosed (before : Option Char) (opening closing : Char) (contents x : Text) :
    lastFrom before (opening :: (contents ++ closing :: x)) = lastFrom (some closing) x := by
  simp [lastFrom]

/-- In front of the rest, the scan reads `x` as it stands and gets to another depth. -/
def Scan.Reads {ρ : Type} (s : Scan ρ) (depth : Nat) (before : Option Char) (x : Text)
    (depth' : Nat) (rest : Text) : Prop :=
  s.read depth before (x ++ rest) = x.foldr s.prepend (s.read depth' (lastFrom before x) rest)

/-- A word character, a character between words or the point in a field reference. -/
def IsInert (c : Char) : Prop :=
  isAsciiWord c = true ∨ c ∈ glueChars ∨ c = '.'

/-- The scan takes characters one by one, literals as a whole, and undoes at each close what it did
where that was opened. -/
structure Scan.Lawful {ρ : Type} (s : Scan ρ) : Prop where
  inert : ∀ depth before {c : Char} rest, IsInert c →
    startsKeyword caseKeyword before (c :: rest) = false →
    startsKeyword endKeyword before (c :: rest) = false → s.Reads depth before [c] depth rest
  literal : ∀ depth before t rest,
    s.Reads depth before ('"' :: (escapeQuoted t ++ ['"'])) depth rest
  openParens : ∀ depth before rest, s.Reads depth before ['('] (s.inParens depth) rest
  closeParens : ∀ depth before rest, s.Reads (s.inParens depth) before [')'] depth rest
  openBraces : ∀ depth before rest, s.Reads depth before ['\x7b'] (s.inBraces depth) rest
  closeBraces : ∀ depth before rest, s.Reads (s.inBraces depth) before ['\x7d'] depth rest
  openCase : ∀ depth before rest, ClearBefore before → ClearBehind rest →
    s.Reads depth before caseKeyword (s.inCase depth) rest
  closeCase : ∀ depth before rest, ClearBefore before → ClearBehind rest →
    s.Reads (s.inCase depth) before endKeyword depth rest

section Reading

variable {ρ : Type} {s : Scan ρ} {depth depth' depth'' : Nat} {before : Option Char}

theorem Scan.Reads.nil (rest : Text) : s.Reads depth before [] depth rest :=
  rfl

/-- Two texts are read one after the other. -/
theorem Scan.Reads.append {x y rest : Text} (first : s.Reads depth before x depth' (y ++ rest))
    (second : s.Reads depth' (lastFrom before x) y depth'' rest) :
    s.Reads depth before (x ++ y) depth'' rest := by
  unfold Scan.Reads at first second ⊢
  rw [List.append_assoc, first, second, List.foldr_append, lastFrom_append]

theorem Scan.Reads.cons {c : Char} {x rest : Text}
    (first : s.Reads depth before [c] depth' (x ++ rest))
    (second : s.Reads depth' (some c) x depth'' rest) :
    s.Reads depth before (c :: x) depth'' rest :=
  first.append second

/-- A text whose characters are each read by themselves is read. -/
theorem Scan.Reads.of_each {x : Text}
    (each : ∀ c ∈ x, ∀ before rest, s.Reads depth before [c] depth rest) (rest : Text) :
    s.Reads depth before x depth rest := by
  induction x generalizing before with
  | nil => exact .nil rest
  | cons c x ih =>
    exact .cons (each c (List.mem_cons_self ..) before _)
      (ih fun d mem => each d (List.mem_cons_of_mem _ mem))

theorem letters_caseKeyword : ∀ a ∈ caseKeyword, a.isAlpha = true := by
  simp [caseKeyword]

theorem letters_endKeyword : ∀ a ∈ endKeyword, a.isAlpha = true := by
  simp [endKeyword]

namespace Scan.Lawful

variable (lawful : s.Lawful)
include lawful

/-- A character that is not part of a word is read by itself: no keyword starts with it. -/
theorem reads_other {c : Char} (inert : IsInert c) (other : isAsciiWord c = false) (rest : Text) :
    s.Reads depth before [c] depth rest :=
  lawful.inert depth before rest inert
    (startsKeyword_cons_of_not_isAlpha (by simp [caseKeyword]) letters_caseKeyword
      (not_isAlpha_of_not_word other) rest)
    (startsKeyword_cons_of_not_isAlpha (by simp [endKeyword]) letters_endKeyword
      (not_isAlpha_of_not_word other) rest)

theorem reads_glue {glue : Text} (glued : ∀ c ∈ glue, c ∈ glueChars) (rest : Text) :
    s.Reads depth before glue depth rest := by
  refine .of_each (fun c mem before rest => ?_) rest
  have other : isAsciiWord c = false := by
    simpa using of_mem_glueChars (p := fun d => !isAsciiWord d) rfl (glued c mem)
  exact lawful.reads_other (.inr (.inl (glued c mem))) other rest

/-- The rest of a word is read: keywords stand neither behind word characters nor behind open
braces. -/
theorem reads_of_touching {w : Text} (word : ∀ c ∈ w, isAsciiWord c = true) {b : Char}
    (touching : mayPrecedeKeyword b = false) (rest : Text) :
    s.Reads depth (some b) w depth rest := by
  induction w generalizing b with
  | nil => exact .nil rest
  | cons c w ih =>
    have letter := word c (List.mem_cons_self ..)
    have first := lawful.inert depth (some b) (w ++ rest) (.inl letter)
      (startsKeyword_of_touching touching _) (startsKeyword_of_touching touching _)
    exact .cons first (ih (fun d mem => word d (List.mem_cons_of_mem _ mem))
      (by simp [mayPrecedeKeyword, letter]))

/-- A word is read, if no keyword stands on its own at its start. -/
theorem reads_word_of_not_starts {w rest : Text} (word : IsAsciiWord w)
    (noCase : startsKeyword caseKeyword before (w ++ rest) = false)
    (noEnd : startsKeyword endKeyword before (w ++ rest) = false) :
    s.Reads depth before w depth rest := by
  obtain ⟨nonempty, all⟩ := word
  obtain ⟨c, w, rfl⟩ := List.exists_cons_of_ne_nil nonempty
  have letter := all c (List.mem_cons_self ..)
  have touching : mayPrecedeKeyword c = false := by simp [mayPrecedeKeyword, letter]
  exact .cons (lawful.inert depth before (w ++ rest) (.inl letter) noCase noEnd)
    (lawful.reads_of_touching (fun d mem => all d (List.mem_cons_of_mem _ mem)) touching rest)

/-- A word that is no keyword is read, if the rest does not go on with it. -/
theorem reads_word {w : Text} (word : IsAsciiWord w) (other : ¬ IsKeyword w) {rest : Text}
    (behind : ∀ c ∈ rest.head?, isAsciiWord c = false) : s.Reads depth before w depth rest :=
  lawful.reads_word_of_not_starts word
    (startsKeyword_append_of_word letters_caseKeyword word behind
      fun same => absurd (.inl same) other)
    (startsKeyword_append_of_word letters_endKeyword word behind
      fun same => absurd (.inr same) other)

/-- A word in front of a closing brace is read, also if it is a keyword. -/
theorem reads_word_in_braces {w : Text} (word : IsAsciiWord w) (rest : Text) :
    s.Reads depth before w depth ('\x7d' :: rest) := by
  have behind : ∀ c ∈ ('\x7d' :: rest : Text).head?, isAsciiWord c = false := by
    rintro c ⟨⟩
    rfl
  have touching : standsAlone before ('\x7d' :: rest : Text).head? = false := by
    simp [standsAlone, mayFollowKeyword]
  exact lawful.reads_word_of_not_starts word
    (startsKeyword_append_of_word letters_caseKeyword word behind fun _ => touching)
    (startsKeyword_append_of_word letters_endKeyword word behind fun _ => touching)

theorem reads_reference {t : Text} (reference : IsReference t) (rest : Text) :
    s.Reads depth (some '\x7b') t depth ('\x7d' :: rest) := by
  rcases reference with word | ⟨table, name, table_word, name_word, rfl⟩
  · exact lawful.reads_of_touching word.2 rfl _
  · exact .append (lawful.reads_of_touching table_word.2 rfl _)
      (.cons (lawful.reads_other (.inr (.inr rfl)) rfl _)
        (lawful.reads_word_in_braces name_word rest))

/-- Parentheses are passed if what stands in them is. -/
theorem reads_group {inner rest : Text}
    (passed : s.Reads (s.inParens depth) (some '(') inner (s.inParens depth) (')' :: rest)) :
    s.Reads depth before ('(' :: (inner ++ [')'])) depth rest :=
  .cons (lawful.openParens depth before _) (.append passed (lawful.closeParens depth _ rest))

/-- **A lawful scan passes over balanced text**, if keywords may stand on both sides of it. -/
theorem reads_balanced {x : Text} (balanced : Balanced x) (clear : ClearBefore before)
    {rest : Text} (behind : ClearBehind rest) : s.Reads depth before x depth rest := by
  induction balanced generalizing depth before rest with
  | nil => exact .nil rest
  | word word other => exact lawful.reads_word word other behind.not_isAsciiWord
  | field reference =>
    exact .cons (lawful.openBraces depth before _)
      (.append (lawful.reads_reference reference rest) (lawful.closeBraces depth _ rest))
  | literal t => exact lawful.literal depth before t rest
  | call word other _ ih =>
    refine .append (lawful.reads_word word other ?_) (lawful.reads_group ?_)
    · rintro c ⟨⟩
      rfl
    · exact ih (clearBefore_some rfl) (clearBehind_cons rfl _)
  | group _ ih => exact lawful.reads_group (ih (clearBefore_some rfl) (clearBehind_cons rfl _))
  | case _ ih =>
    have space : ∀ {before : Option Char} (rest : Text),
        s.Reads (s.inCase depth) before [' '] (s.inCase depth) rest :=
      lawful.reads_other (.inr (.inl (List.mem_cons_self ..))) rfl
    refine .append (lawful.openCase depth before _ clear (clearBehind_cons rfl _)) ?_
    refine .cons (space _) (.append ?_ (.cons (space _) ?_))
    · exact ih (clearBefore_some rfl) (clearBehind_cons rfl _)
    · exact lawful.closeCase depth _ rest (clearBefore_some rfl) behind
  | @join x glue y _ nonempty glued _ ihx ihy =>
    have between : ClearBehind (glue ++ (y ++ rest)) := by
      obtain ⟨c, glue, rfl⟩ := List.exists_cons_of_ne_nil nonempty
      exact clearBehind_cons (of_mem_glueChars (p := mayFollowKeyword) rfl
        (glued c (List.mem_cons_self ..))) _
    have touched : ClearBefore (lastFrom before (x ++ glue)) := by
      obtain ⟨glue, c, rfl⟩ := (List.eq_nil_or_concat glue).resolve_left nonempty
      rw [List.concat_eq_append, ← List.append_assoc, lastFrom_append]
      exact clearBefore_some (of_mem_glueChars (p := mayPrecedeKeyword) rfl (glued c (by simp)))
    rw [List.append_assoc]
    refine .append (ihx clear ?_) (.append (lawful.reads_glue glued _) ?_)
    · rw [List.append_assoc]
      exact between
    · rw [← lastFrom_append]
      exact ihy touched behind

end Scan.Lawful

end Reading

end RecordMapper.Text
