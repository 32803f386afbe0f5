import RecordMapper.Proofs.Text.Basic
import RecordMapper.Text.Scan

/-!
Words, and the keywords that stand on their own among them.

A word of ASCII word characters is one of the two keywords or holds none: a keyword inside a longer
word touches a word character. The lemmas look at a keyword at the start of a text, as the scans do
(`startsKeyword_append_of_word`), and at the end of a text that was read, as the tokenizer does
(`not_standsAlone_of_word`). Names consist of word characters of any script.
-/

namespace RecordMapper.Text

/-! ### Characters and words -/

/-- A character of one byte. -/
def IsAscii (c : Char) : Prop :=
  c.toNat < 128

instance (c : Char) : Decidable (IsAscii c) :=
  inferInstanceAs (Decidable (c.toNat < 128))

/-- What holds of all ASCII characters can be checked. -/
theorem forall_isAscii {p : Char → Bool}
    (checked : ((List.range 128).all fun n => p (Char.ofNat n)) = true) {c : Char}
    (ascii : IsAscii c) : p c = true := by
  have found := List.all_eq_true.1 checked c.toNat (List.mem_range.2 ascii)
  rwa [Char.ofNat_toNat] at found

theorem isAlpha_iff {c : Char} :
    c.isAlpha = true ↔ 65 ≤ c.toNat ∧ c.toNat ≤ 90 ∨ 97 ≤ c.toNat ∧ c.toNat ≤ 122 := by
  have unfolded : c.isAlpha = (decide (c.val ≥ 'A'.val ∧ c.val ≤ 'Z'.val)
      || (decide (c.val ≥ 'a'.val) && decide (c.val ≤ 'z'.val))) := rfl
  rw [unfolded, Bool.or_eq_true, Bool.and_eq_true, decide_eq_true_eq, decide_eq_true_eq,
    decide_eq_true_eq]
  exact Iff.rfl

theorem range_of_isAsciiWord {c : Char} (word : isAsciiWord c = true) :
    48 ≤ c.toNat ∧ c.toNat ≤ 122 := by
  simp only [isAsciiWord, Char.isAlphanum, Bool.or_eq_true, beq_iff_eq, isAlpha_iff,
    Char.isDigit_iff_toNat] at word
  have zero : '0'.toNat = 48 := rfl
  have nine : '9'.toNat = 57 := rfl
  rcases word with ((_ | _) | _) | rfl
  · omega
  · omega
  · omega
  · decide

theorem isAscii_of_isAsciiWord {c : Char} (word : isAsciiWord c = true) : IsAscii c := by
  have range := range_of_isAsciiWord word
  show c.toNat < 128
  omega

/-- What holds of all word characters can be checked. -/
theorem forall_isAsciiWord {p : Char → Bool}
    (checked : ((List.range 128).all fun n =>
      !isAsciiWord (Char.ofNat n) || p (Char.ofNat n)) = true) {c : Char}
    (word : isAsciiWord c = true) : p c = true := by
  have found := forall_isAscii (p := fun c => !isAsciiWord c || p c) checked
    (isAscii_of_isAsciiWord word)
  simpa [word] using found

theorem isBlank_of_isAsciiWord {c : Char} (word : isAsciiWord c = true) : isBlank c = false := by
  have checked := forall_isAsciiWord (p := fun c => !isBlank c) rfl word
  simpa using checked

theorem not_isAlpha_of_isBlank {c : Char} (blank : isBlank c = true) : c.isAlpha = false := by
  rw [← Bool.not_eq_true]
  intro letter
  have word : isAsciiWord c = true := by simp [isAsciiWord, Char.isAlphanum, letter]
  rw [isBlank_of_isAsciiWord word] at blank
  cases blank

theorem isAsciiBlank_of_isAsciiWord {c : Char} (word : isAsciiWord c = true) :
    isAsciiBlank c = false := by
  have checked := forall_isAsciiWord (p := fun c => !isAsciiBlank c) rfl word
  simpa using checked

theorem isBlank_of_isAsciiBlank {c : Char} (blank : isAsciiBlank c = true) : isBlank c = true := by
  simp only [isAsciiBlank, Bool.or_eq_true, beq_iff_eq] at blank
  rcases blank with (((rfl | rfl) | rfl) | rfl) | rfl
  all_goals rfl

/-- Only letters have another case. -/
theorem toLower_eq_or (c : Char) : c.toLower = c ∨ c.isAlpha = true ∧ c.toLower.isAlpha = true := by
  by_cases ascii : IsAscii c
  · have checked := forall_isAscii
      (p := fun c => c.toLower == c || c.isAlpha && c.toLower.isAlpha) rfl ascii
    simpa using checked
  · left
    unfold Char.toLower
    rw [dif_neg]
    rintro ⟨-, small⟩
    have bound : c.toNat ≤ 90 := small
    exact ascii (show c.toNat < 128 by omega)

theorem agree_comm (ignoreCase : Bool) (a b : Char) :
    agree ignoreCase a b = agree ignoreCase b a := by
  unfold agree
  rw [Bool.beq_comm, Bool.beq_comm (a := a)]

/-- Characters that agree with each other agree with the same characters. -/
theorem agree_congr {b c : Char} (same : agree true b c = true) (a : Char) :
    agree true a b = agree true a c := by
  simp only [agree, if_true, beq_iff_eq] at same ⊢
  rw [same]

/-- What disagrees with a text does so in any letter case. -/
theorem diverges_congr {whole : Bool} {start x y : Text}
    (all : List.Forall₂ (fun a b => agree true a b = true) x y) :
    diverges whole true start x = diverges whole true start y := by
  induction all generalizing start with
  | nil => rfl
  | cons same _ ih =>
    cases start with
    | nil => rfl
    | cons a start => rw [diverges, diverges, agree_congr same, ih]

/-- Texts that differ in the case of letters only are the same words. -/
theorem sameLetters_congr {x y : Text} (spelled : sameLetters x y = true) (word : Text) :
    sameLetters word x = sameLetters word y := by
  have all := sameLetters_iff.1 spelled
  rw [Bool.eq_iff_iff, sameLetters_iff, sameLetters_iff]
  clear spelled
  induction all generalizing word with
  | nil => rfl
  | cons same _ ih =>
    cases word with
    | nil => simp
    | cons a word => rw [List.forall₂_cons, List.forall₂_cons, agree_congr same, ih]

/-- What is no letter agrees with nothing but itself. -/
theorem eq_of_agree {ignoreCase : Bool} {a b : Char} (other : a.isAlpha = false)
    (same : agree ignoreCase a b = true) : a = b := by
  cases ignoreCase with
  | false => simpa [agree] using same
  | true =>
    have lower : a.toLower = b.toLower := by simpa [agree] using same
    have left : a.toLower = a := by
      rcases toLower_eq_or a with same | ⟨letter, -⟩
      · exact same
      · rw [other] at letter
        cases letter
    rcases toLower_eq_or b with right | ⟨-, letter⟩
    · rw [← left, lower, right]
    · rw [← lower, left, other] at letter
      cases letter

/-- A character that agrees with a letter is a letter. -/
theorem isAlpha_of_agree {a b : Char} (letter : a.isAlpha = true)
    (same : agree true a b = true) : b.isAlpha = true := by
  have lower : a.toLower = b.toLower := by simpa [agree] using same
  rcases toLower_eq_or b with kept | ⟨other, -⟩
  · rw [← kept, ← lower]
    rcases toLower_eq_or a with same | ⟨-, other⟩
    · rw [same]
      exact letter
    · exact other
  · exact other

theorem isAsciiWord_of_agree {a b : Char} (letter : a.isAlpha = true)
    (same : agree true a b = true) : isAsciiWord b = true := by
  simp [isAsciiWord, Char.isAlphanum, isAlpha_of_agree letter same]

/-- What agrees with an ASCII character is one. -/
theorem isAscii_of_agree {ignoreCase : Bool} {a b : Char} (ascii : IsAscii a)
    (same : agree ignoreCase a b = true) : IsAscii b := by
  cases letter : a.isAlpha with
  | false =>
    rw [← eq_of_agree letter same]
    exact ascii
  | true =>
    cases ignoreCase with
    | false =>
      have equal : a = b := by simpa [agree] using same
      exact equal ▸ ascii
    | true => exact isAscii_of_isAsciiWord (isAsciiWord_of_agree letter same)

theorem exists_agree_of_mem {ignoreCase : Bool} {start t : Text}
    (all : List.Forall₂ (fun a b => agree ignoreCase a b = true) start t) {b : Char} (mem : b ∈ t) :
    ∃ a ∈ start, agree ignoreCase a b = true := by
  induction all with
  | nil => cases mem
  | cons same _ ih =>
    rcases List.mem_cons.1 mem with rfl | mem
    · exact ⟨_, List.mem_cons_self .., same⟩
    · obtain ⟨a, mem, same⟩ := ih mem
      exact ⟨a, List.mem_cons_of_mem _ mem, same⟩

/-- What is no letter stands in both of two texts that agree, or in none. -/
theorem mem_iff_of_agree {ignoreCase : Bool} {start t : Text} {d : Char}
    (other : d.isAlpha = false)
    (agrees : List.Forall₂ (fun a b => agree ignoreCase a b = true) start t) :
    d ∈ t ↔ d ∈ start := by
  induction agrees with
  | nil => exact Iff.rfl
  | @cons a b _ _ same _ ih =>
    have first : d = b ↔ d = a := by
      constructor
      · rintro rfl
        rw [agree_comm] at same
        exact eq_of_agree other same
      · rintro rfl
        exact eq_of_agree other same
    rw [List.mem_cons, List.mem_cons, first, ih]

theorem isAsciiWord_of_mem_of_agree {letters t : Text} (alpha : ∀ a ∈ letters, a.isAlpha = true)
    (all : List.Forall₂ (fun a b => agree true a b = true) letters t) :
    ∀ b ∈ t, isAsciiWord b = true := by
  intro b mem
  obtain ⟨a, mem, same⟩ := exists_agree_of_mem all mem
  exact isAsciiWord_of_agree (alpha a mem) same

/-- A character that agrees with an ASCII one is that in lower or in upper case. -/
theorem eq_or_of_agree {a c : Char} (ascii : IsAscii a) (same : agree true a c = true) :
    c = a.toLower ∨ c = a.toLower.toUpper := by
  have checked := forall_isAscii (p := fun c => c == c.toLower || c == c.toLower.toUpper) rfl
    (isAscii_of_agree ascii same)
  rw [eq_of_beq (show (a.toLower == c.toLower) = true from same)]
  simpa using checked

/-- The ways to write a word in lower and upper case. -/
def spellings : Text → List Text
  | [] => [[]]
  | a :: w => (spellings w).flatMap fun k => [a.toLower :: k, a.toLower.toUpper :: k]

/-- What holds of all ways to write a word can be checked. -/
theorem forall_sameLetters {p : Text → Bool} {w : Text} (ascii : ∀ a ∈ w, IsAscii a)
    (checked : (spellings w).all p = true) {k : Text} (spelled : sameLetters w k = true) :
    p k = true := by
  have all := sameLetters_iff.1 spelled
  have mem : k ∈ spellings w := by
    clear spelled checked
    induction all with
    | nil => exact List.mem_singleton_self _
    | cons same _ ih =>
      obtain ⟨first, others⟩ := List.forall_mem_cons.1 ascii
      refine List.mem_flatMap.2 ⟨_, ih others, ?_⟩
      rcases eq_or_of_agree first same with rfl | rfl
      · exact List.mem_cons_self ..
      · exact List.mem_cons_of_mem _ (List.mem_cons_self ..)
  exact List.all_eq_true.1 checked k mem

/-- What does not start a text in any letter case does not start it at all. -/
theorem after?_eq_none_of_ignoreCase {ignoreCase : Bool} {start t : Text}
    (missed : after? true start t = none) : after? ignoreCase start t = none := by
  cases ignoreCase with
  | true => exact missed
  | false =>
    rw [after?_false_eq_none_iff]
    rintro ⟨rest, rfl⟩
    rw [after?_append] at missed
    cases missed

/-- Letter case makes no difference to a text without letters. -/
theorem eq_of_sameLetters {x y : Text} (marks : ∀ a ∈ x, a.isAlpha = false)
    (same : sameLetters x y = true) : x = y := by
  have all := sameLetters_iff.1 same
  clear same
  induction all with
  | nil => rfl
  | cons first _ ih =>
    obtain ⟨mark, marks⟩ := List.forall_mem_cons.1 marks
    rw [eq_of_agree mark first, ih marks]

/-- A text does not start with another one whose first character is no letter and not its own. -/
theorem after?_cons_eq_none {ignoreCase : Bool} {a b : Char} (other : a.isAlpha = false)
    (differ : a ≠ b) (start t : Text) : after? ignoreCase (a :: start) (b :: t) = none := by
  rw [after?, if_neg]
  intro same
  exact differ (eq_of_agree other same)

/-- Nor if the first character of the text is no letter. -/
theorem after?_cons_eq_none' {ignoreCase : Bool} {a b : Char} (other : b.isAlpha = false)
    (differ : a ≠ b) (start t : Text) : after? ignoreCase (a :: start) (b :: t) = none := by
  rw [after?, if_neg]
  intro same
  rw [agree_comm] at same
  exact differ (eq_of_agree other same).symm

/-- At least one ASCII word character and nothing else. -/
def IsAsciiWord (t : Text) : Prop :=
  t ≠ [] ∧ ∀ c ∈ t, isAsciiWord c = true

/-- Whether a text is a word can be checked. -/
theorem isAsciiWord_of_checked {w : Text} (checked : (!w.isEmpty && w.all isAsciiWord) = true) :
    IsAsciiWord w := by
  rw [Bool.and_eq_true, List.all_eq_true] at checked
  constructor
  · simpa using checked.1
  · exact checked.2

/-- A keyword of case distinctions, in any letter case. -/
def IsKeyword (t : Text) : Prop :=
  sameLetters caseKeyword t = true ∨ sameLetters endKeyword t = true

instance (w : Text) : Decidable (IsKeyword w) :=
  inferInstanceAs (Decidable (_ ∨ _))

/-- A keyword may stand behind this character, or at the start of a text. -/
def ClearBefore (before : Option Char) : Prop :=
  ∀ c ∈ before, mayPrecedeKeyword c = true

/-- A keyword may stand in front of this text. -/
def ClearBehind (rest : Text) : Prop :=
  ∀ c ∈ rest.head?, mayFollowKeyword c = true

theorem clearBefore_none : ClearBefore none := by
  intro c none
  cases none

theorem clearBefore_some {c : Char} (clear : mayPrecedeKeyword c = true) :
    ClearBefore (some c) := by
  intro d same
  cases same
  exact clear

theorem clearBehind_nil : ClearBehind [] := by
  intro c none
  cases none

theorem clearBehind_cons {c : Char} (clear : mayFollowKeyword c = true) (t : Text) :
    ClearBehind (c :: t) := by
  intro d same
  cases same
  exact clear

theorem ClearBefore.not_isAsciiWord {before : Option Char} (clear : ClearBefore before) :
    ∀ c ∈ before, isAsciiWord c = false := by
  intro c mem
  have may := clear c mem
  simp only [mayPrecedeKeyword, Bool.and_eq_true, Bool.not_eq_true'] at may
  exact may.1

theorem ClearBehind.not_isAsciiWord {rest : Text} (clear : ClearBehind rest) :
    ∀ c ∈ rest.head?, isAsciiWord c = false := by
  intro c mem
  have may := clear c mem
  simp only [mayFollowKeyword, Bool.and_eq_true, Bool.not_eq_true'] at may
  exact may.1

theorem standsAlone_of_clear {before : Option Char} {rest : Text} (clear : ClearBefore before)
    (behind : ClearBehind rest) : standsAlone before rest.head? = true := by
  rw [standsAlone, Bool.and_eq_true, Option.all_eq_true, Option.all_eq_true]
  exact ⟨clear, behind⟩

/-! ### Keywords at the start of a text -/

section Starts

variable {keyword : Text} {before : Option Char}

/-- A keyword stands at the start of what begins with it, if nothing touches it. -/
theorem startsKeyword_append {rest : Text} (clear : ClearBefore before)
    (behind : ClearBehind rest) : startsKeyword keyword before (keyword ++ rest) = true := by
  rw [startsKeyword, after?_append]
  exact standsAlone_of_clear clear behind

/-- A text that disagrees with a keyword does not start with it, however it goes on. -/
theorem startsKeyword_append_of_diverges {t : Text}
    (differ : diverges false true keyword t = true) (before : Option Char) (rest : Text) :
    startsKeyword keyword before (t ++ rest) = false := by
  rw [startsKeyword, after?_append_of_diverges differ (fun whole => by cases whole)]

/-- No keyword stands behind a character that touches it. -/
theorem startsKeyword_of_touching {c : Char} (touching : mayPrecedeKeyword c = false) (t : Text) :
    startsKeyword keyword (some c) t = false := by
  unfold startsKeyword
  split
  · simp [standsAlone, touching]
  · rfl

theorem not_isAlpha_of_not_word {c : Char} (other : isAsciiWord c = false) :
    c.isAlpha = false := by
  simp only [isAsciiWord, Char.isAlphanum, Bool.or_eq_false_iff] at other
  exact other.1.1

/-- No keyword starts with a character that is not a letter. -/
theorem startsKeyword_cons_of_not_isAlpha (nonempty : keyword ≠ [])
    (letters : ∀ a ∈ keyword, a.isAlpha = true) {c : Char} (other : c.isAlpha = false)
    (t : Text) : startsKeyword keyword before (c :: t) = false := by
  obtain ⟨a, keyword, rfl⟩ := List.exists_cons_of_ne_nil nonempty
  have differ : ¬ agree true a c = true := by
    intro same
    rw [agree_comm] at same
    rw [eq_of_agree other same, letters a (List.mem_cons_self ..)] at other
    cases other
  rw [startsKeyword, after?, if_neg differ]

/-- **A word starts with a keyword that stands on its own only if it is the keyword**, in front of
anything that does not go on with the word. -/
theorem startsKeyword_append_of_word (letters : ∀ a ∈ keyword, a.isAlpha = true) {w rest : Text}
    (word : IsAsciiWord w) (behind : ∀ c ∈ rest.head?, isAsciiWord c = false)
    (other : sameLetters keyword w = true → standsAlone before rest.head? = false) :
    startsKeyword keyword before (w ++ rest) = false := by
  unfold startsKeyword
  split
  · rename_i t found
    obtain ⟨front, all, same⟩ := after?_eq_some_iff.1 found
    rcases List.append_eq_append_iff.1 same with ⟨more, rfl, rfl⟩ | ⟨more, rfl, rfl⟩
    · -- the keyword is the word or longer than it
      cases more with
      | nil =>
        rw [List.append_nil] at all
        exact other (sameLetters_iff.2 all)
      | cons c more =>
        have letter := isAsciiWord_of_mem_of_agree letters all c (by simp)
        rw [behind c rfl] at letter
        cases letter
    · -- the keyword is shorter than the word or as long as it
      cases more with
      | nil =>
        rw [List.append_nil] at other
        exact other (sameLetters_iff.2 all)
      | cons c more =>
        have touching : mayFollowKeyword c = false := by
          simp [mayFollowKeyword, word.2 c (by simp)]
        simp [standsAlone, touching]
  · rfl

end Starts

/-! ### Keywords at the end of a text -/

/-- **A word that was read in part ends in a keyword that stands on its own only if it is the
keyword**, behind something that the word does not go on from: otherwise the keyword touches a
character of the word. -/
theorem not_standsAlone_of_word {keyword : Text} (letters : ∀ a ∈ keyword, a.isAlpha = true)
    {read ahead rest seen before : Text} (word : ∀ c ∈ read ++ ahead, isAsciiWord c = true)
    (other : sameLetters keyword (read ++ ahead) = true →
      standsAlone seen.head? rest.head? = false)
    (start : ∀ c ∈ seen.head?, isAsciiWord c = false)
    (found : after? true keyword.reverse (read.reverse ++ seen) = some before) :
    standsAlone before.head? (ahead ++ rest).head? = false := by
  obtain ⟨front, all, same⟩ := after?_eq_some_iff.1 found
  have alpha : ∀ a ∈ keyword.reverse, a.isAlpha = true := by
    intro a mem
    exact letters a (List.mem_reverse.1 mem)
  -- if what was read of the word is the keyword, the word goes on
  have goesOn : List.Forall₂ (fun a b => agree true a b = true) keyword.reverse read.reverse →
      standsAlone seen.head? (ahead ++ rest).head? = false := by
    intro all
    have spelled : sameLetters keyword read = true := by
      rw [sameLetters_iff]
      exact List.forall₂_reverse_iff.1 all
    cases ahead with
    | nil =>
      rw [List.append_nil] at other
      exact other spelled
    | cons c ahead =>
      have touching : mayFollowKeyword c = false := by
        simp [mayFollowKeyword, word c (by simp)]
      simp [standsAlone, touching]
  rcases List.append_eq_append_iff.1 same with ⟨more, rfl, rfl⟩ | ⟨more, split, rfl⟩
  · cases more with
    | nil => exact goesOn (by rwa [List.append_nil] at all)
    | cons c more =>
      have letter := isAsciiWord_of_mem_of_agree alpha all c (by simp)
      rw [start c rfl] at letter
      cases letter
  · cases more with
    | nil =>
      rw [List.append_nil] at split
      exact goesOn (by rwa [← split] at all)
    | cons c more =>
      have mem : c ∈ read := by
        rw [← List.mem_reverse, split]
        simp
      have touching : mayPrecedeKeyword c = false := by
        simp [mayPrecedeKeyword, word c (List.mem_append_left _ mem)]
      simp [standsAlone, touching]

/-! ### Names -/

theorem isWord_of_isAsciiWord {c : Char} (word : isAsciiWord c = true) : isWord c = true := by
  have ascii : c.toNat < 128 := isAscii_of_isAsciiWord word
  rw [isWord, if_pos ascii]
  exact word

/-- At least one word character, of any script, and nothing else. -/
def IsName (t : Text) : Prop :=
  t ≠ [] ∧ ∀ c ∈ t, isWord c = true

theorem IsAsciiWord.isName {t : Text} (word : IsAsciiWord t) : IsName t :=
  ⟨word.1, fun c mem => isWord_of_isAsciiWord (word.2 c mem)⟩

/-- Whether a text is a name can be checked. -/
theorem isName_of_checked {t : Text} (checked : (!t.isEmpty && t.all isWord) = true) :
    IsName t := by
  simpa [IsName, List.isEmpty_iff] using checked

/-- A name that starts with an ASCII letter or underscore. -/
structure IsCallName (t : Text) : Prop where
  isName : IsName t
  start : ∀ c ∈ t.head?, isNameStart c = true

/-- The blanks beyond ASCII. -/
def wideBlanks : List Nat :=
  [0x85, 0xA0, 0x1680, 0x2000, 0x2001, 0x2002, 0x2003, 0x2004, 0x2005, 0x2006, 0x2007, 0x2008,
    0x2009, 0x200A, 0x2028, 0x2029, 0x202F, 0x205F, 0x3000]

theorem mem_wideBlanks {c : Char} (blank : isBlank c = true) (large : ¬ c.toNat < 128) :
    c.toNat ∈ wideBlanks := by
  simp only [isBlank, Bool.or_eq_true, decide_eq_true_eq, beq_iff_eq] at blank
  simp only [wideBlanks, List.mem_cons, List.not_mem_nil, or_false]
  omega

/-- No blank is part of a word. -/
theorem isWord_of_isBlank {c : Char} (blank : isBlank c = true) : isWord c = false := by
  by_cases ascii : IsAscii c
  · have checked := forall_isAscii (p := fun c => !isBlank c || !isWord c) rfl ascii
    rw [blank] at checked
    simpa using checked
  · have checked : ∀ n ∈ wideBlanks, inRanges (wordRanges n) n = false := by decide
    have large : ¬ c.toNat < 128 := ascii
    rw [isWord, if_neg large]
    exact checked _ (mem_wideBlanks blank ascii)

/-- No blank is a digit. -/
theorem isDigit_of_isBlank {c : Char} (blank : isBlank c = true) : isDigit c = false := by
  by_cases ascii : IsAscii c
  · have checked := forall_isAscii (p := fun c => !isBlank c || !isDigit c) rfl ascii
    rw [blank] at checked
    simpa using checked
  · have checked : ∀ n ∈ wideBlanks, inRanges digitRanges n = false := by decide
    have large : ¬ c.toNat < 128 := ascii
    rw [isDigit, if_neg large]
    exact checked _ (mem_wideBlanks blank ascii)

end RecordMapper.Text
