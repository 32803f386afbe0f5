import RecordMapper.Proofs.Text.Balanced

/-!
Where keywords stand in a text.

A text holds a keyword if it stands on its own somewhere in it. A keyword that is held by two texts
in one is held by one of them, if the first ends in no letter (`HasKeyword.of_append`), and what
holds no letter holds no keyword.
-/

namespace RecordMapper.Text

/-- The keyword stands on its own somewhere in the text, which follows the character `before`. -/
def HasKeyword (keyword : Text) (before : Option Char) (t : Text) : Prop :=
  ∃ front back, t = front ++ back ∧ startsKeyword keyword (lastFrom before front) back = true

/-- A keyword stands at the start of the text or further on. -/
theorem hasKeyword_cons_iff {keyword : Text} {before : Option Char} {c : Char} {t : Text} :
    HasKeyword keyword before (c :: t)
      ↔ startsKeyword keyword before (c :: t) = true ∨ HasKeyword keyword (some c) t := by
  constructor
  · rintro ⟨front, back, same, starts⟩
    cases front with
    | nil =>
      obtain rfl := same
      exact .inl starts
    | cons d front =>
      obtain ⟨rfl, rfl⟩ := List.cons.inj same
      exact .inr ⟨front, back, rfl, starts⟩
  · rintro (starts | ⟨front, back, rfl, starts⟩)
    · exact ⟨[], c :: t, rfl, starts⟩
    · exact ⟨c :: front, back, rfl, starts⟩

theorem hasKeyword_nil_iff {keyword : Text} {before : Option Char} :
    HasKeyword keyword before [] ↔ startsKeyword keyword before [] = true := by
  constructor
  · rintro ⟨front, back, same, starts⟩
    obtain ⟨rfl, rfl⟩ := List.nil_eq_append_iff.1 same
    exact starts
  · exact fun starts => ⟨[], [], rfl, starts⟩

instance HasKeyword.decidable (keyword : Text) :
    (last : Option Char) → (t : Text) → Decidable (HasKeyword keyword last t)
  | _, [] => decidable_of_iff _ hasKeyword_nil_iff.symm
  | _, c :: t =>
    have := HasKeyword.decidable keyword (some c) t
    decidable_of_iff _ hasKeyword_cons_iff.symm

section Keywords

variable {keyword : Text} (letters : ∀ a ∈ keyword, a.isAlpha = true) {before : Option Char}

/-- Only the last character in front decides what a keyword touches. -/
theorem lastFrom_cons (before other : Option Char) (c : Char) (t : Text) :
    lastFrom before (c :: t) = lastFrom other (c :: t) :=
  rfl

theorem exists_of_startsKeyword {t : Text} (starts : startsKeyword keyword before t = true) :
    ∃ word rest, List.Forall₂ (fun a b => agree true a b = true) keyword word
      ∧ t = word ++ rest ∧ standsAlone before rest.head? = true := by
  unfold startsKeyword at starts
  split at starts
  · rename_i rest found
    obtain ⟨word, all, same⟩ := after?_eq_some_iff.1 found
    exact ⟨word, rest, all, same, starts⟩
  · cases starts

theorem startsKeyword_of_word {word rest : Text}
    (all : List.Forall₂ (fun a b => agree true a b = true) keyword word)
    (alone : standsAlone before rest.head? = true) :
    startsKeyword keyword before (word ++ rest) = true := by
  rw [startsKeyword, after?_eq_some_iff.2 ⟨word, all, rfl⟩]
  exact alone

include letters

theorem isAlpha_of_forall₂ {word : Text}
    (all : List.Forall₂ (fun a b => agree true a b = true) keyword word) :
    ∀ c ∈ word, c.isAlpha = true := by
  intro c mem
  obtain ⟨a, member, same⟩ := exists_agree_of_mem all mem
  exact isAlpha_of_agree (letters a member) same

/-- A keyword at the end of what was read stands in the text, if that starts with no letter. -/
theorem exists_of_read {c : Char} (mark : c.isAlpha = false) {read seen front : Text}
    (found : after? true keyword.reverse ((c :: read).reverse ++ seen) = some front) :
    ∃ start word, c :: read = start ++ word
      ∧ List.Forall₂ (fun a b => agree true a b = true) keyword word
      ∧ front.head? = lastFrom none start := by
  obtain ⟨reversed, all, same⟩ := after?_eq_some_iff.1 found
  have spelled : List.Forall₂ (fun a b => agree true a b = true) keyword reversed.reverse := by
    rw [← List.reverse_reverse keyword]
    exact List.forall₂_reverse_iff.2 all
  have outside : c ∉ reversed := by
    intro mem
    have letter := isAlpha_of_forall₂ letters spelled c (List.mem_reverse.2 mem)
    rw [mark] at letter
    cases letter
  rcases List.append_eq_append_iff.1 same with ⟨more, rfl, -⟩ | ⟨more, split, rfl⟩
  · exact absurd (by simp) outside
  · cases more with
    | nil =>
      rw [List.append_nil] at split
      exact absurd (by simp [← split]) outside
    | cons d more =>
      refine ⟨(d :: more).reverse, reversed.reverse, ?_, spelled, ?_⟩
      · rw [← List.reverse_append, ← split, List.reverse_reverse]
      · rw [List.reverse_cons, lastFrom_concat]
        rfl

variable (nonempty : keyword ≠ [])
include nonempty

/-- **A keyword in two texts is in one of them**, if the first ends in no letter; then it does not
end where the first one does. -/
theorem word_in_append {x y front word back : Text} (last : ∀ c ∈ x.getLast?, c.isAlpha = false)
    (all : List.Forall₂ (fun a b => agree true a b = true) keyword word)
    (same : x ++ y = front ++ (word ++ back)) :
    (∃ more, front = x ++ more ∧ y = more ++ (word ++ back))
      ∨ ∃ c more, x = front ++ (word ++ c :: more) ∧ back = c :: more ++ y := by
  have outside : ∀ c ∈ x.getLast?, c ∉ word := by
    intro c ends mem
    have letter := isAlpha_of_forall₂ letters all c mem
    rw [last c ends] at letter
    cases letter
  rcases List.append_eq_append_iff.1 same with ⟨more, split, rfl⟩ | ⟨x', rfl, same'⟩
  · exact .inl ⟨more, split, rfl⟩
  · rcases List.append_eq_append_iff.1 same' with ⟨more, rfl, rfl⟩ | ⟨more, rfl, rfl⟩
    · -- the first text ends where the keyword does
      cases more with
      | nil =>
        have filled : word ≠ [] := by
          rintro rfl
          cases all
          exact nonempty rfl
        refine absurd (List.getLast_mem filled) (outside _ ?_)
        rw [List.append_nil, List.getLast?_append_of_ne_nil _ filled]
        exact List.getLast?_eq_some_getLast filled
      | cons c more => exact .inr ⟨c, more, rfl, rfl⟩
    · -- the first text ends in front of the keyword or inside it
      cases x' with
      | nil => exact .inl ⟨[], by simp, by simp⟩
      | cons c x' =>
        have filled : c :: x' ≠ [] := List.cons_ne_nil c x'
        refine absurd (List.mem_append_left more (List.getLast_mem filled)) (outside _ ?_)
        rw [List.getLast?_append_of_ne_nil _ filled]
        exact List.getLast?_eq_some_getLast filled

/-- **A keyword that two texts in one hold is held by one of them**, if the first ends in no
letter. -/
theorem HasKeyword.of_append {x y : Text} (last : ∀ c ∈ x.getLast?, c.isAlpha = false)
    (has : HasKeyword keyword before (x ++ y)) :
    HasKeyword keyword before x ∨ HasKeyword keyword (lastFrom before x) y := by
  obtain ⟨front, back, same, starts⟩ := has
  obtain ⟨word, rest, all, rfl, alone⟩ := exists_of_startsKeyword starts
  rcases word_in_append letters nonempty last all same with
    ⟨more, rfl, rfl⟩ | ⟨c, more, rfl, rfl⟩
  · rw [lastFrom_append] at alone
    exact .inr ⟨more, word ++ rest, rfl, startsKeyword_of_word all alone⟩
  · exact .inl ⟨front, word ++ c :: more, rfl, startsKeyword_of_word all alone⟩

/-- What holds no letter holds no keyword. -/
theorem not_hasKeyword_of_marks {x : Text}
    (marks : ∀ c ∈ x, c.isAlpha = false) : ¬ HasKeyword keyword before x := by
  rintro ⟨front, back, rfl, starts⟩
  cases back with
  | nil =>
    obtain ⟨a, keyword, rfl⟩ := List.exists_cons_of_ne_nil nonempty
    cases starts
  | cons c back =>
    rw [startsKeyword_cons_of_not_isAlpha nonempty letters (marks c (by simp)) back] at starts
    cases starts

/-- What stands before a text that starts with no letter touches no keyword in it. -/
theorem HasKeyword.of_start {c : Char} (mark : c.isAlpha = false)
    {x : Text} (has : HasKeyword keyword before (c :: x)) (other : Option Char) :
    HasKeyword keyword other (c :: x) := by
  obtain ⟨front, back, same, starts⟩ := has
  cases front with
  | nil =>
    obtain rfl := same
    rw [startsKeyword_cons_of_not_isAlpha nonempty letters mark x] at starts
    cases starts
  | cons d front => exact ⟨d :: front, back, same, starts⟩

end Keywords

end RecordMapper.Text
