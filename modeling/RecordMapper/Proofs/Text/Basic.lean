import Mathlib.Data.List.Forall2
import Mathlib.Data.List.TakeWhile
import RecordMapper.Text.Basic

/-!
Texts in front of texts, runs of characters, and joined texts.
-/

namespace RecordMapper.Text

/-! ### What a text starts with -/

/-- Letter case counting, what follows the start of a text is found exactly if the text is the start
and what follows. -/
theorem after?_false_iff {start t rest : Text} :
    after? false start t = some rest ↔ t = start ++ rest := by
  induction start generalizing t with
  | nil => simp [after?]
  | cons a start ih =>
    cases t with
    | nil => simp [after?]
    | cons b t =>
      by_cases same : a = b
      · subst same
        simp [after?, agree, ih]
      · simp [after?, agree, same, Ne.symm same]

/-- A text starts with what it was put behind. -/
theorem after?_append (ignoreCase : Bool) (start rest : Text) :
    after? ignoreCase start (start ++ rest) = some rest := by
  induction start with
  | nil => rfl
  | cons a start ih => simp [after?, agree, ih]

theorem after?_false_eq_none_iff {start t : Text} :
    after? false start t = none ↔ ¬ start <+: t := by
  constructor
  · rintro none ⟨rest, rfl⟩
    rw [after?_append] at none
    cases none
  · intro none
    cases found : after? false start t with
    | none => rfl
    | some rest => exact absurd ⟨rest, (after?_false_iff.1 found).symm⟩ none

/-- The parts of a start are taken off one after the other. -/
theorem after?_append_left (ignoreCase : Bool) (start more t : Text) :
    after? ignoreCase (start ++ more) t
      = (after? ignoreCase start t).bind (after? ignoreCase more) := by
  induction start generalizing t with
  | nil => rfl
  | cons a start ih =>
    cases t with
    | nil => rfl
    | cons b t =>
      rw [List.cons_append, after?, after?, ih]
      split <;> rfl

/-- A text starts with another one if it has characters in front that agree with it. -/
theorem after?_eq_some_iff {ignoreCase : Bool} {start t rest : Text} :
    after? ignoreCase start t = some rest ↔
      ∃ front, List.Forall₂ (fun a b => agree ignoreCase a b = true) start front ∧
        t = front ++ rest := by
  induction start generalizing t with
  | nil =>
    constructor
    · rintro ⟨⟩
      exact ⟨[], .nil, rfl⟩
    · rintro ⟨_, ⟨⟩, rfl⟩
      rfl
  | cons a start ih =>
    cases t with
    | nil =>
      constructor
      · intro found
        cases found
      · rintro ⟨front, all, empty⟩
        cases all
        cases empty
    | cons b t =>
      rw [after?]
      split
      · rename_i first
        rw [ih]
        constructor
        · rintro ⟨front, all, rfl⟩
          exact ⟨b :: front, .cons first all, rfl⟩
        · rintro ⟨front, all, whole⟩
          cases all with
          | cons _ all =>
            obtain ⟨rfl, rfl⟩ := List.cons.inj whole
            exact ⟨_, all, rfl⟩
      · rename_i differ
        constructor
        · intro found
          cases found
        · rintro ⟨front, all, whole⟩
          cases all with
          | cons first _ =>
            obtain ⟨rfl, -⟩ := List.cons.inj whole
            exact absurd first differ

/-- Letter case counting, characters that agree are the same. -/
theorem eq_of_forall₂_agree {x word : Text}
    (agrees : List.Forall₂ (fun a b => agree false a b = true) x word) : x = word :=
  List.forall₂_eq_eq_eq ▸ agrees.imp fun a b same => by simpa [agree] using same

theorem sameLetters_iff {a b : Text} :
    sameLetters a b = true ↔ List.Forall₂ (fun c d => agree true c d = true) a b := by
  rw [sameLetters, beq_iff_eq, after?_eq_some_iff]
  constructor
  · rintro ⟨front, all, rfl⟩
    rwa [List.append_nil]
  · intro all
    exact ⟨b, all, (List.append_nil b).symm⟩

/-- Two texts disagree where both have a character, or the second one is the whole text and shorter
than the first. -/
def diverges (whole ignoreCase : Bool) : Text → Text → Bool
  | a :: start, b :: t => !agree ignoreCase a b || diverges whole ignoreCase start t
  | _ :: _, [] => whole
  | [], _ => false

/-- A text that disagrees with the start of another one does not stand in front of it, however that
goes on. -/
theorem after?_append_of_diverges {whole ignoreCase : Bool} {start t rest : Text}
    (differ : diverges whole ignoreCase start t = true) (all : whole = true → rest = []) :
    after? ignoreCase start (t ++ rest) = none := by
  induction start generalizing t with
  | nil => cases t <;> cases differ
  | cons a start ih =>
    cases t with
    | nil =>
      rw [all differ]
      rfl
    | cons b t =>
      rw [List.cons_append, after?]
      split
      · rename_i first
        refine ih ?_
        simpa [diverges, first] using differ
      · rfl

/-! ### Runs of characters -/

/-- The longest run of characters of a kind ends where another character stands. -/
theorem takeWhile_append_of_head {p : Char → Bool} {w rest : Text} (all : ∀ c ∈ w, p c = true)
    (behind : ∀ c ∈ rest.head?, p c = false) :
    (w ++ rest).takeWhile p = w ∧ (w ++ rest).dropWhile p = rest := by
  have stop : rest.takeWhile p = [] ∧ rest.dropWhile p = rest := by
    cases rest with
    | nil => exact ⟨rfl, rfl⟩
    | cons c rest => simp [behind c rfl]
  rw [List.takeWhile_append_of_pos all, List.dropWhile_append_of_pos all, stop.1, stop.2,
    List.append_nil]
  exact ⟨rfl, rfl⟩

/-- At least one ASCII digit and nothing else. -/
def IsDigits (t : Text) : Prop :=
  t ≠ [] ∧ ∀ c ∈ t, c.isDigit

theorem isDigits_singleton {c : Char} (digit : c.isDigit) : IsDigits [c] :=
  ⟨List.cons_ne_nil c [], List.forall_mem_singleton.2 digit⟩

/-! ### Trimming -/

/-- The text is not empty, and there are no blanks at its ends. -/
structure IsTrimmed (t : Text) : Prop where
  nonempty : t ≠ []
  start : ∀ c ∈ t.head?, isBlank c = false
  stop : ∀ c ∈ t.getLast?, isBlank c = false

theorem IsTrimmed.isEmpty_eq_false {t : Text} (trimmed : IsTrimmed t) : t.isEmpty = false :=
  List.isEmpty_eq_false_iff.2 trimmed.nonempty

theorem dropWhile_isBlank_append {blanks t : Text} (blank : ∀ c ∈ blanks, isBlank c = true)
    (start : ∀ c ∈ t.head?, isBlank c = false) : (blanks ++ t).dropWhile isBlank = t := by
  rw [List.dropWhile_append_of_pos blank]
  cases t with
  | nil => rfl
  | cons c t => simp [start c rfl]

/-- A text that starts with no blank has none to trim there. -/
theorem trimStart_of_start {t : Text} (start : ∀ c ∈ t.head?, isBlank c = false) :
    trimStart t = t := by
  have found : ([] ++ t).dropWhile isBlank = t := dropWhile_isBlank_append nofun start
  exact found

theorem IsTrimmed.trimStart_append {t : Text} (trimmed : IsTrimmed t) {front : Text}
    (blank : ∀ c ∈ front, isBlank c = true) (rest : Text) :
    trimStart (front ++ (t ++ rest)) = t ++ rest := by
  refine dropWhile_isBlank_append blank ?_
  obtain ⟨c, t, rfl⟩ := List.exists_cons_of_ne_nil trimmed.nonempty
  intro d head
  exact trimmed.start d head

/-- **The blanks around a trimmed text are trimmed.** -/
theorem IsTrimmed.trim_append {t : Text} (trimmed : IsTrimmed t) {front back : Text}
    (blank : ∀ c ∈ front, isBlank c = true) (blank' : ∀ c ∈ back, isBlank c = true) :
    trim (front ++ (t ++ back)) = t := by
  have last : ∀ c ∈ t.reverse.head?, isBlank c = false := by
    intro c head
    exact trimmed.stop c (by rwa [List.head?_reverse] at head)
  have blanks : ∀ c ∈ back.reverse, isBlank c = true := by
    intro c mem
    exact blank' c (List.mem_reverse.1 mem)
  rw [trim, trimmed.trimStart_append blank, trimEnd, List.reverse_append,
    dropWhile_isBlank_append blanks last, List.reverse_reverse]

theorem IsTrimmed.trim_eq {t : Text} (trimmed : IsTrimmed t) : trim t = t := by
  have found : trim ([] ++ (t ++ [])) = t := trimmed.trim_append (by simp) (by simp)
  simpa using found

/-- A text between trimmed ones may have blanks at its ends. -/
theorem IsTrimmed.append {x y : Text} (front : IsTrimmed x) (between : Text) (back : IsTrimmed y) :
    IsTrimmed (x ++ between ++ y) := by
  refine ⟨by simp [front.nonempty], ?_, ?_⟩
  · obtain ⟨c, x, rfl⟩ := List.exists_cons_of_ne_nil front.nonempty
    intro d first
    exact front.start d first
  · obtain ⟨y, c, rfl⟩ := (List.eq_nil_or_concat y).resolve_left back.nonempty
    intro d last
    rw [List.concat_eq_append, ← List.append_assoc, List.getLast?_concat] at last
    refine back.stop d ?_
    rw [List.concat_eq_append, List.getLast?_concat]
    exact last

/-- A text with a character that is not blank is not trimmed to nothing. -/
theorem isEmpty_trim_eq_false {t : Text} {c : Char} (mem : c ∈ t) (other : isBlank c = false) :
    (trim t).isEmpty = false := by
  have kept : ∀ {u : Text}, c ∈ u → c ∈ u.dropWhile isBlank := by
    intro u mem
    rw [← List.takeWhile_append_dropWhile (p := isBlank) (l := u)] at mem
    rcases List.mem_append.1 mem with front | back
    · rw [List.mem_takeWhile_imp front] at other
      cases other
    · exact back
  have trimmed : c ∈ trim t := List.mem_reverse.2 (kept (List.mem_reverse.2 (kept mem)))
  rw [List.isEmpty_eq_false_iff]
  exact List.ne_nil_of_mem trimmed

theorem trim_eq_nil_iff {t : Text} : trim t = [] ↔ ∀ c ∈ t, isBlank c = true := by
  constructor
  · intro empty c mem
    by_contra other
    have some := isEmpty_trim_eq_false mem (Bool.eq_false_iff.2 other)
    rw [empty] at some
    cases some
  · intro blank
    have start : trimStart t = [] := List.dropWhile_eq_nil_iff.2 blank
    rw [trim, start]
    rfl

theorem trimStart_start (t : Text) : ∀ c ∈ (trimStart t).head?, isBlank c = false := by
  intro c first
  have stop := List.head?_dropWhile_not isBlank t
  rw [show (t.dropWhile isBlank).head? = some c from first] at stop
  exact stop

/-- **A text is what is left of it when it is trimmed, between blanks.** -/
theorem exists_blanks_trim (t : Text) : ∃ front back, t = front ++ (trim t ++ back)
    ∧ (∀ c ∈ front, isBlank c = true) ∧ ∀ c ∈ back, isBlank c = true := by
  have whole : t.takeWhile isBlank ++ trimStart t = t := List.takeWhile_append_dropWhile
  have turned : (trimStart t).reverse.takeWhile isBlank ++ (trimStart t).reverse.dropWhile isBlank
      = (trimStart t).reverse := List.takeWhile_append_dropWhile
  have split := congrArg List.reverse turned
  rw [List.reverse_append, List.reverse_reverse] at split
  refine ⟨t.takeWhile isBlank, ((trimStart t).reverse.takeWhile isBlank).reverse, ?_,
    fun c mem => List.mem_takeWhile_imp mem,
    fun c mem => List.mem_takeWhile_imp (List.mem_reverse.1 mem)⟩
  show t = t.takeWhile isBlank ++ (((trimStart t).reverse.dropWhile isBlank).reverse
    ++ ((trimStart t).reverse.takeWhile isBlank).reverse)
  rw [split, whole]

theorem isInfix_trimStart (t : Text) : trimStart t <:+: t :=
  (List.dropWhile_suffix isBlank).isInfix

theorem isInfix_trim (t : Text) : trim t <:+: t := by
  obtain ⟨front, back, split, -⟩ := exists_blanks_trim t
  exact ⟨front, back, by rw [List.append_assoc, ← split]⟩

/-- What is left of a text when it is trimmed is trimmed, if it is something. -/
theorem isTrimmed_trim {t : Text} (nonempty : trim t ≠ []) : IsTrimmed (trim t) := by
  have last := trimStart_start (trimStart t).reverse
  have reversed : (trim t).reverse = trimStart (trimStart t).reverse := by
    rw [trim, trimEnd, List.reverse_reverse]
    rfl
  refine ⟨nonempty, ?_, ?_⟩
  · have turned : (trimStart t).reverse.takeWhile isBlank ++ (trim t).reverse
        = (trimStart t).reverse := by
      rw [reversed]
      exact List.takeWhile_append_dropWhile
    have split := congrArg List.reverse turned
    rw [List.reverse_append, List.reverse_reverse, List.reverse_reverse] at split
    intro c first
    refine trimStart_start t c ?_
    rw [← split, List.head?_append, first]
    rfl
  · intro c mem
    rw [← List.head?_reverse, reversed] at mem
    exact last c mem

theorem start_trim (t : Text) : ∀ c ∈ t.trim.head?, isBlank c = false := by
  intro c mem
  refine (isTrimmed_trim ?_).start c mem
  intro empty
  rw [empty] at mem
  cases mem

@[simp] theorem trim_trim (t : Text) : trim (trim t) = trim t := by
  by_cases empty : trim t = []
  · rw [empty]
    rfl
  · exact (isTrimmed_trim empty).trim_eq

/-! ### Joining -/

@[simp] theorem join_singleton (separator t : Text) : join separator [t] = t := by
  simp [join]

@[simp] theorem join_cons_cons (separator t u : Text) (rest : List Text) :
    join separator (t :: u :: rest) = t ++ separator ++ join separator (u :: rest) := by
  simp [join]

end RecordMapper.Text
