import RecordMapper.Proofs.Text.SpacedScans

/-!
Texts as characters and literals.

A `Segment` of a text is a literal, quotes included, or a character outside literals. `Segmented`
says what the segments of a text are; a text has segments if each literal that is opened in it is
closed (`closesLiterals_iff`). Flattening its blanks leaves the literals as they are and writes each
other blank as a space (`Segmented.flattenBlanks`), and what is flattened has no blanks left to
flatten (`flattenBlanks_flattenBlanks`).
-/

namespace RecordMapper

/-- A literal or a character outside literals. -/
inductive Segment where
  | outside (c : Char)
  | literal (contents : Text)
  deriving DecidableEq, Repr

namespace Segment

/-- How a segment is written. -/
def text : Segment → Text
  | .outside c => [c]
  | .literal contents => '"' :: (contents ++ ['"'])

/-- A space for each blank outside literals. -/
def flatten : Segment → Segment
  | .outside c => .outside (if Text.isBlank c then ' ' else c)
  | .literal contents => .literal contents

end Segment

namespace Text

/-- The segments of a text whose literals are all closed. -/
inductive Segmented : List Segment → Text → Prop
  | nil : Segmented [] []
  | outside {c : Char} {segments : List Segment} {t : Text} (other : c ≠ '"')
      (behind : Segmented segments t) : Segmented (.outside c :: segments) (c :: t)
  | literal {contents t rest : Text} {segments : List Segment}
      (closed : literal? t = some (contents, rest)) (behind : Segmented segments rest) :
      Segmented (.literal contents :: segments) ('"' :: t)

/-- Each quote that opens a literal has one that closes it. -/
def ClosesLiterals (t : Text) : Prop :=
  ∀ front segments rest, t = front ++ '"' :: rest → Segmented segments front →
    (literal? rest).isSome = true

/-- The text of a literal that is closed. -/
theorem eq_append_of_literal? {t contents rest : Text} (closed : literal? t = some (contents, rest)) :
    t = contents ++ '"' :: rest :=
  (exists_of_literalFrom? (by decide) closed).1

theorem exists_segmented {t : Text} (closes : ClosesLiterals t) :
    ∃ segments, Segmented segments t := by
  induction size : t.length using Nat.strong_induction_on generalizing t with
  | h length ih =>
    subst size
    cases t with
    | nil => exact ⟨[], .nil⟩
    | cons c t =>
      by_cases quote : c = '"'
      · subst quote
        obtain ⟨⟨contents, behind⟩, closed⟩ :=
          Option.isSome_iff_exists.1 (closes [] [] t rfl .nil)
        obtain rfl := eq_append_of_literal? closed
        have later : ClosesLiterals behind := by
          rintro front segments rest rfl segmented
          refine closes ('"' :: (contents ++ '"' :: front)) (.literal contents :: segments) rest
            (by simp) ?_
          exact .literal (literal?_closed closed front) segmented
        have shorter : behind.length < ('"' :: (contents ++ '"' :: behind)).length := by
          simp only [List.length_cons, List.length_append]
          omega
        obtain ⟨segments, segmented⟩ := ih behind.length shorter later rfl
        exact ⟨_, .literal closed segmented⟩
      · have later : ClosesLiterals t := by
          rintro front segments rest rfl segmented
          exact closes (c :: front) (.outside c :: segments) rest rfl (.outside quote segmented)
        obtain ⟨segments, segmented⟩ := ih t.length (Nat.lt_succ_self _) later rfl
        exact ⟨_, .outside quote segmented⟩

/-- No quote behind segments opens a literal that is not closed. -/
theorem Segmented.closesLiterals {segments : List Segment} {t : Text}
    (segmented : Segmented segments t) : ClosesLiterals t := by
  intro front segments' rest whole before
  induction before generalizing segments t with
  | nil =>
    subst whole
    cases segmented with
    | outside other _ => exact absurd rfl other
    | literal closed _ => exact Option.isSome_of_eq_some closed
  | outside other _ ih =>
    subst whole
    cases segmented with
    | outside _ behind => exact ih behind rfl
    | literal _ _ => exact absurd rfl other
  | @literal contents t' behind _ closed _ ih =>
    obtain rfl := eq_append_of_literal? closed
    rw [List.cons_append, List.append_assoc] at whole
    subst whole
    have ends : literal? (contents ++ '"' :: (behind ++ '"' :: rest))
        = some (contents, behind ++ '"' :: rest) := literal?_closed closed _
    cases segmented with
    | outside other _ => exact absurd rfl other
    | literal closed' later =>
      obtain ⟨rfl, rfl⟩ := Prod.mk.inj (Option.some.inj (ends.symm.trans closed'))
      exact ih later rfl

/-- **A text has segments exactly if its literals are closed.** -/
theorem closesLiterals_iff {t : Text} : ClosesLiterals t ↔ ∃ segments, Segmented segments t :=
  ⟨exists_segmented, fun ⟨_, segmented⟩ => segmented.closesLiterals⟩

variable {segments : List Segment} {t : Text}

/-- A text is its segments, one after the other. -/
theorem Segmented.eq_flatMap (segmented : Segmented segments t) :
    t = segments.flatMap Segment.text := by
  induction segmented with
  | nil => rfl
  | outside _ _ ih => rw [List.flatMap_cons, ← ih]; rfl
  | literal closed _ ih =>
    rw [List.flatMap_cons, ← ih, eq_append_of_literal? closed]
    simp [Segment.text]

/-- **Flattening leaves the literals of a text and writes every other blank as a space.** -/
theorem Segmented.flattenBlanks (segmented : Segmented segments t) :
    Segmented (segments.map Segment.flatten) (Text.flattenBlanks t) := by
  unfold Text.flattenBlanks
  induction segmented with
  | nil => exact .nil
  | @outside c segments t other _ ih =>
    have plain : Mode.plain.after c = .plain := after_plain_of_ne other
    have unquoted : (if isBlank c then ' ' else c) ≠ '"' := by
      split
      · decide
      · exact other
    simp only [List.map_cons, Segment.flatten, flattenBlanksFrom, plain, true_and]
    exact .outside unquoted ih
  | @literal contents t rest segments closed _ ih =>
    obtain rfl := eq_append_of_literal? closed
    have ends : literal? (contents ++ ['"']) = some (contents, []) := literal?_closed closed []
    rw [flattenBlanksFrom_literal ends, List.map_cons, List.cons_append, List.append_assoc]
    exact .literal (literal?_closed closed _) ih

/-- A blank that is written as a space is one where literals are concerned. -/
theorem after_flattened (m : Mode) (c : Char) :
    m.after (if m = .plain ∧ isBlank c then ' ' else c) = m.after c := by
  split
  · rename_i blank
    obtain ⟨rfl, blank⟩ := blank
    have unquoted : c ≠ '"' := by
      rintro rfl
      cases blank
    rw [after_plain_of_ne unquoted]
    rfl
  · rfl

/-- **What is flattened has nothing left to flatten.** -/
theorem flattenBlanks_flattenBlanks (t : Text) :
    Text.flattenBlanks (Text.flattenBlanks t) = Text.flattenBlanks t := by
  unfold Text.flattenBlanks
  generalize Mode.plain = m
  induction t generalizing m with
  | nil => rfl
  | cons c t ih =>
    rw [flattenBlanksFrom, flattenBlanksFrom, after_flattened, ih]
    congr 1
    split <;> simp_all

end Text

end RecordMapper
