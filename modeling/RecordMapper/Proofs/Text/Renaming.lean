import RecordMapper.Proofs.Related
import RecordMapper.Proofs.Text.Mentions
import RecordMapper.Proofs.Text.Spacing

/-!
Texts that differ in the names of their placeholders.

A placeholder is an ASCII word between percent signs. Two texts are `Renamed` if one is the other
with other words between its percent signs, and no percent sign stands anywhere else. What reads a
text from its start or from its end and looks for no percent sign finds the same characters in both
and leaves texts that are `Renamed` again: what stands in front of a place
(`Renamed.takeWhile_eq`), a word (`Renamed.rel_after`), the blanks at the ends (`Renamed.trim`).
-/

namespace RecordMapper.Text

/-- Two texts that are equal but for the names of their placeholders; `names` says which name may
stand for which. -/
inductive Renamed (names : Text → Text → Prop) : Text → Text → Prop
  | nil : Renamed names [] []
  | char {c : Char} {s t : Text} (other : c ≠ '%') (behind : Renamed names s t) :
    Renamed names (c :: s) (c :: t)
  | placeholder {v w s t : Text} (pair : names v w) (word : IsAsciiWord v) (word' : IsAsciiWord w)
    (behind : Renamed names s t) : Renamed names ('%' :: (v ++ '%' :: s)) ('%' :: (w ++ '%' :: t))

/-- The names of texts that are read backwards. -/
def backward (names : Text → Text → Prop) : Text → Text → Prop :=
  fun v w => names v.reverse w.reverse

theorem backward_backward (names : Text → Text → Prop) : backward (backward names) = names := by
  funext v w
  simp [backward]

namespace Renamed

variable {names names' : Text → Text → Prop} {s s' t t' w : Text}

/-- A text without percent signs has no placeholders. -/
theorem of_not_mem (free : '%' ∉ t) : Renamed names t t := by
  induction t with
  | nil => exact .nil
  | cons c t ih =>
    rw [List.mem_cons, not_or] at free
    exact .char (Ne.symm free.1) (ih free.2)

theorem append (front : Renamed names s t) (back : Renamed names s' t') :
    Renamed names (s ++ s') (t ++ t') := by
  induction front with
  | nil => exact back
  | char other _ ih => exact .char other ih
  | placeholder pair word word' _ ih =>
    simpa using Renamed.placeholder pair word word' ih

theorem symm (renamed : Renamed names s t) : Renamed (flip names) t s := by
  induction renamed with
  | nil => exact .nil
  | char other _ ih => exact .char other ih
  | placeholder pair word word' _ ih => exact .placeholder pair word' word ih

theorem reverse (renamed : Renamed names s t) : Renamed (backward names) s.reverse t.reverse := by
  induction renamed with
  | nil => exact .nil
  | char other _ ih =>
    rw [List.reverse_cons, List.reverse_cons]
    exact ih.append (.char other .nil)
  | @placeholder v w _ _ pair word word' _ ih =>
    have backwards : ∀ {u : Text}, IsAsciiWord u → IsAsciiWord u.reverse := fun word =>
      ⟨mt List.reverse_eq_nil_iff.1 word.1, fun c mem => word.2 c (List.mem_reverse.1 mem)⟩
    have pair' : backward names v.reverse w.reverse := by simpa [backward] using pair
    simpa using ih.append (.placeholder pair' (backwards word) (backwards word') .nil)

theorem of_reverse (renamed : Renamed (backward names) s.reverse t.reverse) :
    Renamed names s t := by
  have read := renamed.reverse
  rwa [List.reverse_reverse, List.reverse_reverse, backward_backward] at read

/-! ### Texts without percent signs -/

theorem eq_of_not_mem (renamed : Renamed names s t) (free : '%' ∉ s) : s = t := by
  induction renamed with
  | nil => rfl
  | char _ _ ih =>
    rw [List.mem_cons, not_or] at free
    rw [ih free.2]
  | placeholder => exact absurd (List.mem_cons_self ..) free

/-- A text without percent signs is both texts or none. -/
theorem eq_iff (renamed : Renamed names s t) (free : '%' ∉ w) : s = w ↔ t = w := by
  constructor
  · rintro rfl
    exact (renamed.eq_of_not_mem free).symm
  · rintro rfl
    exact (renamed.symm.eq_of_not_mem free).symm

theorem isEmpty_eq (renamed : Renamed names s t) : s.isEmpty = t.isEmpty := by
  cases renamed <;> rfl

theorem head?_eq (renamed : Renamed names s t) : s.head? = t.head? := by
  cases renamed <;> rfl

/-- What percent signs stand around is no percent sign and no blank. -/
theorem ne_sign (renamed : Renamed names ('%' :: s) t) : ∀ c ∈ s.head?, isAsciiWord c = true := by
  generalize whole : '%' :: s = u at renamed
  cases renamed with
  | nil => cases whole
  | char other => exact absurd (List.cons.inj whole).1.symm other
  | @placeholder v _ _ _ _ word =>
    obtain ⟨-, rfl⟩ := List.cons.inj whole
    obtain ⟨nonempty, letters⟩ := word
    cases v with
    | nil => exact absurd rfl nonempty
    | cons d v =>
      intro c first
      exact letters c (List.mem_of_mem_head? (by simpa using first))

/-! ### Parts -/

theorem not_mem_of_isAsciiWord {v : Text} (word : IsAsciiWord v) : '%' ∉ v := fun mem => by
  cases word.2 '%' mem

/-- A text is cut at its first percent sign in one way. -/
theorem split_inj {v w : Text} (free : '%' ∉ v) (free' : '%' ∉ w)
    (same : v ++ '%' :: s = w ++ '%' :: t) : v = w ∧ s = t := by
  induction v generalizing w with
  | nil =>
    cases w with
    | nil => exact ⟨rfl, (List.cons.inj same).2⟩
    | cons d w => exact absurd (List.mem_cons.2 (.inl (List.cons.inj same).1)) free'
  | cons c v ih =>
    cases w with
    | nil => exact absurd (List.mem_cons.2 (.inl (List.cons.inj same).1.symm)) free
    | cons d w =>
      obtain ⟨rfl, behind⟩ := List.cons.inj same
      obtain ⟨rfl, rfl⟩ := ih (mt (List.mem_cons_of_mem c) free)
        (mt (List.mem_cons_of_mem c) free') behind
      exact ⟨rfl, rfl⟩

/-- A placeholder stands against a placeholder. -/
theorem exists_of_placeholder {v : Text} (word : IsAsciiWord v)
    (renamed : Renamed names ('%' :: (v ++ '%' :: s)) t) :
    ∃ w r, names v w ∧ IsAsciiWord w ∧ t = '%' :: (w ++ '%' :: r) ∧ Renamed names s r := by
  generalize whole : '%' :: (v ++ '%' :: s) = u at renamed
  cases renamed with
  | nil => cases whole
  | char other => exact absurd (List.cons.inj whole).1.symm other
  | @placeholder v' w s' r pair word' word'' behind =>
    obtain ⟨rfl, rfl⟩ := split_inj (not_mem_of_isAsciiWord word) (not_mem_of_isAsciiWord word')
      (List.cons.inj whole).2
    exact ⟨w, r, pair, word'', rfl, behind⟩

/-- What stands behind renamed texts is renamed, if the whole texts are. -/
theorem of_append (front : Renamed names s t) (whole : Renamed names (s ++ s') (t ++ t')) :
    Renamed names s' t' := by
  induction front with
  | nil => exact whole
  | @char c s t other _ ih =>
    generalize left : c :: s ++ s' = x at whole
    generalize right : c :: t ++ t' = y at whole
    cases whole with
    | nil => cases left
    | char _ behind =>
      obtain ⟨-, rfl⟩ := List.cons.inj left
      obtain ⟨-, rfl⟩ := List.cons.inj right
      exact ih behind
    | placeholder => exact absurd (List.cons.inj left).1 other
  | @placeholder v w s t _ word word' _ ih =>
    have split : ∀ u x y : Text, '%' :: (u ++ '%' :: x) ++ y = '%' :: (u ++ '%' :: (x ++ y)) := by
      simp
    rw [split, split] at whole
    obtain ⟨w', r, -, word'', same, behind⟩ := exists_of_placeholder word whole
    obtain ⟨-, rfl⟩ := split_inj (not_mem_of_isAsciiWord word') (not_mem_of_isAsciiWord word'')
      (List.cons.inj same).2
    exact ih behind

/-- What stands before renamed texts is renamed, if the whole texts are. -/
theorem of_append_right (back : Renamed names s' t') (whole : Renamed names (s ++ s') (t ++ t')) :
    Renamed names s t := by
  have backwards := whole.reverse
  rw [List.reverse_append, List.reverse_append] at backwards
  exact of_reverse (back.reverse.of_append backwards)

/-- If every name has one other name, every text has one renamed text. -/
theorem right_unique (unique : ∀ v w w', names v w → names v w' → w = w')
    (renamed : Renamed names s t) (renamed' : Renamed names s t') : t = t' := by
  induction renamed generalizing t' with
  | nil =>
    cases renamed'
    rfl
  | char other _ ih =>
    cases renamed' with
    | char _ behind => rw [ih behind]
    | placeholder => exact absurd rfl other
  | @placeholder v w s t pair word _ _ ih =>
    obtain ⟨w', r, pair', -, rfl, behind⟩ := exists_of_placeholder word renamed'
    rw [unique v w w' pair pair', ih behind]

/-- If names are paired one to one, renamed texts are equal on both sides or on none. -/
theorem eq_iff_eq (unique : ∀ v w w', names v w → names v w' → w = w')
    (unique' : ∀ v v' w, names v w → names v' w → v = v') (renamed : Renamed names s t)
    (renamed' : Renamed names s' t') : s = s' ↔ t = t' := by
  constructor
  · rintro rfl
    exact renamed.right_unique unique renamed'
  · rintro rfl
    exact renamed.symm.right_unique (fun w v v' => unique' v v' w) renamed'.symm

/-! ### Reading from the start -/

/-- Both texts start with the same characters of a class without the percent sign. -/
theorem takeWhile_eq (renamed : Renamed names s t) {p : Char → Bool} (sign : p '%' = false) :
    s.takeWhile p = t.takeWhile p ∧ Renamed names (s.dropWhile p) (t.dropWhile p) := by
  induction renamed with
  | nil => exact ⟨rfl, .nil⟩
  | @char c s t other behind ih =>
    cases holds : p c with
    | true => simpa [holds] using ih
    | false => simpa [holds] using Renamed.char other behind
  | placeholder pair word word' behind =>
    simpa [sign] using Renamed.placeholder pair word word' behind

theorem trimStart (renamed : Renamed names s t) : Renamed names s.trimStart t.trimStart :=
  (renamed.takeWhile_eq (by decide)).2

theorem trim (renamed : Renamed names s t) : Renamed names s.trim t.trim := by
  refine of_reverse ?_
  rw [Text.trim, Text.trim, trimEnd, trimEnd, List.reverse_reverse, List.reverse_reverse]
  exact renamed.trimStart.reverse.trimStart

/-- The same number of characters leaves both texts if no placeholder is among them. -/
theorem drop (renamed : Renamed names s t) {n : Nat} (free : '%' ∉ s.take n) :
    Renamed names (s.drop n) (t.drop n) := by
  induction renamed generalizing n with
  | nil => simpa using Renamed.nil
  | char other behind ih =>
    cases n with
    | zero => exact .char other behind
    | succ n =>
      rw [List.take_succ_cons, List.mem_cons, not_or] at free
      exact ih free.2
  | placeholder pair word word' behind =>
    cases n with
    | zero => exact .placeholder pair word word' behind
    | succ n => exact absurd (List.mem_cons_self ..) free

/-- A word without percent signs starts both texts or none. -/
theorem rel_after (renamed : Renamed names s t) {same : Char → Char → Bool}
    {after : Text → Text → Option Text} (isAfter : IsAfter same after)
    (foreign : ∀ a ∈ w, same a '%' = false) :
    Option.Rel (Renamed names) (after w s) (after w t) := by
  induction renamed generalizing w with
  | nil =>
    cases w with
    | nil =>
      rw [isAfter.nil]
      exact .some .nil
    | cons a w =>
      rw [isAfter.short]
      exact .none
  | @char c s t other behind ih =>
    cases w with
    | nil =>
      rw [isAfter.nil, isAfter.nil]
      exact .some (.char other behind)
    | cons a w =>
      rw [isAfter.cons, isAfter.cons]
      split
      · exact ih fun b mem => foreign b (List.mem_cons_of_mem a mem)
      · exact .none
  | placeholder pair word word' behind =>
    cases w with
    | nil =>
      rw [isAfter.nil, isAfter.nil]
      exact .some (.placeholder pair word word' behind)
    | cons a w =>
      have differ := foreign a (List.mem_cons_self ..)
      rw [isAfter.cons, isAfter.cons, differ, if_neg Bool.false_ne_true,
        if_neg Bool.false_ne_true]
      exact .none

theorem rel_after? (renamed : Renamed names s t) (ignoreCase : Bool) (free : '%' ∉ w) :
    Option.Rel (Renamed names) (after? ignoreCase w s) (after? ignoreCase w t) := by
  refine renamed.rel_after (isAfter_after? ignoreCase) fun a mem => ?_
  rw [← Bool.not_eq_true]
  intro same
  rw [agree_comm] at same
  exact free (eq_of_agree rfl same ▸ mem)

theorem sameLetters_eq (renamed : Renamed names s t) (free : '%' ∉ w) :
    sameLetters w s = sameLetters w t := by
  rw [sameLetters, sameLetters, Bool.eq_iff_iff, beq_iff_eq, beq_iff_eq]
  rcases exists_of_rel (renamed.rel_after? true free) with
    ⟨missed, missed'⟩ | ⟨rest, rest', behind, found, found'⟩
  · rw [missed, missed']
  · rw [found, found', Option.some_inj, Option.some_inj]
    exact behind.eq_iff List.not_mem_nil

/-- One sign alone, be it a percent sign, is both texts or none. -/
theorem eq_singleton_iff (renamed : Renamed names s t) (c : Char) : s = [c] ↔ t = [c] := by
  by_cases sign : c = '%'
  · subst sign
    cases renamed with
    | nil => exact Iff.rfl
    | char other =>
      exact ⟨fun same => absurd (List.cons.inj same).1 other,
        fun same => absurd (List.cons.inj same).1 other⟩
    | placeholder => simp
  · exact renamed.eq_iff fun mem => sign (List.mem_singleton.1 mem).symm

/-- No percent sign stands between blanks. -/
theorem after?_spacedSign (renamed : Renamed names s t) (ignoreCase : Bool) :
    after? ignoreCase [' ', '%', ' '] s = none := by
  rw [Option.eq_none_iff_forall_ne_some]
  intro front found
  obtain ⟨word, all, rfl⟩ := after?_eq_some_iff.1 found
  rcases all with _ | ⟨first, _ | ⟨second, _ | ⟨third, _⟩⟩⟩
  obtain rfl := eq_of_agree rfl first
  obtain rfl := eq_of_agree rfl second
  obtain rfl := eq_of_agree rfl third
  cases renamed with
  | char _ behind => cases behind.ne_sign ' ' rfl

end Renamed

/-- A relation of renamed texts that holds of their parts too, of the bodies of case distinctions as
they are tokenized, and of every text without percent signs. -/
structure Similarity (names pair : Text → Text → Prop) : Prop where
  renamed : ∀ {s t : Text}, pair s t → Renamed names s t
  part : ∀ {s t x y : Text}, pair s t → x <:+: s → y <:+: t → Renamed names x y → pair x y
  flattened : ∀ {s t : Text}, pair s t → pair (' ' :: s.flattenBlanks) (' ' :: t.flattenBlanks)
  unmarked : ∀ {t : Text}, '%' ∉ t → pair t t

theorem Similarity.trim {names pair : Text → Text → Prop} (similarity : Similarity names pair)
    {s t : Text} (holds : pair s t) : pair s.trim t.trim :=
  similarity.part holds (isInfix_trim s) (isInfix_trim t) (similarity.renamed holds).trim

end RecordMapper.Text
