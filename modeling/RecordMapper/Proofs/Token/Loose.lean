import RecordMapper.Proofs.Text.Loose
import RecordMapper.Proofs.Token.Nested

/-!
What the tokenizers pass over in well-nested text.

Every span of a well-nested text is taken whole, so a tokenizer can only divide it at its loose
characters. A `Watch` says what has to be known of the text read last so that no separator ends at
the next loose character, and how that knowledge goes on. **Well-nested text whose loose characters
keep to a watch becomes part of the current token** (`Separation.passes_nested`), unless
parenthesized text in it is taken out as a group of conditions.
-/

namespace RecordMapper.Separation

open Text

/-- What is known of the text read last, its last character first, and of the text ahead: behind an
allowed loose character it is still known and no separator ends there, and behind every span it
holds again. -/
structure Watch (s : Separation) (allows : Option Char → Text → Prop) where
  calm : (seen ahead : Text) → Prop
  step : ∀ {seen : Text} {c : Char} {ahead : Text}, IsLoose c → allows seen.head? (c :: ahead) →
    calm seen (c :: ahead) → calm (c :: seen) ahead
  misses : ∀ {seen : Text} {c : Char} {ahead : Text}, IsLoose c →
    allows seen.head? (c :: ahead) → calm seen (c :: ahead) →
      ∀ separator ∈ s.separators, after? s.ignoreCase separator.reverse (c :: seen) = none
  mark : ∀ {c : Char}, c ∈ ['"', '\x7d', ')'] → ∀ seen ahead, calm (c :: seen) ahead
  ending : ∀ {closing : Text}, sameLetters endKeyword closing = true → ∀ seen ahead,
    calm (closing.reverse ++ seen) ahead

/-- No text in parentheses inside this one is taken for a group of conditions. -/
def Ungrouped (allows : Option Char → Text → Prop) (seen t rest : Text) : Prop :=
  ∀ front contents back, t = front ++ '(' :: (contents ++ ')' :: back) →
    Nested [] none contents (')' :: (back ++ rest)) → NestedWith allows (some ')') back rest →
      Connected.isGroup (seen.reverse ++ front) (back ++ rest) = false

theorem Ungrouped.behind {allows : Option Char → Text → Prop} {seen x t rest : Text}
    (ungrouped : Ungrouped allows seen (x ++ t) rest) :
    Ungrouped allows (x.reverse ++ seen) t rest := by
  rintro front contents back rfl enclosed more
  have blocked := ungrouped (x ++ front) contents back (by simp) enclosed more
  simpa using blocked

section Passing

variable {s : Separation} {allows : Option Char → Text → Prop} {w : s.Watch allows}
  {t : Tokenizer} {inner : Text → List Token} {seen : Text}

/-- Nothing read last begins a keyword that opens a case distinction, and the watch is kept. -/
structure Watch.Quiet (w : s.Watch allows) (seen ahead : Text) : Prop where
  distinction : Unbegun standsAlone caseKeyword seen ahead
  calm : w.calm seen ahead

theorem Watch.quiet_of_mark {c : Char} (mark : c ∈ ['"', '\x7d', ')']) (seen ahead : Text) :
    w.Quiet (c :: seen) ahead := by
  refine ⟨unbegun_of_mark letters_caseKeyword ?_ seen ahead, w.mark mark seen ahead⟩
  simp only [List.mem_cons, List.not_mem_nil, or_false] at mark
  rcases mark with rfl | rfl | rfl
  all_goals rfl

theorem Watch.quiet_of_end {closing : Text} (closes : sameLetters endKeyword closing = true)
    (seen ahead : Text) : w.Quiet (closing.reverse ++ seen) ahead where
  distinction := unbegun_of_end (by decide) (by simp [endKeyword, agree]) (by simp [agree]) closes
    seen ahead
  calm := w.ending closes seen ahead

/-- The text is passed, and behind it no keyword was begun and the watch is kept. -/
structure Watch.Passed (w : s.Watch allows) (t : Tokenizer) (inner : Text → List Token)
    (seen x rest : Text) : Prop where
  passes : t.Passes inner seen x rest
  quiet : w.Quiet (x.reverse ++ seen) rest

theorem Watch.Passed.append {x y rest : Text} (first : t.Passes inner seen x (y ++ rest))
    (more : w.Passed t inner (x.reverse ++ seen) y rest) : w.Passed t inner seen (x ++ y) rest := by
  refine ⟨first.append more.passes, ?_⟩
  rw [List.reverse_append, List.append_assoc]
  exact more.quiet

/-- Behind a span that ends in a mark, everything starts anew. -/
theorem Watch.Passed.behind_mark {x y rest : Text} {c : Char} (mark : c ∈ ['"', '\x7d', ')'])
    (first : t.Passes inner seen (x ++ [c]) (y ++ rest))
    (more : some c = (c :: (x.reverse ++ seen)).head? →
      w.Quiet (c :: (x.reverse ++ seen)) (y ++ rest) →
        w.Passed t inner (c :: (x.reverse ++ seen)) y rest) :
    w.Passed t inner seen (x ++ [c] ++ y) rest := by
  have reversed : (x ++ [c]).reverse ++ seen = c :: (x.reverse ++ seen) := by simp
  refine .append first ?_
  rw [reversed]
  exact more rfl (quiet_of_mark mark _ _)

theorem head?_reverse_append {x : Text} (nonempty : x ≠ []) (seen : Text) :
    (x.reverse ++ seen).head? = lastFrom none x := by
  obtain ⟨y, c, rfl⟩ := (List.eq_nil_or_concat x).resolve_left nonempty
  simp

variable (layout : t.symbols = s.symbols) (closed : s.closed = true)
include layout

/-- A loose character is passed, if neither a separator nor the keyword of a case distinction ends
there. -/
theorem passes_loose {c : Char} {rest : Text} (loose : IsLoose c)
    (allowed : allows seen.head? (c :: rest)) (quiet : w.Quiet seen (c :: rest))
    (noCase : startsKeyword caseKeyword seen.head? (c :: rest) = false) :
    t.Passes inner seen [c] rest := by
  apply Tokenizer.passes_of_firstMatch?_eq_none
  refine firstMatch?_eq_none layout (after?_cons_eq_none rfl loose.1.symm [] seen)
    (fun before found => ?_) (after?_cons_eq_none rfl loose.2.1.symm [] seen)
    (w.misses loose allowed quiet.calm)
  exact (quiet.distinction.cons noCase).free_eq_false (by simp [caseKeyword]) found

include closed

/-- **Well-nested text is passed**, if its loose characters keep to the watch and nothing in it is
taken for a group of conditions. -/
theorem passes_nested {before : Option Char} {x rest : Text}
    (nested : NestedWith allows before x rest) (last : before = seen.head?)
    (quiet : w.Quiet seen (x ++ rest)) (ungrouped : s.groups = true → Ungrouped allows seen x rest) :
    w.Passed t inner seen x rest := by
  induction nested generalizing seen with
  | nil => exact ⟨.nil _, quiet⟩
  | @char _ c x rest loose noCase noEnd allowed _ ih =>
    subst last
    have first : t.Passes inner seen [c] (x ++ rest) :=
      passes_loose layout loose allowed quiet noCase
    have quiet' : w.Quiet (c :: seen) (x ++ rest) :=
      ⟨quiet.distinction.cons noCase, w.step loose allowed quiet.calm⟩
    exact .append first (ih rfl quiet' fun groups => (ungrouped groups).behind (x := [c]))
  | @literal _ contents x rest closes _ ih =>
    have split : '"' :: (contents ++ '"' :: x) = '"' :: contents ++ ['"'] ++ x := by simp
    rw [split] at ungrouped ⊢
    refine .behind_mark (by simp) (passes_closed layout closes _ _) fun last quiet => ?_
    refine ih last quiet fun groups => ?_
    simpa using (ungrouped groups).behind
  | @field _ name x rest reference _ ih =>
    have split : '\x7b' :: (name ++ '\x7d' :: x) = '\x7b' :: name ++ ['\x7d'] ++ x := by simp
    rw [split] at ungrouped ⊢
    refine .behind_mark (by simp) ?_ fun last quiet => ih last quiet fun groups => ?_
    · refine .cons (passes_mark layout closed (by simp [IsPlain]) rfl _) ?_
      refine .append (passes_reference layout closed reference _) ?_
      exact passes_mark layout closed (by simp [IsPlain]) rfl _
    · simpa using (ungrouped groups).behind
  | @group _ contents x rest enclosed more ih =>
    have blocked := fun groups => ungrouped groups [] contents x rfl enclosed more
    have split : '(' :: (contents ++ ')' :: x) = '(' :: contents ++ [')'] ++ x := by simp
    rw [split] at ungrouped ⊢
    refine .behind_mark (by simp) ?_ fun last quiet => ih last quiet fun groups => ?_
    · refine passes_parenthesized layout ?_ fun groups => by simpa using blocked groups
      exact fun parenthesized => parenthesized.close?_nested enclosed
    · simpa using (ungrouped groups).behind
  | @case _ opening body closing x rest opens alone enclosed closes alone' _ ih =>
    subst last
    have nonempty : closing ≠ [] := by
      obtain ⟨c, more, rfl, -⟩ := exists_cons_of_sameLetters closes
      exact List.cons_ne_nil c more
    have split : opening ++ (body ++ (closing ++ x)) = opening ++ (body ++ closing) ++ x := by simp
    have joined : body ++ closing ++ (x ++ rest) = body ++ (closing ++ (x ++ rest)) := by simp
    have reversed : (opening ++ (body ++ closing)).reverse ++ seen
        = closing.reverse ++ (body.reverse ++ (opening.reverse ++ seen)) := by simp
    have found : ∀ {s : Span}, s.IsCase → s.close? (body ++ closing ++ (x ++ rest))
        = some (body, x ++ rest) := by
      intro s distinction
      rw [joined]
      exact distinction.close?_nested enclosed closes alone'
    rw [split] at ungrouped ⊢
    refine .append (passes_distinction layout closed opens ?_ found) ?_
    · rw [joined]
      exact alone
    · rw [reversed]
      refine ih (head?_reverse_append nonempty _).symm (Watch.quiet_of_end closes _ _)
        fun groups => ?_
      rw [← reversed]
      exact (ungrouped groups).behind

end Passing

end RecordMapper.Separation
