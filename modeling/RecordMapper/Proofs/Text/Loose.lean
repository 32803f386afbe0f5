import RecordMapper.Proofs.Text.Nested

/-!
Well-nested texts with a condition on what is loose in them.

`NestedWith allows` asks something of every loose character of a well-nested text: of the character
before it and of the text from it on. Nothing is asked inside literals, parentheses and case
distinctions. Words that are ruled out are such a condition (`nestedWith_iff_nested`).

As with `Nested`, what follows such a text does not matter as long as words end there
(`NestedWith.of_stop`), and two of them may stand side by side (`NestedWith.append`).
-/

namespace RecordMapper.Text

/-- Behind the character `before` and in front of the rest, the text is well nested, and every loose
character of it is allowed behind the character before it and in front of what follows. -/
inductive NestedWith (allows : Option Char → Text → Prop) :
    (before : Option Char) → (t : Text) → (rest : Text) → Prop
  | nil {before : Option Char} {rest : Text} : NestedWith allows before [] rest
  | char {before : Option Char} {c : Char} {t rest : Text} (loose : IsLoose c)
    (noCase : startsKeyword caseKeyword before (c :: (t ++ rest)) = false)
    (noEnd : startsKeyword endKeyword before (c :: (t ++ rest)) = false)
    (allowed : allows before (c :: (t ++ rest)))
    (more : NestedWith allows (some c) t rest) : NestedWith allows before (c :: t) rest
  | literal {before : Option Char} {contents t rest : Text}
    (closed : literal? (contents ++ ['"']) = some (contents, []))
    (more : NestedWith allows (some '"') t rest) :
    NestedWith allows before ('"' :: (contents ++ '"' :: t)) rest
  | field {before : Option Char} {name t rest : Text} (reference : IsReference name)
    (more : NestedWith allows (some '\x7d') t rest) :
    NestedWith allows before ('\x7b' :: (name ++ '\x7d' :: t)) rest
  | group {before : Option Char} {contents t rest : Text}
    (enclosed : Nested [] none contents (')' :: (t ++ rest)))
    (more : NestedWith allows (some ')') t rest) :
    NestedWith allows before ('(' :: (contents ++ ')' :: t)) rest
  | case {before : Option Char} {opening body closing t rest : Text}
    (opens : sameLetters caseKeyword opening = true)
    (alone : standsAlone before (body ++ (closing ++ (t ++ rest))).head? = true)
    (enclosed : Nested [] none body (closing ++ (t ++ rest)))
    (closes : sameLetters endKeyword closing = true)
    (alone' : standsAlone (lastFrom none body) (t ++ rest).head? = true)
    (more : NestedWith allows (lastFrom none closing) t rest) :
    NestedWith allows before (opening ++ (body ++ (closing ++ t))) rest

/-- None of the words starts here. -/
def avoids (words : List Text) (before : Option Char) (ahead : Text) : Prop :=
  ∀ word ∈ words, startsWord standsApart word before ahead = false

/-- No word starts with a character that is not a letter. -/
theorem avoids_mark {words : List Text} (letters : ∀ word ∈ words,
    word ≠ [] ∧ ∀ a ∈ word, a.isAlpha = true) {c : Char} (mark : c.isAlpha = false)
    (before : Option Char) (t : Text) : avoids words before (c :: t) := by
  intro word mem
  obtain ⟨nonempty, alpha⟩ := letters word mem
  exact startsWord_cons_of_not_isAlpha nonempty alpha mark before t

variable {allows allows' : Option Char → Text → Prop} {before : Option Char} {t rest rest' : Text}

/-- **Words that are ruled out are a condition on what is loose.** -/
theorem nestedWith_iff_nested {words : List Text} :
    NestedWith (avoids words) before t rest ↔ Nested words before t rest := by
  constructor
  · intro nested
    induction nested with
    | nil => exact .nil
    | char loose noCase noEnd allowed _ ih => exact .char loose noCase noEnd allowed ih
    | literal closed _ ih => exact .literal closed ih
    | field reference _ ih => exact .field reference ih
    | group enclosed _ ih => exact .group enclosed ih
    | case opens alone enclosed closes alone' _ ih =>
      exact .case opens alone enclosed closes alone' ih
  · intro nested
    induction nested with
    | nil => exact .nil
    | char loose noCase noEnd noWord _ ih => exact .char loose noCase noEnd noWord ih
    | literal closed _ ih => exact .literal closed ih
    | field reference _ ih => exact .field reference ih
    | group enclosed _ _ ih => exact .group enclosed ih
    | case opens alone enclosed closes alone' _ _ ih =>
      exact .case opens alone enclosed closes alone' ih

theorem NestedWith.imp (nested : NestedWith allows before t rest)
    (weaker : ∀ {before : Option Char} {ahead : Text}, allows before ahead → allows' before ahead) :
    NestedWith allows' before t rest := by
  induction nested with
  | nil => exact .nil
  | char loose noCase noEnd allowed _ ih => exact .char loose noCase noEnd (weaker allowed) ih
  | literal closed _ ih => exact .literal closed ih
  | field reference _ ih => exact .field reference ih
  | group enclosed _ ih => exact .group enclosed ih
  | case opens alone enclosed closes alone' _ ih =>
    exact .case opens alone enclosed closes alone' ih

/-- What starts with a character that neither opens nor closes anything starts with a loose
one. -/
theorem NestedWith.of_cons {c : Char} (nested : NestedWith allows before (c :: t) rest)
    (loose : IsLoose c) (other : agree true 'C' c = false) :
    startsKeyword endKeyword before (c :: (t ++ rest)) = false ∧ allows before (c :: (t ++ rest))
      ∧ NestedWith allows (some c) t rest := by
  generalize whole : c :: t = x at nested
  cases nested with
  | nil => cases whole
  | char _ _ noEnd allowed more =>
    obtain ⟨rfl, rfl⟩ := List.cons.inj whole
    exact ⟨noEnd, allowed, more⟩
  | literal _ _ => exact absurd (List.cons.inj whole).1 loose.1
  | field _ _ => exact absurd (List.cons.inj whole).1 loose.2.2.2.1
  | group _ _ => exact absurd (List.cons.inj whole).1 loose.2.1
  | case opens _ _ _ _ _ =>
    obtain ⟨d, opening, rfl, first⟩ := exists_cons_of_sameLetters opens
    obtain ⟨rfl, -⟩ := List.cons.inj whole
    rw [first] at other
    cases other

theorem agree_mark {a c : Char} (letter : a.isAlpha = true) (mark : c.isAlpha = false) :
    agree true a c = false := by
  rw [← Bool.not_eq_true]
  intro same
  rw [isAlpha_of_agree letter same] at mark
  cases mark

/-- Behind such characters, the text goes on well nested. -/
theorem NestedWith.behind {front : Text} (nested : NestedWith allows before (front ++ t) rest)
    (plain : ∀ d ∈ front, IsLoose d ∧ agree true 'C' d = false) :
    NestedWith allows (lastFrom before front) t rest := by
  induction front generalizing before with
  | nil => exact nested
  | cons d front ih =>
    obtain ⟨⟨loose, other⟩, others⟩ := List.forall_mem_cons.1 plain
    exact ih (nested.of_cons loose other).2.2 others

/-- A blank opens nothing. -/
theorem isLoose_of_isBlank {c : Char} (blank : isBlank c = true) :
    IsLoose c ∧ agree true 'C' c = false := by
  have loose : IsLoose c := by
    refine ⟨?_, ?_, ?_, ?_, ?_⟩
    all_goals
      rintro rfl
      cases blank
  have mark := not_isAlpha_of_not_word (isAsciiWord_of_isWord (isWord_of_isBlank blank))
  exact ⟨loose, agree_mark rfl mark⟩

/-- Behind blanks, such a character is allowed, too. -/
theorem NestedWith.allowed_behind {front : Text} {c : Char}
    (nested : NestedWith allows before (front ++ c :: t) rest)
    (blank : ∀ d ∈ front, isBlank d = true) (loose : IsLoose c)
    (other : agree true 'C' c = false) : ∃ before, allows before (c :: (t ++ rest)) := by
  have behind := nested.behind fun d mem => isLoose_of_isBlank (blank d mem)
  exact ⟨_, (behind.of_cons loose other).2.1⟩

/-- No well-nested text starts with the keyword that closes a case distinction. -/
theorem NestedWith.not_startsKeyword (nested : NestedWith allows before t rest)
    (nonempty : t ≠ []) : startsKeyword endKeyword before (t ++ rest) = false := by
  have mark : ∀ {c : Char} (t : Text), c.isAlpha = false →
      startsKeyword endKeyword before (c :: t) = false := fun t mark =>
    startsKeyword_cons_of_not_isAlpha (by simp [endKeyword]) letters_endKeyword mark t
  cases nested with
  | nil => exact absurd rfl nonempty
  | char _ _ noEnd _ _ => exact noEnd
  | literal _ _ => exact mark _ rfl
  | field _ _ => exact mark _ rfl
  | group _ _ => exact mark _ rfl
  | case opens _ _ _ _ _ =>
    obtain ⟨c, opening, rfl, same⟩ := exists_cons_of_sameLetters opens
    have differ : agree true 'E' c = false := (agree_congr same 'E').symm
    show startsKeyword ('E' :: ['N', 'D']) before (c :: _) = false
    rw [startsKeyword, after?, if_neg (Bool.not_eq_true _ ▸ differ)]

/-! ### What stands around -/

/-- A text in which nothing is ruled out is well nested also in front of another rest at which words
end. -/
theorem Nested.change_rest {x : Text} (nested : Nested [] before t (x ++ rest)) (stop : IsStop rest)
    (stop' : IsStop rest') : Nested [] before t (x ++ rest') :=
  nested.of_stop stop stop' nofun

/-- Keywords stand on their own in front of one stop exactly if they do in front of another. -/
theorem IsStop.standsAlone_congr (stop : IsStop rest) (stop' : IsStop rest')
    (before : Option Char) (x : Text) :
    standsAlone before (x ++ rest).head? = standsAlone before (x ++ rest').head? := by
  cases x with
  | nil => rw [List.nil_append, List.nil_append, stop.standsAlone_eq, stop'.standsAlone_eq]
  | cons c x => rfl

theorem IsStop.startsKeyword_congr (stop : IsStop rest) (stop' : IsStop rest') {keyword : Text}
    (letters : ∀ a ∈ keyword, a.isAlpha = true) (before : Option Char) (x : Text) :
    startsKeyword keyword before (x ++ rest) = startsKeyword keyword before (x ++ rest') :=
  stop.startsWord_append stop' (fun before => stop.standsAlone_congr stop' before []) letters
    before x

/-- The same words start in front of one stop as in front of another. -/
theorem IsStop.avoids_congr (stop : IsStop rest) (stop' : IsStop rest') {words : List Text}
    (letters : ∀ word ∈ words, ∀ a ∈ word, a.isAlpha = true) (before : Option Char) (x : Text) :
    avoids words before (x ++ rest) ↔ avoids words before (x ++ rest') := by
  have same : ∀ before, standsApart before rest.head? = standsApart before rest'.head? := by
    intro before
    rw [stop.standsApart_eq, stop'.standsApart_eq]
  refine forall₂_congr fun word mem => ?_
  rw [stop.startsWord_append stop' same (letters word mem)]

/-- **What follows does not matter**, as long as words end there and what was allowed still is. -/
theorem NestedWith.of_stop (nested : NestedWith allows before t rest) (stop : IsStop rest)
    (stop' : IsStop rest')
    (allowed : ∀ {before : Option Char} {c : Char} {t : Text}, allows before (c :: (t ++ rest)) →
      NestedWith allows (some c) t rest → allows' before (c :: (t ++ rest'))) :
    NestedWith allows' before t rest' := by
  generalize context : rest = ahead at nested
  induction nested with
  | nil => exact .nil
  | @char before c t _ loose noCase noEnd allowed' more ih =>
    subst context
    refine .char loose ?_ ?_ (allowed allowed' more) (ih rfl)
    · rw [← List.cons_append, ← stop.startsKeyword_congr stop' letters_caseKeyword]
      exact noCase
    · rw [← List.cons_append, ← stop.startsKeyword_congr stop' letters_endKeyword]
      exact noEnd
  | literal closed _ ih => exact .literal closed (ih context)
  | field reference _ ih => exact .field reference (ih context)
  | @group _ contents t _ enclosed _ ih =>
    subst context
    have enclosed' : Nested [] none contents (')' :: t ++ rest') :=
      Nested.change_rest enclosed stop stop'
    exact .group enclosed' (ih rfl)
  | @case _ opening body closing t _ opens alone enclosed closes alone' _ ih =>
    subst context
    have split : ∀ r : Text, closing ++ (t ++ r) = closing ++ t ++ r := by simp
    refine .case opens ?_ ?_ closes ?_ (ih rfl)
    · rw [split, ← List.append_assoc] at alone ⊢
      rwa [← stop.standsAlone_congr stop']
    · rw [split] at enclosed ⊢
      exact enclosed.change_rest stop stop'
    · rwa [← stop.standsAlone_congr stop']

/-- What stands before does not matter either, if keywords can stand on their own behind it just as
well and what was allowed still is. -/
theorem NestedWith.of_before {before' : Option Char} (nested : NestedWith allows before t rest)
    (alike : ∀ behind, standsAlone before behind = standsAlone before' behind)
    (allowed : ∀ {ahead : Text}, allows before ahead → allows before' ahead) :
    NestedWith allows before' t rest := by
  have keyword : ∀ k u, startsKeyword k before u = startsKeyword k before' u := by
    intro k u
    unfold startsKeyword
    split
    · exact alike _
    · rfl
  cases nested with
  | nil => exact .nil
  | char loose noCase noEnd allowed' more =>
    rw [keyword] at noCase noEnd
    exact .char loose noCase noEnd (allowed allowed') more
  | literal closed more => exact .literal closed more
  | field reference more => exact .field reference more
  | group enclosed more => exact .group enclosed more
  | case opens alone enclosed closes alone' more =>
    rw [alike] at alone
    exact .case opens alone enclosed closes alone' more

/-- **Two such texts may stand side by side.** -/
theorem NestedWith.append {x y : Text} (front : NestedWith allows before x (y ++ rest))
    (back : NestedWith allows (lastFrom before x) y rest) :
    NestedWith allows before (x ++ y) rest := by
  generalize context : y ++ rest = ahead at front
  induction front with
  | nil => exact back
  | @char before c t _ loose noCase noEnd allowed _ ih =>
    subst context
    rw [← List.append_assoc] at noCase noEnd allowed
    exact .char loose noCase noEnd allowed (ih back rfl)
  | @literal before contents t _ closed _ ih =>
    rw [lastFrom_enclosed] at back
    have joined := @NestedWith.literal _ before _ _ _ closed (ih back context)
    simpa using joined
  | @field before name t _ reference _ ih =>
    rw [lastFrom_enclosed] at back
    have joined := @NestedWith.field _ before _ _ _ reference (ih back context)
    simpa using joined
  | @group before contents t _ enclosed _ ih =>
    subst context
    rw [lastFrom_enclosed] at back
    rw [← List.append_assoc] at enclosed
    have joined := @NestedWith.group _ before _ _ _ enclosed (ih back rfl)
    simpa using joined
  | @case before opening body closing t _ opens alone enclosed closes alone' _ ih =>
    subst context
    obtain ⟨c, more, rfl, -⟩ := exists_cons_of_sameLetters closes
    have last : lastFrom before (opening ++ (body ++ (c :: more ++ t)))
        = lastFrom (lastFrom none (c :: more)) t := by
      rw [lastFrom_append, lastFrom_append, lastFrom_append]
      rfl
    rw [last] at back
    rw [← List.append_assoc t] at alone enclosed alone'
    have joined := NestedWith.case opens alone enclosed closes alone' (ih back rfl)
    simpa using joined

/-- A character that opens nothing may stand in front, if it is allowed and no keyword starts with
it. -/
theorem NestedWith.cons_mark {c : Char} (loose : IsLoose c) (mark : c.isAlpha = false)
    (allowed : allows before (c :: (t ++ rest))) (more : NestedWith allows (some c) t rest) :
    NestedWith allows before (c :: t) rest :=
  .char loose (startsKeyword_cons_of_not_isAlpha (by simp [caseKeyword]) letters_caseKeyword mark _)
    (startsKeyword_cons_of_not_isAlpha (by simp [endKeyword]) letters_endKeyword mark _) allowed more

/-- **All that is loose in a well-nested text is allowed, or there is a first character that is
not.** -/
theorem nestedWith_or_exists (allows : Option Char → Text → Prop) (nested : Nested [] before t rest) :
    NestedWith allows before t rest ∨ ∃ x c y, t = x ++ c :: y
      ∧ NestedWith allows before x (c :: (y ++ rest))
      ∧ ¬ allows (lastFrom before x) (c :: (y ++ rest)) ∧ Nested [] (some c) y rest := by
  have plain := nestedWith_iff_nested.2 nested
  clear nested
  induction plain with
  | nil => exact .inl .nil
  | @char before c t rest loose noCase noEnd _ more ih =>
    by_cases allowed : allows before (c :: (t ++ rest))
    · rcases ih with all | ⟨x, d, y, rfl, front, stop, back⟩
      · exact .inl (.char loose noCase noEnd allowed all)
      · have split : x ++ d :: y ++ rest = x ++ d :: (y ++ rest) := by simp
        rw [split] at noCase noEnd allowed
        exact .inr ⟨c :: x, d, y, rfl, .char loose noCase noEnd allowed front, stop, back⟩
    · exact .inr ⟨[], c, t, rfl, .nil, allowed, nestedWith_iff_nested.1 more⟩
  | @literal before contents t rest closed _ ih =>
    rcases ih with all | ⟨x, d, y, rfl, front, stop, back⟩
    · exact .inl (.literal closed all)
    · rw [← lastFrom_enclosed before '"' '"' contents] at stop
      exact .inr ⟨'"' :: (contents ++ '"' :: x), d, y, by simp, .literal closed front, stop, back⟩
  | @field before name t rest reference _ ih =>
    rcases ih with all | ⟨x, d, y, rfl, front, stop, back⟩
    · exact .inl (.field reference all)
    · rw [← lastFrom_enclosed before '\x7b' '\x7d' name] at stop
      exact .inr ⟨'\x7b' :: (name ++ '\x7d' :: x), d, y, by simp, .field reference front, stop,
        back⟩
  | @group before contents t rest enclosed _ ih =>
    rcases ih with all | ⟨x, d, y, rfl, front, stop, back⟩
    · exact .inl (.group enclosed all)
    · rw [← lastFrom_enclosed before '(' ')' contents] at stop
      rw [List.append_assoc] at enclosed
      exact .inr ⟨'(' :: (contents ++ ')' :: x), d, y, by simp, .group enclosed front, stop, back⟩
  | @case before opening body closing t rest opens alone enclosed closes alone' _ ih =>
    rcases ih with all | ⟨x, d, y, rfl, front, stop, back⟩
    · exact .inl (.case opens alone enclosed closes alone' all)
    · obtain ⟨c, more, rfl, -⟩ := exists_cons_of_sameLetters closes
      have last : lastFrom before (opening ++ (body ++ (c :: more ++ x)))
          = lastFrom (lastFrom none (c :: more)) x := by
        rw [lastFrom_append, lastFrom_append, lastFrom_append]
        rfl
      rw [← last] at stop
      rw [List.append_assoc] at alone enclosed alone'
      exact .inr ⟨opening ++ (body ++ (c :: more ++ x)), d, y, by simp,
        .case opens alone enclosed closes alone' front, stop, back⟩

/-! ### Spelled texts -/

/-- None of the words starts anywhere in the text, in any letter case and however it goes on. -/
def rulesOut (words : List Text) : Text → Bool
  | [] => true
  | c :: t => words.all (fun word => diverges false true word (c :: t)) && rulesOut words t

theorem isLoose_of_agree {a c : Char} (loose : IsLoose a) (same : agree true a c = true) :
    IsLoose c := by
  by_cases letter : a.isAlpha = true
  · exact (isInert_of_isAlpha (isAlpha_of_agree letter same)).ne
  · obtain rfl := eq_of_agree (Bool.not_eq_true _ ▸ letter) same
    exact loose

/-- **What is spelled with loose characters is loose, in any letter case**, if no keyword of case
distinctions starts in it. None of the words that are ruled out starts in it either. -/
theorem nestedWith_of_rulesOut {words : List Text} {x y : Text}
    (spelled : List.Forall₂ (fun a b => agree true a b = true) x y) (loose : ∀ a ∈ x, IsLoose a)
    (out : rulesOut (caseKeyword :: endKeyword :: words) x = true) :
    NestedWith (fun _ ahead => ∀ word ∈ words, after? true word ahead = none) before y rest := by
  induction spelled generalizing before with
  | nil => exact .nil
  | @cons a c x y same others ih =>
    obtain ⟨first, loose⟩ := List.forall_mem_cons.1 loose
    rw [rulesOut, Bool.and_eq_true, List.all_eq_true] at out
    obtain ⟨here, out⟩ := out
    have differ : ∀ word ∈ caseKeyword :: endKeyword :: words,
        diverges false true word (c :: y) = true := by
      intro word mem
      rw [← diverges_congr (.cons same others)]
      exact here word mem
    obtain ⟨noCase, noEnd, differ⟩ := by simpa only [List.forall_mem_cons] using differ
    refine .char (isLoose_of_agree first same) ?_ ?_ (fun word mem => ?_) (ih loose out)
    · exact startsKeyword_append_of_diverges noCase before rest
    · exact startsKeyword_append_of_diverges noEnd before rest
    · exact after?_append_of_diverges (differ word mem) nofun

end RecordMapper.Text
