import RecordMapper.Proofs.Text.Scans

/-!
Well-nested texts, raw ones included.

A text is well nested (`Nested`) if it is a sequence of loose characters, closed literals, field
references, parenthesized texts and case distinctions, the last two well nested inside, and holds no
other keyword of case distinctions. Nothing is asked of what stands between: it need not be an
expression. Further words can be ruled out among the loose characters.

Whether a keyword stands on its own depends on what follows, so `Nested` is told of a text in front
of the rest; any two rests at which words end do (`Nested.of_stop`).

A `Scan` is thorough if it takes every loose character by itself, every closed literal as a whole,
and the keywords of case distinctions in any letter case. **A thorough scan passes over well-nested
text** (`Scan.Thorough.reads_nested`).
-/

namespace RecordMapper.Text

/-! ### Words at the start of a text -/

/-- The text starts with the word, in any letter case, and the characters on both sides of it are
such that it counts. -/
def startsWord (free : Option Char → Option Char → Bool) (word : Text) (before : Option Char)
    (t : Text) : Bool :=
  match after? true word t with
  | some rest => free before rest.head?
  | none => false

/-- No word character of any script touches what stands between these characters. -/
def standsApart (before behind : Option Char) : Bool :=
  before.all (fun c => !isWord c) && behind.all fun c => !isWord c

/-- Words end in front of this text: it is empty, or starts with no word character and no closing
brace. -/
def IsStop (rest : Text) : Prop :=
  ∀ c ∈ rest.head?, isWord c = false ∧ c ≠ '\x7d'

theorem isStop_nil : IsStop [] := by
  intro c none
  cases none

theorem isStop_cons {c : Char} (other : isWord c = false) (brace : c ≠ '\x7d') (t : Text) :
    IsStop (c :: t) := by
  intro d same
  cases same
  exact ⟨other, brace⟩

theorem isAsciiWord_of_isWord {c : Char} (other : isWord c = false) : isAsciiWord c = false := by
  by_contra word
  rw [isWord_of_isAsciiWord (Bool.not_eq_false _ ▸ word)] at other
  cases other

section Stops

variable {rest rest' : Text} (stop : IsStop rest) (stop' : IsStop rest')
include stop

theorem IsStop.isAlpha : ∀ c ∈ rest.head?, c.isAlpha = false :=
  fun c mem => not_isAlpha_of_not_word (isAsciiWord_of_isWord (stop c mem).1)

theorem IsStop.standsAlone_eq (before : Option Char) :
    standsAlone before rest.head? = standsAlone before none := by
  have free : rest.head?.all mayFollowKeyword = true := by
    rw [Option.all_eq_true]
    intro c mem
    obtain ⟨other, brace⟩ := stop c mem
    simp [mayFollowKeyword, isAsciiWord_of_isWord other, brace]
  rw [standsAlone, free]
  rfl

theorem IsStop.standsApart_eq (before : Option Char) :
    standsApart before rest.head? = standsApart before none := by
  have free : (rest.head?.all fun c => !isWord c) = true := by
    rw [Option.all_eq_true]
    intro c mem
    rw [(stop c mem).1]
    rfl
  rw [standsApart, free]
  rfl

/-- A word does not go on where words end. -/
theorem IsStop.after?_append {word : Text} (letters : ∀ a ∈ word, a.isAlpha = true) (t : Text) :
    after? true word (t ++ rest) = (after? true word t).map (· ++ rest) := by
  induction word generalizing t with
  | nil => rfl
  | cons a word ih =>
    obtain ⟨first, others⟩ := List.forall_mem_cons.1 letters
    cases t with
    | nil =>
      cases rest with
      | nil => rfl
      | cons c rest =>
        have differ : ¬ agree true a c = true := by
          intro same
          have letter := isAlpha_of_agree first same
          rw [stop.isAlpha c rfl] at letter
          cases letter
        have missed : after? true (a :: word) (c :: rest) = none := by rw [after?, if_neg differ]
        rw [List.nil_append, missed]
        rfl
    | cons b t =>
      rw [List.cons_append, after?, after?, ih others]
      split <;> rfl

include stop'

/-- Whether a text starts with a word does not depend on what follows, as long as words end
there. -/
theorem IsStop.startsWord_append {free : Option Char → Option Char → Bool}
    (same : ∀ before, free before rest.head? = free before rest'.head?) {word : Text}
    (letters : ∀ a ∈ word, a.isAlpha = true) (before : Option Char) (t : Text) :
    startsWord free word before (t ++ rest) = startsWord free word before (t ++ rest') := by
  unfold startsWord
  rw [stop.after?_append letters, stop'.after?_append letters]
  cases after? true word t with
  | none => rfl
  | some more =>
    cases more with
    | nil => exact same before
    | cons c more => rfl

end Stops

/-- No word starts with a character that is not a letter. -/
theorem startsWord_cons_of_not_isAlpha {free : Option Char → Option Char → Bool} {word : Text}
    (nonempty : word ≠ []) (letters : ∀ a ∈ word, a.isAlpha = true) {c : Char}
    (other : c.isAlpha = false) (before : Option Char) (t : Text) :
    startsWord free word before (c :: t) = false := by
  obtain ⟨a, word, rfl⟩ := List.exists_cons_of_ne_nil nonempty
  have differ : ¬ agree true a c = true := by
    intro same
    have letter := isAlpha_of_agree (letters a (List.mem_cons_self ..)) same
    rw [other] at letter
    cases letter
  rw [startsWord, after?, if_neg differ]

/-! ### Words that were begun -/

/-- None of the characters read last begins a word that counts and reaches up to here or goes on
ahead; `seen` has the last of them first. -/
def Unbegun (free : Option Char → Option Char → Bool) (word seen ahead : Text) : Prop :=
  ∀ x before, seen = x.reverse ++ before → x ≠ [] → x.length ≤ word.length →
    startsWord free word before.head? (x ++ ahead) = false

section Unbegun

variable {free : Option Char → Option Char → Bool} {word seen ahead : Text}

theorem unbegun_nil : Unbegun free word [] ahead := by
  intro x before same nonempty
  obtain ⟨reversed, -⟩ := List.append_eq_nil_iff.1 same.symm
  exact absurd (List.reverse_eq_nil_iff.1 reversed) nonempty

/-- Behind one more character, a word may have begun there or before. -/
theorem Unbegun.cons {c : Char} (unbegun : Unbegun free word seen (c :: ahead))
    (starts : startsWord free word seen.head? (c :: ahead) = false) :
    Unbegun free word (c :: seen) ahead := by
  intro x before same nonempty le
  obtain ⟨y, d, rfl⟩ := (List.eq_nil_or_concat x).resolve_left nonempty
  rw [List.concat_eq_append] at same le ⊢
  rw [List.reverse_append] at same
  obtain ⟨rfl, rfl⟩ := List.cons.inj same
  rw [List.length_append] at le
  rw [List.append_assoc]
  cases y with
  | nil => exact starts
  | cons e y => exact unbegun (e :: y) before rfl (List.cons_ne_nil e y) (Nat.le_of_succ_le le)

/-- A word that was read last does not count. -/
theorem Unbegun.free_eq_false (unbegun : Unbegun free word seen ahead) (nonempty : word ≠ [])
    {before : Text} (found : after? true word.reverse seen = some before) :
    free before.head? ahead.head? = false := by
  obtain ⟨x, all, rfl⟩ := after?_eq_some_iff.1 found
  have spelled := List.forall₂_reverse_iff.2 all
  rw [List.reverse_reverse] at spelled
  have length := spelled.length_eq
  have missed := unbegun x.reverse before (by rw [List.reverse_reverse])
    (fun empty => nonempty (List.length_eq_zero_iff.1 (by rw [length, empty]; rfl)))
    (Nat.le_of_eq length.symm)
  rw [startsWord, after?_eq_some_iff.2 ⟨x.reverse, spelled, rfl⟩] at missed
  exact missed

/-- No word goes on behind a character that is no letter. -/
theorem unbegun_of_mark (letters : ∀ a ∈ word, a.isAlpha = true) {c : Char}
    (mark : c.isAlpha = false) (seen ahead : Text) : Unbegun free word (c :: seen) ahead := by
  intro x before same nonempty le
  obtain ⟨y, d, rfl⟩ := (List.eq_nil_or_concat x).resolve_left nonempty
  rw [List.concat_eq_append] at same le ⊢
  rw [List.reverse_append] at same
  obtain ⟨rfl, -⟩ := List.cons.inj same
  unfold startsWord
  split
  · rename_i rest found
    obtain ⟨front, all, split⟩ := after?_eq_some_iff.1 found
    have inside : c ∈ front := by
      have reaches : y ++ [c] <+: front :=
        List.prefix_of_prefix_length_le (List.prefix_append _ ahead)
          (split ▸ List.prefix_append front rest) (all.length_eq ▸ le)
      exact reaches.subset (by simp)
    obtain ⟨a, mem, same⟩ := exists_agree_of_mem all inside
    rw [isAlpha_of_agree (letters a mem) same] at mark
    cases mark
  · rfl

/-- A word does not start with a character that disagrees with its first one. -/
theorem startsWord_cons_of_differ {a c : Char} (differ : agree true a c = false)
    (before : Option Char) (t : Text) : startsWord free (a :: word) before (c :: t) = false := by
  rw [startsWord, after?, if_neg (ne_true_of_eq_false differ)]

/-- A word in another letter case starts with the same letter. -/
theorem exists_cons_of_sameLetters {a : Char} {word x : Text}
    (same : sameLetters (a :: word) x = true) :
    ∃ c more, x = c :: more ∧ agree true a c = true := by
  have all := sameLetters_iff.1 same
  cases all with
  | @cons _ c _ more first _ => exact ⟨c, more, rfl, first⟩

/-- No word of at most four letters goes on behind the keyword that ends a case distinction, if it
starts with none of the letters in it, nor with another letter and an `E`. -/
theorem unbegun_of_end {a : Char} (short : word.length ≤ 3)
    (first : ∀ d ∈ endKeyword, agree true a d = false)
    (second : ∀ b ∈ word.head?, agree true b 'E' = false) {closing : Text}
    (closes : sameLetters endKeyword closing = true) (seen ahead : Text) :
    Unbegun free (a :: word) (closing.reverse ++ seen) ahead := by
  have all := sameLetters_iff.1 closes
  have length := all.length_eq
  have within : ∀ {c : Char} (before : Option Char) (t : Text), c ∈ closing →
      startsWord free (a :: word) before (c :: t) = false := by
    intro c before t mem
    obtain ⟨k, member, same⟩ := exists_agree_of_mem all mem
    exact startsWord_cons_of_differ ((agree_congr same a).symm.trans (first k member)) before t
  intro x before same nonempty le
  obtain ⟨c, x, rfl⟩ := List.exists_cons_of_ne_nil nonempty
  rcases List.append_eq_append_iff.1 same with ⟨more, split, -⟩ | ⟨more, split, -⟩
  · -- the word would begin in front of the keyword, or with it
    have whole : c :: x = more.reverse ++ closing := by
      rw [← List.reverse_reverse (c :: x), split, List.reverse_append, List.reverse_reverse]
    obtain ⟨e, closing', rfl, last⟩ := exists_cons_of_sameLetters closes
    cases front : more.reverse with
    | nil =>
      rw [front, List.nil_append] at whole
      exact within _ _ (whole ▸ List.mem_cons_self ..)
    | cons d others =>
      rw [front, List.cons_append] at whole
      obtain ⟨rfl, rfl⟩ := List.cons.inj whole
      have size : endKeyword.length = 3 := rfl
      simp only [List.length_cons, List.length_append] at le length
      obtain rfl : others = [] := List.length_eq_zero_iff.1 (by omega)
      obtain ⟨b, word, rfl⟩ : ∃ b more, word = b :: more :=
        List.exists_cons_of_length_pos (by omega)
      have differ : agree true b e = false := (agree_congr last b).symm.trans (second b rfl)
      have missed : after? true (b :: word) (e :: (closing' ++ ahead)) = none := by
        rw [after?, if_neg (ne_true_of_eq_false differ)]
      rw [startsWord, List.nil_append, List.cons_append, List.cons_append, after?, missed, ite_self]
  · have whole : closing = more.reverse ++ c :: x := by
      rw [← List.reverse_reverse closing, split, List.reverse_append, List.reverse_reverse]
    exact within _ _ (by simp [whole])

end Unbegun

/-! ### Well-nested texts -/

/-- A character that opens and closes nothing. -/
def IsLoose (c : Char) : Prop :=
  c ≠ '"' ∧ c ≠ '(' ∧ c ≠ ')' ∧ c ≠ '\x7b' ∧ c ≠ '\x7d'

instance (c : Char) : Decidable (IsLoose c) :=
  inferInstanceAs (Decidable (_ ∧ _))

/-- Behind the character `before` and in front of the rest, the text is a sequence of loose
characters, closed literals, field references, parenthesized texts and case distinctions, the last
two nested like this inside. No loose character starts a keyword of case distinctions, or one of the
words where these are ruled out: outside literals, parentheses and case distinctions. -/
inductive Nested :
    (words : List Text) → (before : Option Char) → (t : Text) → (rest : Text) → Prop
  | nil {words : List Text} {before : Option Char} {rest : Text} : Nested words before [] rest
  | char {words : List Text} {before : Option Char} {c : Char} {t rest : Text} (loose : IsLoose c)
    (noCase : startsKeyword caseKeyword before (c :: (t ++ rest)) = false)
    (noEnd : startsKeyword endKeyword before (c :: (t ++ rest)) = false)
    (noWord : ∀ word ∈ words, startsWord standsApart word before (c :: (t ++ rest)) = false)
    (more : Nested words (some c) t rest) : Nested words before (c :: t) rest
  | literal {words : List Text} {before : Option Char} {contents t rest : Text}
    (closed : literal? (contents ++ ['"']) = some (contents, []))
    (more : Nested words (some '"') t rest) :
    Nested words before ('"' :: (contents ++ '"' :: t)) rest
  | field {words : List Text} {before : Option Char} {name t rest : Text}
    (reference : IsReference name) (more : Nested words (some '\x7d') t rest) :
    Nested words before ('\x7b' :: (name ++ '\x7d' :: t)) rest
  | group {words : List Text} {before : Option Char} {contents t rest : Text}
    (enclosed : Nested [] none contents (')' :: (t ++ rest)))
    (more : Nested words (some ')') t rest) :
    Nested words before ('(' :: (contents ++ ')' :: t)) rest
  | case {words : List Text} {before : Option Char} {opening body closing t rest : Text}
    (opens : sameLetters caseKeyword opening = true)
    (alone : standsAlone before (body ++ (closing ++ (t ++ rest))).head? = true)
    (enclosed : Nested [] none body (closing ++ (t ++ rest)))
    (closes : sameLetters endKeyword closing = true)
    (alone' : standsAlone (lastFrom none body) (t ++ rest).head? = true)
    (more : Nested words (lastFrom none closing) t rest) :
    Nested words before (opening ++ (body ++ (closing ++ t))) rest

/-- **What follows a well-nested text does not matter**, as long as words end there. -/
theorem Nested.of_stop {words : List Text} {before : Option Char} {t x rest rest' : Text}
    (nested : Nested words before t (x ++ rest)) (stop : IsStop rest) (stop' : IsStop rest')
    (letters : ∀ word ∈ words, ∀ a ∈ word, a.isAlpha = true) :
    Nested words before t (x ++ rest') := by
  have alike : ∀ before, standsAlone before rest.head? = standsAlone before rest'.head? := by
    intro before
    rw [stop.standsAlone_eq, stop'.standsAlone_eq]
  have keyword : ∀ {k : Text}, (∀ a ∈ k, a.isAlpha = true) → ∀ before u,
      startsKeyword k before (u ++ rest') = startsKeyword k before (u ++ rest) := by
    intro k letters before u
    exact (stop.startsWord_append stop' alike letters before u).symm
  have behind : ∀ before (u : Text),
      standsAlone before (u ++ rest').head? = standsAlone before (u ++ rest).head? := by
    intro before u
    cases u with
    | nil => exact (alike before).symm
    | cons c u => rfl
  generalize context : x ++ rest = ahead at nested
  induction nested generalizing x with
  | nil => exact .nil
  | @char words before c t _ loose noCase noEnd noWord more ih =>
    subst context
    have split : ∀ r, c :: (t ++ (x ++ r)) = c :: (t ++ x) ++ r := by simp
    rw [split] at noCase noEnd
    refine .char loose ?_ ?_ ?_ (ih letters rfl)
    · rw [split, keyword letters_caseKeyword]
      exact noCase
    · rw [split, keyword letters_endKeyword]
      exact noEnd
    · intro word mem
      have same : ∀ before, standsApart before rest.head? = standsApart before rest'.head? := by
        intro before
        rw [stop.standsApart_eq, stop'.standsApart_eq]
      have missed := noWord word mem
      rw [split] at missed ⊢
      rw [← stop.startsWord_append stop' same (letters word mem)]
      exact missed
  | literal closed _ ih => exact .literal closed (ih letters context)
  | field reference _ ih => exact .field reference (ih letters context)
  | @group words before contents t _ _ _ ihEnclosed ih =>
    subst context
    have split : ∀ r, ')' :: (t ++ (x ++ r)) = ')' :: (t ++ x) ++ r := by simp
    have enclosed := ihEnclosed nofun (split rest).symm
    rw [← split] at enclosed
    exact .group enclosed (ih letters rfl)
  | @case words before opening body closing t _ opens alone _ closes alone' _ ihEnclosed ih =>
    subst context
    have split : ∀ r, closing ++ (t ++ (x ++ r)) = closing ++ (t ++ x) ++ r := by simp
    have enclosed := ihEnclosed nofun (split rest).symm
    rw [← split] at enclosed
    refine .case opens ?_ enclosed closes ?_ (ih letters rfl)
    · rw [split, ← List.append_assoc] at alone ⊢
      rw [behind]
      exact alone
    · rw [← List.append_assoc] at alone' ⊢
      rw [behind]
      exact alone'

/-- The body of a case distinction starts with no letter, since the keyword in front of it stands
alone. -/
theorem exists_cons_of_alone {before : Option Char} {body closing t : Text}
    (alone : standsAlone before (body ++ (closing ++ t)).head? = true)
    (closes : sameLetters endKeyword closing = true) :
    ∃ c more, body = c :: more ∧ c.isAlpha = false := by
  have mark : ∀ c ∈ (body ++ (closing ++ t)).head?, c.isAlpha = false := by
    intro c mem
    rw [standsAlone, Bool.and_eq_true, mem, Option.all_some, mayFollowKeyword, Bool.and_eq_true,
      Bool.not_eq_true'] at alone
    exact not_isAlpha_of_not_word alone.2.1
  cases body with
  | nil =>
    obtain ⟨c, more, rfl, first⟩ := exists_cons_of_sameLetters closes
    have letter := isAlpha_of_agree (letters_endKeyword _ (List.mem_cons_self ..)) first
    rw [mark c rfl] at letter
    cases letter
  | cons c more => exact ⟨c, more, rfl, mark c rfl⟩

/-- So no keyword starts there, whatever stands in front of it. -/
theorem startsKeyword_body {before : Option Char} {body closing t : Text}
    (alone : standsAlone before (body ++ (closing ++ t)).head? = true)
    (closes : sameLetters endKeyword closing = true) {k : Text}
    (mem : k ∈ [caseKeyword, endKeyword]) (before' : Option Char) :
    startsKeyword k before' (body ++ (closing ++ t)) = false := by
  obtain ⟨c, more, rfl, mark⟩ := exists_cons_of_alone alone closes
  simp only [List.mem_cons, List.not_mem_nil, or_false] at mem
  rcases mem with rfl | rfl
  · exact startsKeyword_cons_of_not_isAlpha (by simp [caseKeyword]) letters_caseKeyword mark _
  · exact startsKeyword_cons_of_not_isAlpha (by simp [endKeyword]) letters_endKeyword mark _

/-! ### Scans -/

/-- The scan takes every loose character by itself, every closed literal as a whole, and the
keywords of case distinctions in any letter case, and undoes at each close what it did where that
was opened. -/
structure Scan.Thorough {ρ : Type} (s : Scan ρ) : Prop where
  loose : ∀ depth before {c : Char} rest, IsLoose c →
    startsKeyword caseKeyword before (c :: rest) = false →
    startsKeyword endKeyword before (c :: rest) = false → s.Reads depth before [c] depth rest
  literal : ∀ depth before {contents : Text} rest,
    literal? (contents ++ ['"']) = some (contents, []) →
      s.Reads depth before ('"' :: (contents ++ ['"'])) depth rest
  openParens : ∀ depth before rest, s.Reads depth before ['('] (s.inParens depth) rest
  closeParens : ∀ depth before rest, s.Reads (s.inParens depth) before [')'] depth rest
  openBraces : ∀ depth before rest, s.Reads depth before ['\x7b'] (s.inBraces depth) rest
  closeBraces : ∀ depth before rest, s.Reads (s.inBraces depth) before ['\x7d'] depth rest
  openCase : ∀ depth before {word : Text} rest, sameLetters caseKeyword word = true →
    standsAlone before rest.head? = true → s.Reads depth before word (s.inCase depth) rest
  closeCase : ∀ depth before {word : Text} rest, sameLetters endKeyword word = true →
    standsAlone before rest.head? = true → s.Reads (s.inCase depth) before word depth rest

namespace Scan.Thorough

variable {ρ : Type} {s : Scan ρ} (thorough : s.Thorough)
include thorough

theorem lawful : s.Lawful where
  inert depth before _ rest inert := thorough.loose depth before rest inert.ne
  literal depth before t rest := thorough.literal depth before rest (literal?_append t [])
  openParens := thorough.openParens
  closeParens := thorough.closeParens
  openBraces := thorough.openBraces
  closeBraces := thorough.closeBraces
  openCase depth before rest clear behind :=
    thorough.openCase depth before rest rfl (standsAlone_of_clear clear behind)
  closeCase depth before rest clear behind :=
    thorough.closeCase depth before rest rfl (standsAlone_of_clear clear behind)

/-- **A thorough scan passes over well-nested text**, also from another character before it that
makes no difference to keywords. -/
theorem reads_nested {words : List Text} {before : Option Char} {t rest : Text}
    (nested : Nested words before t rest) {depth : Nat} {before' : Option Char}
    (same : ∀ k ∈ [caseKeyword, endKeyword],
      startsKeyword k before' (t ++ rest) = startsKeyword k before (t ++ rest)) :
    s.Reads depth before' t depth rest := by
  induction nested generalizing depth before' with
  | nil => exact .nil _
  | char loose noCase noEnd _ _ ih =>
    refine .cons (thorough.loose depth before' _ loose ?_ ?_) (ih fun _ _ => rfl)
    · exact (same _ (by simp)).trans noCase
    · exact (same _ (by simp)).trans noEnd
  | @literal _ _ contents t rest closed _ ih =>
    have split : '"' :: (contents ++ '"' :: t) = '"' :: (contents ++ ['"']) ++ t := by simp
    rw [split]
    refine .append (thorough.literal depth before' _ closed) (ih ?_)
    rw [← List.cons_append, lastFrom_concat]
    exact fun _ _ => rfl
  | @field _ _ name t rest reference _ ih =>
    refine .cons (thorough.openBraces depth before' _) ?_
    refine .append (thorough.lawful.reads_reference reference _) ?_
    exact .cons (thorough.closeBraces depth _ _) (ih fun _ _ => rfl)
  | @group _ _ contents t rest _ _ ihEnclosed ih =>
    refine .cons (thorough.openParens depth before' _) (.append (ihEnclosed ?_) ?_)
    · exact fun _ _ => rfl
    · exact .cons (thorough.closeParens depth _ _) (ih fun _ _ => rfl)
  | @case _ before opening body closing t rest opens alone _ closes alone' _ ihEnclosed ih =>
    obtain ⟨c, more, rfl, -⟩ := exists_cons_of_alone alone closes
    -- the keyword in front stands alone behind the other character, too
    have starts : ∀ before, startsKeyword caseKeyword before
        (opening ++ (c :: more ++ (closing ++ t)) ++ rest)
          = standsAlone before (c :: more ++ (closing ++ (t ++ rest))).head? := by
      intro before
      rw [List.append_assoc, List.append_assoc, List.append_assoc, startsKeyword,
        after?_eq_some_iff.2 ⟨opening, sameLetters_iff.1 opens, rfl⟩]
    have open' : standsAlone before' (c :: more ++ (closing ++ (t ++ rest))).head? = true := by
      rw [← starts, same _ (by simp), starts]
      exact alone
    have assoc : ∀ x : Text, x ++ (closing ++ t) ++ rest = x ++ (closing ++ (t ++ rest)) := by
      simp
    refine .append (thorough.openCase depth before' _ opens ?_) ?_
    · rw [assoc]
      exact open'
    have enclosed : s.Reads (s.inCase depth) (lastFrom before' opening) (c :: more)
        (s.inCase depth) (closing ++ t ++ rest) := by
      rw [List.append_assoc]
      refine ihEnclosed fun k mem => ?_
      rw [startsKeyword_body alone closes mem, startsKeyword_body alone closes mem]
    refine .append enclosed (.append (thorough.closeCase depth _ _ closes alone') ?_)
    obtain ⟨d, word, rfl, -⟩ := exists_cons_of_sameLetters closes
    exact ih fun _ _ => rfl

end Scan.Thorough

end RecordMapper.Text
