import RecordMapper.Proofs.Text.Renaming
import RecordMapper.Proofs.Text.SpacedScans

/-!
Scans of texts that differ in the names of their placeholders.

A scan goes through a name without finding anything in it: a percent sign stands before the name, so
nothing in it stands behind a blank, and the name is no keyword. So a search that `Overlooks` names
stops at the same place in both texts (`Overlooks.rel`): the search for a closing parenthesis does
(`Renamed.rel_closing?`), and so does the search for an operator (`Renamed.rel_splitAt?`). The blanks
outside literals are the same, and `flattenBlanks` keeps the texts `Renamed`.
-/

namespace RecordMapper.Text

/-- A name in which nothing is found: a word, and no keyword of case distinctions. -/
def IsSafeName (v : Text) : Prop :=
  IsAsciiWord v ∧ ¬ IsKeyword v

instance (v : Text) : Decidable (IsAsciiWord v) :=
  decidable_of_iff (v ≠ [] ∧ v.all isAsciiWord = true) (and_congr_right' List.all_eq_true)

instance (v : Text) : Decidable (IsSafeName v) :=
  inferInstanceAs (Decidable (_ ∧ _))

/-- The names that are paired are no keywords. -/
def AreSafe (names : Text → Text → Prop) : Prop :=
  ∀ v w, names v w → ¬ IsKeyword v ∧ ¬ IsKeyword w

/-- A character of a placeholder. -/
def IsNameChar (c : Char) : Prop :=
  c = '%' ∨ isAsciiWord c = true

theorem IsNameChar.ne {c : Char} (char : IsNameChar c) {d : Char} (sign : d ≠ '%')
    (other : isAsciiWord d = false) : c ≠ d := by
  rintro rfl
  rcases char with rfl | word
  · exact sign rfl
  · rw [other] at word
    cases word

theorem IsNameChar.isAsciiBlank {c : Char} (char : IsNameChar c) : isAsciiBlank c = false := by
  rcases char with rfl | word
  · rfl
  · exact isAsciiBlank_of_isAsciiWord word

theorem IsNameChar.isBlank {c : Char} (char : IsNameChar c) : isBlank c = false := by
  rcases char with rfl | word
  · decide
  · exact isBlank_of_isAsciiWord word

theorem isBlank_of_mem_placeholder {v : Text} (word : IsAsciiWord v) :
    ∀ c ∈ '%' :: (v ++ ['%']), isBlank c = false := by
  intro c mem
  have char : IsNameChar c := by
    simp only [List.mem_cons, List.mem_append, List.not_mem_nil, or_false] at mem
    rcases mem with rfl | mem | rfl
    · exact .inl rfl
    · exact .inr (word.2 c mem)
    · exact .inl rfl
  exact char.isBlank

/-! ### What a search finds -/

/-- The two parts of one text are those of the other, renamed. -/
def RenamedParts (names : Text → Text → Prop) (found found' : Text × Text) : Prop :=
  Renamed names found.1 found'.1 ∧ Renamed names found.2 found'.2

variable {names : Text → Text → Prop} {s t : Text}

theorem rel_prependFound {c : Char} (other : c ≠ '%') {found found' : Option (Text × Text)}
    (rel : Option.Rel (RenamedParts names) found found') :
    Option.Rel (RenamedParts names) (prependFound c found) (prependFound c found') := by
  cases rel with
  | none => exact .none
  | some parts => exact .some ⟨.char other parts.1, parts.2⟩

theorem rel_foldr_prependFound {v w : Text} (pair : names v w) (word : IsAsciiWord v)
    (word' : IsAsciiWord w) {found found' : Option (Text × Text)}
    (rel : Option.Rel (RenamedParts names) found found') :
    Option.Rel (RenamedParts names) (('%' :: (v ++ ['%'])).foldr prependFound found)
      (('%' :: (w ++ ['%'])).foldr prependFound found') := by
  rw [foldr_prependFound, foldr_prependFound]
  cases rel with
  | none => exact .none
  | some parts => exact .some ⟨by simpa using parts.1.placeholder pair word word', parts.2⟩

/-- A search that reads placeholders without finding anything in them. `calm` says of a state and
the text ahead that no placeholder is cut there. -/
structure Overlooks {σ : Type} (names : Text → Text → Prop) (calm : σ → Text → Prop)
    (read : σ → Option Char → Text → Option (Text × Text)) : Prop where
  nil : ∀ q before, read q before [] = none
  char : ∀ q before {c : Char} {s t : Text}, c ≠ '%' → Renamed names s t → calm q (c :: s) →
    (∃ rest rest', Renamed names rest rest' ∧ read q before (c :: s) = some ([], rest)
        ∧ read q before (c :: t) = some ([], rest'))
      ∨ ∃ q', calm q' s ∧ read q before (c :: s) = prependFound c (read q' (some c) s)
        ∧ read q before (c :: t) = prependFound c (read q' (some c) t)
  placeholder : ∀ q before {v s : Text}, calm q ('%' :: (v ++ '%' :: s)) →
    ∃ q', calm q' s ∧ ∀ u r, IsSafeName u → read q before ('%' :: (u ++ '%' :: r))
      = ('%' :: (u ++ ['%'])).foldr prependFound (read q' (some '%') r)

/-- **What overlooks the names of placeholders finds the same parts of both texts.** -/
theorem Overlooks.rel {σ : Type} {calm : σ → Text → Prop}
    {read : σ → Option Char → Text → Option (Text × Text)} (overlooks : Overlooks names calm read)
    (safe : AreSafe names) (renamed : Renamed names s t) {q : σ} (quiet : calm q s)
    (before : Option Char) :
    Option.Rel (RenamedParts names) (read q before s) (read q before t) := by
  induction renamed generalizing q before with
  | nil =>
    rw [overlooks.nil]
    exact .none
  | @char c s t other behind ih =>
    rcases overlooks.char q before other behind quiet with
      ⟨rest, rest', parts, found, found'⟩ | ⟨q', quiet', step, step'⟩
    · rw [found, found']
      exact .some ⟨.nil, parts⟩
    · rw [step, step']
      exact rel_prependFound other (ih quiet' (some c))
  | @placeholder v w s t pair word word' behind ih =>
    obtain ⟨q', quiet', step⟩ := overlooks.placeholder q before quiet
    rw [step v s ⟨word, (safe v w pair).1⟩, step w t ⟨word', (safe v w pair).2⟩]
    exact rel_foldr_prependFound pair word word' (ih quiet' (some '%'))

/-- What takes the characters of a name one by one takes the name and the percent sign behind it,
since no keyword starts in it. -/
theorem read_name {read : Option Char → Text → Option (Text × Text)}
    (sign : ∀ before t, read before ('%' :: t) = prependFound '%' (read (some '%') t))
    (letter : ∀ b c t, IsNameChar b → isAsciiWord c = true →
      startsKeyword caseKeyword (some b) (c :: t) = false →
      startsKeyword endKeyword (some b) (c :: t) = false →
      read (some b) (c :: t) = prependFound c (read (some c) t))
    {v : Text} (safe : IsSafeName v) (t : Text) :
    read (some '%') (v ++ '%' :: t) = (v ++ ['%']).foldr prependFound (read (some '%') t) := by
  obtain ⟨word, other⟩ := safe
  have behind : ∀ c ∈ ('%' :: t).head?, isAsciiWord c = false := by
    rintro c ⟨⟩
    rfl
  -- behind the first letter no keyword starts, since a word character stands before it
  have inside : ∀ u, (∀ c ∈ u, isAsciiWord c = true) → ∀ b, IsNameChar b →
      (u ≠ [] → startsKeyword caseKeyword (some b) (u ++ '%' :: t) = false
        ∧ startsKeyword endKeyword (some b) (u ++ '%' :: t) = false) →
      read (some b) (u ++ '%' :: t) = (u ++ ['%']).foldr prependFound (read (some '%') t) := by
    intro u
    induction u with
    | nil => exact fun _ b _ _ => sign (some b) t
    | cons c u ih =>
      intro letters b char free
      obtain ⟨noCase, noEnd⟩ := free (List.cons_ne_nil c u)
      obtain ⟨first, others⟩ := List.forall_mem_cons.1 letters
      have touching : mayPrecedeKeyword c = false := by
        rw [mayPrecedeKeyword, first]
        rfl
      have more := ih others c (.inr first) fun _ =>
        ⟨startsKeyword_of_touching touching _, startsKeyword_of_touching touching _⟩
      rw [List.cons_append, letter b c (u ++ '%' :: t) char first noCase noEnd, more]
      rfl
  refine inside v word.2 '%' (.inl rfl) fun _ => ⟨?_, ?_⟩
  · exact startsKeyword_append_of_word letters_caseKeyword word behind
      fun same => absurd (Or.inl same) other
  · exact startsKeyword_append_of_word letters_endKeyword word behind
      fun same => absurd (Or.inr same) other

/-! ### Literals -/

/-- Nothing in a placeholder opens or closes a literal. -/
theorem Mode.after_nameChar {m : Mode} (settled : m ≠ .escaped) {c : Char} (char : IsNameChar c) :
    m.after c = m := by
  have quote : c ≠ '"' := char.ne (by decide) rfl
  have backslash : c ≠ '\\' := char.ne (by decide) rfl
  cases m with
  | plain => exact if_neg quote
  | quoted => exact (if_neg quote).trans (if_neg backslash)
  | escaped => exact absurd rfl settled

theorem Mode.after_sign_settled (m : Mode) : m.after '%' ≠ .escaped := by
  cases m <;> decide

/-- The percent sign in front of a name is the one that a backslash may hide. -/
theorem Mode.across_placeholder (m : Mode) {v : Text} (word : IsAsciiWord v) :
    m.across ('%' :: (v ++ ['%'])) = m.after '%' := by
  have settled := m.after_sign_settled
  have inside : ∀ u : Text, (∀ c ∈ u, isAsciiWord c = true) →
      (m.after '%').across u = m.after '%' := by
    intro u
    induction u with
    | nil => exact fun _ => rfl
    | cons c u ih =>
      intro letters
      obtain ⟨first, others⟩ := List.forall_mem_cons.1 letters
      rw [Mode.across_cons, Mode.after_nameChar settled (.inr first), ih others]
  rw [Mode.across_cons, Mode.across_append, inside v word.2, Mode.across_cons,
    Mode.after_nameChar settled (.inl rfl), Mode.across_nil]

theorem overlooks_literalFrom? (names : Text → Text → Prop) :
    Overlooks names (fun m _ => m ≠ .plain) fun m (_ : Option Char) t => literalFrom? m t where
  nil _ _ := by rw [literalFrom?]
  char := by
    intro m _ c s t _ behind _
    rw [literalFrom?, literalFrom?]
    by_cases closes : m.after c = .plain
    · rw [if_pos closes, if_pos closes]
      exact .inl ⟨s, t, behind, rfl, rfl⟩
    · rw [if_neg closes, if_neg closes]
      exact .inr ⟨m.after c, closes, rfl, rfl⟩
  placeholder := by
    intro m _ _ _ inside
    have inside' : m.after '%' ≠ .plain := by
      cases m with
      | plain => exact absurd rfl inside
      | quoted => decide
      | escaped => decide
    refine ⟨m.after '%', inside', fun u r safe => ?_⟩
    have settled := m.after_sign_settled
    have step : ∀ {c : Char} (t : Text), IsNameChar c →
        literalFrom? (m.after '%') (c :: t) = prependFound c (literalFrom? (m.after '%') t) := by
      intro c t char
      rw [literalFrom?, Mode.after_nameChar settled char, if_neg inside']
      rfl
    have name := @read_name (fun _ t => literalFrom? (m.after '%') t)
      (fun _ t => step t (.inl rfl)) (fun _ _ t _ word _ _ => step t (.inr word)) _ safe r
    rw [literalFrom?, if_neg inside']
    exact congrArg (prependFound '%') name

/-- **A literal is closed at the same place in both texts.** -/
theorem Renamed.rel_literal? (renamed : Renamed names s t) (safe : AreSafe names) :
    Option.Rel (RenamedParts names) (literal? s) (literal? t) :=
  (overlooks_literalFrom? names).rel safe renamed (q := .quoted) (by decide) none

theorem Renamed.flattenBlanksFrom (renamed : Renamed names s t) (m : Mode) :
    Renamed names (flattenBlanksFrom m s) (flattenBlanksFrom m t) := by
  induction renamed generalizing m with
  | nil => exact .nil
  | @char c s t other _ ih =>
    rw [Text.flattenBlanksFrom, Text.flattenBlanksFrom]
    refine .char ?_ (ih (m.after c))
    split
    · decide
    · exact other
  | @placeholder v w s t pair word word' _ ih =>
    have kept : ∀ {u : Text}, IsAsciiWord u → ∀ r : Text,
        Text.flattenBlanksFrom m ('%' :: (u ++ '%' :: r))
          = '%' :: (u ++ '%' :: Text.flattenBlanksFrom (m.after '%') r) := by
      intro u word r
      have split := flattenBlanksFrom_append m ('%' :: (u ++ ['%'])) r
      rw [flattenBlanksFrom_of_not_isBlank (isBlank_of_mem_placeholder word),
        Mode.across_placeholder m word] at split
      simpa using split
    rw [kept word, kept word']
    exact .placeholder pair word word' (ih _)

theorem Renamed.flattenBlanks (renamed : Renamed names s t) :
    Renamed names s.flattenBlanks t.flattenBlanks :=
  renamed.flattenBlanksFrom .plain

/-- A part without spaces stood in the text before its blanks were flattened. -/
theorem isInfix_of_flattenBlanksFrom {u : Text} (solid : ' ' ∉ u) {m : Mode}
    (inside : u <:+: Text.flattenBlanksFrom m t) : u <:+: t := by
  have starts : ∀ {u : Text}, ' ' ∉ u → ∀ {m : Mode} {t : Text},
      u <+: Text.flattenBlanksFrom m t → u <+: t := by
    intro u solid m t start
    induction t generalizing u m with
    | nil => exact start
    | cons c t ih =>
      cases u with
      | nil => exact List.nil_prefix
      | cons d u =>
        rw [List.mem_cons, not_or] at solid
        obtain ⟨same, behind⟩ := List.cons_prefix_cons.1 start
        refine List.cons_prefix_cons.2 ⟨?_, ih solid.2 behind⟩
        split at same
        · exact absurd same.symm solid.1
        · exact same
  induction t generalizing m with
  | nil => exact inside
  | cons c t ih =>
    rcases List.infix_cons_iff.1 inside with start | later
    · exact (@starts u solid m (c :: t) start).isInfix
    · exact (ih later).trans (List.infix_cons List.infix_rfl)

/-! ### Parentheses -/

theorem overlooks_closingFrom? (names : Text → Text → Prop) :
    Overlooks names (fun _ _ => True)
      fun (q : Nat × Mode) (_ : Option Char) t => closingFrom? q.1 q.2 t where
  nil _ _ := by rw [closingFrom?]
  char := by
    rintro ⟨depth, m⟩ _ c s t _ behind -
    rcases closingFrom?_cons depth m c with found | ⟨depth', step⟩
    · exact .inl ⟨s, t, behind, found s, found t⟩
    · exact .inr ⟨(depth', m.after c), trivial, step s, step t⟩
  placeholder := by
    rintro ⟨depth, m⟩ _ _ _ -
    refine ⟨(depth, m.after '%'), trivial, fun u r safe => ?_⟩
    have other : ∀ {c : Char} (m : Mode) (t : Text), IsNameChar c →
        closingFrom? depth m (c :: t) = prependFound c (closingFrom? depth (m.after c) t) := by
      intro c m t char
      cases m with
      | plain =>
        exact closingFrom?_cons_of_other ⟨char.ne (by decide) rfl, char.ne (by decide) rfl⟩ depth t
      | quoted => exact closingFrom?_cons_of_not_plain (by decide) depth c t
      | escaped => exact closingFrom?_cons_of_not_plain (by decide) depth c t
    have settled := m.after_sign_settled
    have name := @read_name (fun _ t => closingFrom? depth (m.after '%') t)
      (fun _ t => by
        rw [other _ t (.inl rfl), Mode.after_nameChar settled (.inl rfl)])
      (fun _ c t _ word _ _ => by
        rw [other _ t (.inr word), Mode.after_nameChar settled (.inr word)]) _ safe r
    rw [other m _ (.inl rfl), name]
    rfl

/-- **A parenthesis is closed at the same place in both texts.** -/
theorem Renamed.rel_closing? (renamed : Renamed names s t) (safe : AreSafe names) :
    Option.Rel (RenamedParts names) (closing? s) (closing? t) :=
  (overlooks_closingFrom? names).rel safe renamed (q := (0, .plain)) trivial none

theorem unwrapped?_open (t : Text) : unwrapped? ('(' :: t)
    = (closing? t).bind fun found => if found.2.isEmpty then some found.1 else none := by
  rw [unwrapped?]
  rcases closing? t with _ | ⟨inner, _ | _⟩ <;> rfl

theorem Renamed.rel_unwrapped? (renamed : Renamed names s t) (safe : AreSafe names) :
    Option.Rel (Renamed names) (unwrapped? s) (unwrapped? t) := by
  cases renamed with
  | nil => exact .none
  | placeholder =>
    rw [unwrapped?_cons_eq_none (by decide), unwrapped?_cons_eq_none (by decide)]
    exact .none
  | @char c s t _ behind =>
    by_cases opens : c = '('
    · subst opens
      rw [unwrapped?_open, unwrapped?_open]
      refine rel_bind (behind.rel_closing? safe) fun found found' parts => ?_
      rw [parts.2.isEmpty_eq]
      split
      · exact .some parts.1
      · exact .none
    · rw [unwrapped?_cons_eq_none opens, unwrapped?_cons_eq_none opens]
      exact .none

/-! ### Keywords and operators -/

/-- A keyword stands on its own at the start of both texts or of none. -/
theorem Renamed.startsKeyword_eq (renamed : Renamed names s t) {keyword : Text}
    (free : '%' ∉ keyword) (before : Option Char) :
    startsKeyword keyword before s = startsKeyword keyword before t := by
  unfold startsKeyword
  rcases exists_of_rel (renamed.rel_after? true free) with
    ⟨missed, missed'⟩ | ⟨rest, rest', behind, found, found'⟩
  · rw [missed, missed']
  · rw [found, found']
    exact congrArg (standsAlone before) behind.head?_eq

/-- No placeholder starts in a word that was found. -/
theorem not_mem_take_of_after? {ignoreCase : Bool} {w t rest : Text} {c : Char} (free : '%' ∉ w)
    (found : after? ignoreCase w (c :: t) = some rest) : '%' ∉ t.take (w.length - 1) := by
  obtain ⟨front, all, whole⟩ := after?_eq_some_iff.1 found
  have kept : '%' ∉ front := mt (mem_iff_of_agree rfl all).1 free
  have length := all.length_eq
  cases front with
  | nil => simp [length]
  | cons d front =>
    obtain ⟨-, split⟩ : c = d ∧ t = front ++ rest := List.cons.inj whole
    rw [length, List.length_cons, Nat.add_sub_cancel, split, List.take_left]
    exact fun mem => kept (List.mem_cons_of_mem d mem)

theorem not_mem_take_of_startsKeyword {keyword t : Text} {before : Option Char} {c : Char}
    (free : '%' ∉ keyword) (starts : startsKeyword keyword before (c :: t) = true) :
    '%' ∉ t.take (keyword.length - 1) := by
  rw [startsKeyword] at starts
  split at starts
  · rename_i rest found
    exact not_mem_take_of_after? free found
  · cases starts

theorem Renamed.rel_afterOperator? (renamed : Renamed names s t) {operator : Text}
    (free : '%' ∉ operator) (words : Bool) (before : Option Char) :
    Option.Rel (Renamed names) (afterOperator? operator words before s)
      (afterOperator? operator words before t) := by
  unfold afterOperator?
  split
  · split
    · exact rel_filter (renamed.rel_after? true free) fun rest rest' behind => by
        rw [behind.head?_eq]
    · exact .none
  · exact renamed.rel_after? false free

/-- An operator that does not start in a placeholder: one of words needs a blank before it, and any
other starts with a sign. -/
structure IsForeign (operator : Text) (words : Bool) : Prop where
  nonempty : operator ≠ []
  free : '%' ∉ operator
  marks : words = false → ∀ a ∈ operator.head?, isAsciiWord a = false

section Operators

variable {operator : Text} {words : Bool} (foreign : IsForeign operator words)
include foreign

theorem IsForeign.afterOperator?_eq_none {before : Option Char} {c : Char} (char : IsNameChar c)
    (inside : ∀ b ∈ before, c ≠ '%' → IsNameChar b) (start : before = none → c = '%') (t : Text) :
    afterOperator? operator words before (c :: t) = none := by
  obtain ⟨nonempty, free, marks⟩ := foreign
  obtain ⟨a, rest, rfl⟩ := List.exists_cons_of_ne_nil nonempty
  have sign : c = '%' → ∀ ignoreCase, after? ignoreCase (a :: rest) (c :: t) = none := by
    rintro rfl ignoreCase
    exact after?_cons_eq_none' rfl (fun same => free (List.mem_cons.2 (.inl same.symm))) rest t
  rw [afterOperator?]
  by_cases isSign : c = '%'
  · rw [sign isSign, sign isSign]
    split
    · split <;> rfl
    · rfl
  · obtain ⟨b, rfl⟩ : ∃ b, before = some b := by
      cases before with
      | none => exact absurd (start rfl) isSign
      | some b => exact ⟨b, rfl⟩
    have visible := (inside b rfl isSign).isAsciiBlank
    cases words with
    | true => simp [visible]
    | false =>
      have letter : isAsciiWord c = true := char.resolve_left isSign
      have other : a ≠ c := by
        rintro rfl
        rw [marks rfl a rfl] at letter
        cases letter
      simp [after?, agree, other]

/-- A character of a placeholder is passed, unless a keyword starts with it. -/
theorem IsForeign.splitFrom?_nameChar {before : Option Char} {c : Char} (char : IsNameChar c)
    (inside : ∀ b ∈ before, c ≠ '%' → IsNameChar b) (start : before = none → c = '%') {t : Text}
    (noCase : startsKeyword caseKeyword before (c :: t) = false)
    (noEnd : startsKeyword endKeyword before (c :: t) = false) (depth : Nat) :
    splitFrom? operator words depth 0 .plain before (c :: t)
      = prependFound c (splitFrom? operator words depth 0 .plain (some c) t) := by
  have other : c ≠ '"' ∧ c ≠ '(' ∧ c ≠ ')' ∧ c ≠ '\x7b' ∧ c ≠ '\x7d' := by
    refine ⟨?_, ?_, ?_, ?_, ?_⟩ <;> exact char.ne (by decide) rfl
  cases depth with
  | zero =>
    exact operatorScan_reads_top other noCase noEnd
      (foreign.afterOperator?_eq_none char inside start t)
  | succ depth => exact operatorScan_reads_other other noCase noEnd depth

theorem IsForeign.overlooks_splitFrom? (names : Text → Text → Prop) :
    Overlooks names (fun (q : Nat × Nat × Mode) t => '%' ∉ t.take q.2.1)
      fun q before t => splitFrom? operator words q.1 q.2.1 q.2.2 before t where
  nil _ _ := by rw [splitFrom?]
  char := by
    rintro ⟨depth, skip, m⟩ before c s t other behind quiet
    cases skip with
    | succ skip =>
      rw [List.take_succ_cons, List.mem_cons, not_or] at quiet
      exact .inr ⟨(depth, skip, m.after c), quiet.2, rfl, rfl⟩
    | zero =>
      by_cases plain : m = .plain
      swap
      · exact .inr ⟨(depth, 0, m.after c), List.not_mem_nil,
          splitFrom?_cons_of_not_plain plain depth c s, splitFrom?_cons_of_not_plain plain depth c t⟩
      subst plain
      by_cases unquoted : c = '"'
      · exact .inr ⟨(depth, 0, Mode.plain.after c), List.not_mem_nil,
          (splitFrom?_cons_plain depth c s).trans (if_pos unquoted),
          (splitFrom?_cons_plain depth c t).trans (if_pos unquoted)⟩
      have whole : Renamed names (c :: s) (c :: t) := .char other behind
      have first : splitFrom? operator words depth 0 .plain before (c :: s) = _ :=
        Spacing.splitFrom?_cons unquoted depth before s
      have second : splitFrom? operator words depth 0 .plain before (c :: t) = _ :=
        Spacing.splitFrom?_cons unquoted depth before t
      rw [← whole.startsKeyword_eq (by decide), ← whole.startsKeyword_eq (by decide)] at second
      by_cases opens : c = '(' ∨ c = '\x7b'
      · rw [if_pos opens] at first second
        exact .inr ⟨(depth + 1, 0, .plain), List.not_mem_nil, first, second⟩
      rw [if_neg opens] at first second
      by_cases closes : c = ')' ∨ c = '\x7d'
      · rw [if_pos closes] at first second
        exact .inr ⟨(depth - 1, 0, .plain), List.not_mem_nil, first, second⟩
      rw [if_neg closes] at first second
      by_cases opensCase : startsKeyword caseKeyword before (c :: s) = true
      · rw [if_pos opensCase] at first second
        exact .inr ⟨(depth + 1, 3, .plain), not_mem_take_of_startsKeyword (by decide) opensCase,
          first, second⟩
      rw [if_neg opensCase] at first second
      by_cases closesCase : startsKeyword endKeyword before (c :: s) = true
      · rw [if_pos closesCase] at first second
        exact .inr ⟨(depth - 1, 2, .plain), not_mem_take_of_startsKeyword (by decide) closesCase,
          first, second⟩
      rw [if_neg closesCase] at first second
      by_cases top : depth = 0
      swap
      · rw [if_neg top] at first second
        exact .inr ⟨(depth, 0, .plain), List.not_mem_nil, first, second⟩
      rw [if_pos top] at first second
      rcases exists_of_rel (whole.rel_afterOperator? foreign.free words before) with
        ⟨missed, missed'⟩ | ⟨rest, rest', parts, found, found'⟩
      · rw [missed] at first
        rw [missed'] at second
        exact .inr ⟨(0, 0, .plain), List.not_mem_nil, first, second⟩
      · rw [found] at first
        rw [found'] at second
        exact .inl ⟨rest, rest', parts, first, second⟩
  placeholder := by
    rintro ⟨depth, skip, m⟩ before v s quiet
    cases skip with
    | succ skip => exact absurd (List.mem_cons_self ..) quiet
    | zero =>
      refine ⟨(depth, 0, m.after '%'), List.not_mem_nil, fun u r safe => ?_⟩
      have noKeyword : ∀ (keyword : Text), keyword ≠ [] → (∀ a ∈ keyword, a.isAlpha = true) →
          ∀ (before : Option Char) (t : Text), startsKeyword keyword before ('%' :: t) = false :=
        fun keyword nonempty letters before t =>
          startsKeyword_cons_of_not_isAlpha nonempty letters rfl t
      have sign : ∀ (before : Option Char) (t : Text),
          splitFrom? operator words depth 0 .plain before ('%' :: t)
            = prependFound '%' (splitFrom? operator words depth 0 .plain (some '%') t) :=
        fun before t => foreign.splitFrom?_nameChar (.inl rfl) (fun _ _ other => absurd rfl other)
          (fun _ => rfl) (noKeyword _ (by decide) letters_caseKeyword before t)
          (noKeyword _ (by decide) letters_endKeyword before t) depth
      by_cases plain : m = .plain
      · subst plain
        have name := read_name sign (fun b c t char word noCase noEnd =>
          foreign.splitFrom?_nameChar (.inr word) (fun _ same _ => Option.some.inj same ▸ char)
            (by simp) noCase noEnd depth) safe r
        exact (sign before _).trans (congrArg (prependFound '%') name)
      · have settled := m.after_sign_settled
        have inside : m.after '%' ≠ .plain := by
          cases m with
          | plain => exact absurd rfl plain
          | quoted => decide
          | escaped => decide
        have step : ∀ (before : Option Char) {c : Char} (t : Text), IsNameChar c →
            splitFrom? operator words depth 0 (m.after '%') before (c :: t)
              = prependFound c (splitFrom? operator words depth 0 (m.after '%') (some c) t) := by
          intro before c t char
          rw [splitFrom?_cons_of_not_plain inside, Mode.after_nameChar settled char]
        have name := read_name (fun before t => step before t (.inl rfl))
          (fun b c t _ word _ _ => step (some b) t (.inr word)) safe r
        exact (splitFrom?_cons_of_not_plain plain depth '%' _).trans
          (congrArg (prependFound '%') name)

/-- **An operator is found at the same place in both texts.** -/
theorem Renamed.rel_splitAt? (renamed : Renamed names s t) (safe : AreSafe names) :
    Option.Rel (RenamedParts names) (splitAt? operator words s) (splitAt? operator words t) :=
  (foreign.overlooks_splitFrom? names).rel safe renamed (q := (0, 0, .plain)) List.not_mem_nil none

end Operators

end RecordMapper.Text
