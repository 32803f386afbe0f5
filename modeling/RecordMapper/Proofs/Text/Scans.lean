import RecordMapper.Proofs.Text.Balanced

/-!
The scans of query text are lawful.

The search for the parenthesis that closes an open one, the search for an operator from inside a
span, and the flattening of blanks each pass over balanced text. So a parenthesis is closed behind
the balanced text in it (`closing?_append`), and balanced text has no blanks to flatten
(`flattenBlanks_eq`).
-/

namespace RecordMapper.Text

/-! ### Results of a search -/

/-- The results of a search with a character in front of what was passed. -/
def prependFound (c : Char) (found : Option (Text × Text)) : Option (Text × Text) :=
  found.map fun (front, rest) => (c :: front, rest)

theorem exists_of_prependFound {c : Char} {found : Option (Text × Text)} {inner behind : Text}
    (prepended : prependFound c found = some (inner, behind)) :
    ∃ inner', found = some (inner', behind) ∧ inner = c :: inner' := by
  obtain ⟨⟨inner', behind'⟩, rfl, same⟩ := Option.map_eq_some_iff.1 prepended
  cases same
  exact ⟨inner', rfl, rfl⟩

theorem foldr_prependFound (x : Text) (found : Option (Text × Text)) :
    x.foldr prependFound found = found.map fun (front, rest) => (x ++ front, rest) := by
  induction x with
  | nil => simp
  | cons c x ih =>
    rw [List.foldr_cons, ih]
    cases found <;> rfl

/-! ### Literals -/

theorem escapeQuoted_cons (c : Char) (t : Text) :
    escapeQuoted (c :: t) = (if c = '"' ∨ c = '\\' then ['\\', c] else [c]) ++ escapeQuoted t :=
  rfl

/-- A literal is closed by the quote behind its escaped contents. -/
theorem literal?_escapeQuoted (t : Text) :
    literal? (escapeQuoted t ++ ['"']) = some (escapeQuoted t, []) := by
  unfold literal?
  induction t with
  | nil => simp [escapeQuoted, literalFrom?, Mode.after]
  | cons c t ih =>
    rw [escapeQuoted_cons]
    split
    · simp [literalFrom?, Mode.after, ih]
    · rename_i other
      rw [not_or] at other
      simp [literalFrom?, Mode.after, other, ih]

/-- The first character of a closed literal, if it has one, does not close it. -/
theorem closed_cons {m : Mode} {c : Char} {contents rest : Text}
    (closed : literalFrom? m (c :: contents ++ '"' :: rest) = some (c :: contents, rest)) :
    m.after c ≠ .plain
      ∧ literalFrom? (m.after c) (contents ++ '"' :: rest) = some (contents, rest) := by
  have other : m.after c ≠ .plain := by
    intro ends
    simp [literalFrom?, ends] at closed
  rw [List.cons_append, literalFrom?, if_neg other] at closed
  have prepended : prependFound c (literalFrom? (m.after c) (contents ++ '"' :: rest))
      = some (c :: contents, rest) := closed
  obtain ⟨contents', found, same⟩ := exists_of_prependFound prepended
  obtain ⟨-, rfl⟩ := List.cons.inj same
  exact ⟨other, found⟩

/-- A literal without contents is closed by the quote. -/
theorem closed_nil {m : Mode} {rest : Text}
    (closed : literalFrom? m ([] ++ '"' :: rest) = some ([], rest)) : m.after '"' = .plain := by
  by_contra other
  simp [literalFrom?, other] at closed

/-- A closed literal is closed by the same quote, whatever follows. -/
theorem literal?_closed {contents behind : Text}
    (closed : literal? (contents ++ '"' :: behind) = some (contents, behind)) (rest : Text) :
    literal? (contents ++ '"' :: rest) = some (contents, rest) := by
  unfold literal? at closed ⊢
  generalize Mode.quoted = m at closed ⊢
  induction contents generalizing m with
  | nil => rw [List.nil_append, literalFrom?, if_pos (closed_nil closed)]
  | cons c contents ih =>
    obtain ⟨other, inside⟩ := closed_cons closed
    rw [List.cons_append, literalFrom?, if_neg other, ih _ inside]
    rfl

/-- **A literal ends at the quote behind its escaped contents.** -/
theorem literal?_append (t rest : Text) :
    literal? (escapeQuoted t ++ '"' :: rest) = some (escapeQuoted t, rest) :=
  literal?_closed (literal?_escapeQuoted t) rest

/-- A function that takes the characters of a literal one by one takes a closed literal as a
whole. -/
theorem read_closed {ρ : Type} (read : Mode → Option Char → Text → ρ) {prepend : Char → ρ → ρ}
    (inside : ∀ m before c t, m ≠ .plain →
      read m before (c :: t) = prepend c (read (m.after c) (some c) t))
    {m : Mode} (open_ : m ≠ .plain) {contents : Text}
    (closed : literalFrom? m (contents ++ ['"']) = some (contents, [])) (before : Option Char)
    (t : Text) :
    read m before (contents ++ '"' :: t)
      = (contents ++ ['"']).foldr prepend (read .plain (some '"') t) := by
  induction contents generalizing m before with
  | nil =>
    rw [List.nil_append, inside _ _ _ _ open_, closed_nil closed]
    rfl
  | cons c contents ih =>
    obtain ⟨other, behind⟩ := closed_cons closed
    rw [List.cons_append, inside _ _ _ _ open_, ih other behind]
    rfl

/-- So it does with the quote that opens the literal. -/
theorem read_literal {ρ : Type} {read : Mode → Option Char → Text → ρ} {prepend : Char → ρ → ρ}
    (opens : ∀ before t, read .plain before ('"' :: t) = prepend '"' (read .quoted (some '"') t))
    (inside : ∀ m before c t, m ≠ .plain →
      read m before (c :: t) = prepend c (read (m.after c) (some c) t)) {contents : Text}
    (closed : literal? (contents ++ ['"']) = some (contents, [])) (before : Option Char)
    (rest : Text) :
    read .plain before ('"' :: (contents ++ ['"']) ++ rest)
      = ('"' :: (contents ++ ['"'])).foldr prepend
          (read .plain (lastFrom before ('"' :: (contents ++ ['"']))) rest) := by
  have taken := read_closed read inside (by decide) closed (some '"') rest
  rw [← List.cons_append, lastFrom_concat, List.cons_append, List.cons_append, List.append_assoc,
    List.singleton_append, opens, taken]
  rfl

/-! ### The parenthesis that closes an open one -/

/-- The search for the parenthesis that closes an open one. -/
def parenthesesScan : Scan (Option (Text × Text)) where
  read depth _ t := closingFrom? depth .plain t
  prepend := prependFound
  inParens depth := depth + 1
  inBraces depth := depth
  inCase depth := depth

theorem closingFrom?_cons_of_not_plain {m : Mode} (inside : m ≠ .plain) (depth : Nat) (c : Char)
    (t : Text) :
    closingFrom? depth m (c :: t) = prependFound c (closingFrom? depth (m.after c) t) := by
  simp [closingFrom?, inside, prependFound]

theorem closingFrom?_cons_of_other {c : Char} (other : c ≠ '(' ∧ c ≠ ')') (depth : Nat) (t : Text) :
    closingFrom? depth .plain (c :: t)
      = prependFound c (closingFrom? depth (Mode.plain.after c) t) := by
  simp [closingFrom?, other, prependFound]

theorem after_plain_of_ne {c : Char} (other : c ≠ '"') : Mode.plain.after c = .plain := by
  simp [Mode.after, other]

/-- An inert character is none of those that open or close something. -/
theorem IsInert.ne {c : Char} (inert : IsInert c) :
    c ≠ '"' ∧ c ≠ '(' ∧ c ≠ ')' ∧ c ≠ '\x7b' ∧ c ≠ '\x7d' := by
  refine ⟨?_, ?_, ?_, ?_, ?_⟩
  all_goals
    rintro rfl
    simp [IsInert, glueChars, isAsciiWord] at inert

theorem isInert_of_isAlpha {c : Char} (letter : c.isAlpha = true) : IsInert c := by
  left
  simp [isAsciiWord, Char.isAlphanum, letter]

/-- The letters of a word open and close nothing, in any case. -/
theorem ne_of_letters {letters word : Text} (alpha : ∀ a ∈ letters, a.isAlpha = true)
    (all : List.Forall₂ (fun a b => agree true a b = true) letters word) :
    ∀ c ∈ word, c ≠ '"' ∧ c ≠ '(' ∧ c ≠ ')' ∧ c ≠ '\x7b' ∧ c ≠ '\x7d' := by
  intro c mem
  obtain ⟨a, member, same⟩ := exists_agree_of_mem all mem
  exact (isInert_of_isAlpha (isAlpha_of_agree (alpha a member) same)).ne

theorem parenthesesScan_reads_other {c : Char} (quote : c ≠ '"') (other : c ≠ '(' ∧ c ≠ ')')
    (depth : Nat) (before : Option Char) (rest : Text) :
    parenthesesScan.Reads depth before [c] depth rest := by
  have step := closingFrom?_cons_of_other other depth rest
  rw [after_plain_of_ne quote] at step
  exact step

theorem parenthesesScan_reads_inert {c : Char} (inert : IsInert c) (depth : Nat)
    (before : Option Char) (rest : Text) : parenthesesScan.Reads depth before [c] depth rest :=
  parenthesesScan_reads_other inert.ne.1 ⟨inert.ne.2.1, inert.ne.2.2.1⟩ depth before rest

theorem parenthesesScan_reads_literal (depth : Nat) (before : Option Char) {contents : Text}
    (rest : Text) (closed : literal? (contents ++ ['"']) = some (contents, [])) :
    parenthesesScan.Reads depth before ('"' :: (contents ++ ['"'])) depth rest := by
  let read : Mode → Option Char → Text → Option (Text × Text) := fun m _ t => closingFrom? depth m t
  have opens : ∀ before t, read .plain before ('"' :: t)
      = prependFound '"' (read .quoted (some '"') t) :=
    fun _ t => closingFrom?_cons_of_other (by decide) depth t
  have inside : ∀ m before c t, m ≠ .plain →
      read m before (c :: t) = prependFound c (read (m.after c) (some c) t) :=
    fun _ _ c t inside => closingFrom?_cons_of_not_plain inside depth c t
  exact read_literal opens inside closed before rest

theorem parenthesesScan_lawful : parenthesesScan.Lawful where
  inert depth before _ rest inert _ _ := parenthesesScan_reads_inert inert depth before rest
  literal depth before t rest :=
    parenthesesScan_reads_literal depth before rest (literal?_escapeQuoted t)
  openParens depth before rest := by
    simp [Scan.Reads, parenthesesScan, closingFrom?, Mode.after]
    rfl
  closeParens depth before rest := by
    simp [Scan.Reads, parenthesesScan, closingFrom?, Mode.after]
    rfl
  openBraces depth before rest :=
    parenthesesScan_reads_other (by decide) (by decide) depth before rest
  closeBraces depth before rest :=
    parenthesesScan_reads_other (by decide) (by decide) depth before rest
  openCase depth before rest _ _ :=
    .of_each (fun c mem before rest => parenthesesScan_reads_inert
      (isInert_of_isAlpha (letters_caseKeyword c mem)) depth before rest) rest
  closeCase depth before rest _ _ :=
    .of_each (fun c mem before rest => parenthesesScan_reads_inert
      (isInert_of_isAlpha (letters_endKeyword c mem)) depth before rest) rest

/-- A character closes the parenthesis, whatever follows, or the search goes on behind it. -/
theorem closingFrom?_cons (depth : Nat) (m : Mode) (c : Char) :
    (∀ t, closingFrom? depth m (c :: t) = some ([], t))
      ∨ ∃ depth', ∀ t, closingFrom? depth m (c :: t)
        = prependFound c (closingFrom? depth' (m.after c) t) := by
  by_cases opens : m = .plain ∧ c = '('
  · exact .inr ⟨depth + 1, fun t => by rw [closingFrom?.eq_def]; exact if_pos opens⟩
  by_cases closes : m = .plain ∧ c = ')'
  · obtain ⟨rfl, rfl⟩ := closes
    cases depth with
    | zero => exact .inl fun t => rfl
    | succ depth => exact .inr ⟨depth, fun t => rfl⟩
  · refine .inr ⟨depth, fun t => ?_⟩
    rw [closingFrom?.eq_def]
    exact (if_neg opens).trans (if_neg closes)

/-- An open parenthesis is closed by the same one, whatever follows. -/
theorem closing?_closed {inner behind : Text}
    (closed : closing? (inner ++ ')' :: behind) = some (inner, behind)) (rest : Text) :
    closing? (inner ++ ')' :: rest) = some (inner, rest) := by
  unfold closing? at closed ⊢
  generalize Mode.plain = m at closed ⊢
  generalize 0 = depth at closed ⊢
  induction inner generalizing depth m with
  | nil =>
    rcases closingFrom?_cons depth m ')' with closes | ⟨depth', goesOn⟩
    · exact closes rest
    · rw [List.nil_append, goesOn] at closed
      obtain ⟨_, -, same⟩ := exists_of_prependFound closed
      cases same
  | cons c inner ih =>
    rcases closingFrom?_cons depth m c with closes | ⟨depth', goesOn⟩
    · rw [List.cons_append, closes] at closed
      cases closed
    · rw [List.cons_append, goesOn] at closed ⊢
      obtain ⟨inner', found, same⟩ := exists_of_prependFound closed
      obtain ⟨-, rfl⟩ := List.cons.inj same
      rw [ih _ _ found]
      rfl

/-- **The parenthesis that closes an open one is the one behind the balanced text in it.** -/
theorem closing?_append {inner : Text} (balanced : Balanced inner) (rest : Text) :
    closing? (inner ++ ')' :: rest) = some (inner, rest) := by
  have passed : parenthesesScan.Reads 0 none inner 0 (')' :: rest) :=
    parenthesesScan_lawful.reads_balanced balanced clearBefore_none (clearBehind_cons rfl rest)
  have stop : closingFrom? 0 .plain (')' :: rest) = some ([], rest) := by simp [closingFrom?]
  have found : closing? (inner ++ ')' :: rest)
      = inner.foldr prependFound (closingFrom? 0 .plain (')' :: rest)) := passed
  rw [found, foldr_prependFound, stop]
  simp

/-- Text in one pair of parentheses is unwrapped. -/
theorem unwrapped?_group {inner : Text} (balanced : Balanced inner) :
    unwrapped? ('(' :: (inner ++ [')'])) = some inner := by
  rw [unwrapped?, closing?_append balanced]

theorem unwrapped?_cons_eq_none {c : Char} (other : c ≠ '(') (t : Text) :
    unwrapped? (c :: t) = none := by
  unfold unwrapped?
  split
  · rename_i same
    exact absurd (List.cons.inj same).1 other
  · rfl

/-- A text that starts with a word is not unwrapped. -/
theorem unwrapped?_of_word {w : Text} (word : IsAsciiWord w) (rest : Text) :
    unwrapped? (w ++ rest) = none := by
  obtain ⟨c, w, rfl⟩ := List.exists_cons_of_ne_nil word.1
  refine unwrapped?_cons_eq_none ?_ (w ++ rest)
  rintro rfl
  cases word.2 '(' (List.mem_cons_self ..)

/-! ### Blanks -/

/-- The only blank between words is the space. -/
theorem IsInert.eq_space {c : Char} (inert : IsInert c) (blank : isBlank c = true) : c = ' ' := by
  rcases inert with word | glue | rfl
  · rw [isBlank_of_isAsciiWord word] at blank
    cases blank
  · have checked : glueChars.all (fun c => !isBlank c || c == ' ') = true := rfl
    simpa [blank] using of_mem_glueChars checked glue
  · cases blank

/-- The flattening of blanks. -/
def blanksScan : Scan Text where
  read _ _ t := flattenBlanksFrom .plain t
  prepend := List.cons
  inParens depth := depth
  inBraces depth := depth
  inCase depth := depth

theorem blanksScan_reads_other {c : Char} (quote : c ≠ '"') (blank : isBlank c = true → c = ' ')
    (depth : Nat) (before : Option Char) (rest : Text) :
    blanksScan.Reads depth before [c] depth rest := by
  have same : (if Mode.plain = .plain ∧ isBlank c = true then ' ' else c) = c := by
    split
    · rename_i both
      exact (blank both.2).symm
    · rfl
  show flattenBlanksFrom .plain (c :: rest) = c :: flattenBlanksFrom .plain rest
  rw [flattenBlanksFrom, same, after_plain_of_ne quote]

theorem blanksScan_lawful : blanksScan.Lawful where
  inert depth before _ rest inert _ _ :=
    blanksScan_reads_other inert.ne.1 inert.eq_space depth before rest
  literal depth before t rest := by
    let read : Mode → Option Char → Text → Text := fun m _ t => flattenBlanksFrom m t
    have opens : ∀ before t, read .plain before ('"' :: t) = '"' :: read .quoted (some '"') t :=
      fun _ t => rfl
    have inside : ∀ m before c t, m ≠ .plain →
        read m before (c :: t) = c :: read (m.after c) (some c) t := by
      intro m _ c t inside
      simp [read, flattenBlanksFrom, inside]
    exact read_literal opens inside (literal?_escapeQuoted t) before rest
  openParens := blanksScan_reads_other (by decide) (by decide)
  closeParens := blanksScan_reads_other (by decide) (by decide)
  openBraces := blanksScan_reads_other (by decide) (by decide)
  closeBraces := blanksScan_reads_other (by decide) (by decide)
  openCase depth before rest _ _ := by
    refine .of_each (fun c mem before rest => ?_) rest
    have inert := isInert_of_isAlpha (letters_caseKeyword c mem)
    exact blanksScan_reads_other inert.ne.1 inert.eq_space depth before rest
  closeCase depth before rest _ _ := by
    refine .of_each (fun c mem before rest => ?_) rest
    have inert := isInert_of_isAlpha (letters_endKeyword c mem)
    exact blanksScan_reads_other inert.ne.1 inert.eq_space depth before rest

/-- **Balanced text has no blanks to flatten.** -/
theorem flattenBlanks_eq {t : Text} (balanced : Balanced t) : flattenBlanks t = t := by
  have passed : blanksScan.Reads 0 none t 0 [] :=
    blanksScan_lawful.reads_balanced balanced clearBefore_none clearBehind_nil
  have found : flattenBlanks (t ++ []) = t.foldr List.cons [] := passed
  simpa using found

/-! ### Operators -/

section Operators

variable {operator : Text} {words : Bool} {before : Option Char}

/-- The search for an operator. -/
def operatorScan (operator : Text) (words : Bool) : Scan (Option (Text × Text)) where
  read depth before t := splitFrom? operator words depth 0 .plain before t
  prepend := prependFound
  inParens depth := depth + 1
  inBraces depth := depth + 1
  inCase depth := depth + 1

/-- One step of the search outside literals and keywords. -/
theorem splitFrom?_cons_plain (depth : Nat) (c : Char) (t : Text) :
    splitFrom? operator words depth 0 .plain before (c :: t)
      = (let next (depth skip : Nat) := prependFound c
          (splitFrom? operator words depth skip (Mode.plain.after c) (some c) t)
        if c = '"' then next depth 0
        else if c = '(' ∨ c = '\x7b' then next (depth + 1) 0
        else if c = ')' ∨ c = '\x7d' then next (depth - 1) 0
        else if startsKeyword caseKeyword before (c :: t) then next (depth + 1) 3
        else if startsKeyword endKeyword before (c :: t) then next (depth - 1) 2
        else if depth = 0 then
          match afterOperator? operator words before (c :: t) with
          | some rest => some ([], rest)
          | none => next 0 0
        else next depth 0) := by
  rw [splitFrom?, if_pos rfl]
  rfl

theorem splitFrom?_cons_of_not_plain {m : Mode} (inside : m ≠ .plain) (depth : Nat) (c : Char)
    (t : Text) :
    splitFrom? operator words depth 0 m before (c :: t)
      = prependFound c (splitFrom? operator words depth 0 (m.after c) (some c) t) := by
  exact if_neg inside

/-- The letters of a keyword that was counted are skipped. -/
theorem splitFrom?_skip (skipped rest : Text) (letters : ∀ c ∈ skipped, c ≠ '"') (depth : Nat) :
    splitFrom? operator words depth skipped.length .plain before (skipped ++ rest)
      = skipped.foldr prependFound
          (splitFrom? operator words depth 0 .plain (lastFrom before skipped) rest) := by
  induction skipped generalizing before with
  | nil => rfl
  | cons c skipped ih =>
    have plain := after_plain_of_ne (letters c (List.mem_cons_self ..))
    have others := @ih (some c) fun d mem => letters d (List.mem_cons_of_mem _ mem)
    have step : splitFrom? operator words depth (skipped.length + 1) .plain before
          (c :: (skipped ++ rest))
        = prependFound c (splitFrom? operator words depth skipped.length (Mode.plain.after c)
            (some c) (skipped ++ rest)) := rfl
    rw [List.length_cons, List.cons_append, step, plain]
    exact congrArg (prependFound c) others

theorem operatorScan_reads_literal (depth : Nat) (before : Option Char) {contents : Text}
    (rest : Text) (closed : literal? (contents ++ ['"']) = some (contents, [])) :
    (operatorScan operator words).Reads depth before ('"' :: (contents ++ ['"'])) depth rest := by
  let read : Mode → Option Char → Text → Option (Text × Text) :=
    fun m before t => splitFrom? operator words depth 0 m before t
  have opens : ∀ before t, read .plain before ('"' :: t)
      = prependFound '"' (read .quoted (some '"') t) := by
    intro before t
    simp [read, splitFrom?_cons_plain, Mode.after, prependFound]
  have inside : ∀ m before c t, m ≠ .plain →
      read m before (c :: t) = prependFound c (read (m.after c) (some c) t) :=
    fun _ _ c t inside => splitFrom?_cons_of_not_plain inside depth c t
  exact read_literal opens inside closed before rest

theorem operatorScan_reads_open {c : Char} (opens : c = '(' ∨ c = '\x7b') (depth : Nat)
    (before : Option Char) (rest : Text) :
    (operatorScan operator words).Reads depth before [c] (depth + 1) rest := by
  rcases opens with rfl | rfl
  all_goals
    simp [Scan.Reads, operatorScan, splitFrom?_cons_plain, Mode.after, lastFrom]

theorem operatorScan_reads_close {c : Char} (closes : c = ')' ∨ c = '\x7d') (depth : Nat)
    (before : Option Char) (rest : Text) :
    (operatorScan operator words).Reads (depth + 1) before [c] depth rest := by
  rcases closes with rfl | rfl
  all_goals
    simp [Scan.Reads, operatorScan, splitFrom?_cons_plain, Mode.after, lastFrom]

/-- A keyword that opens a case distinction is counted, in any letter case. -/
theorem operatorScan_reads_openCase (depth : Nat) {before : Option Char} {word rest : Text}
    (same : sameLetters caseKeyword word = true) (alone : standsAlone before rest.head? = true) :
    (operatorScan operator words).Reads depth before word (depth + 1) rest := by
  have all := sameLetters_iff.1 same
  have inert := ne_of_letters letters_caseKeyword all
  have starts : startsKeyword caseKeyword before (word ++ rest) = true := by
    rw [startsKeyword, after?_eq_some_iff.2 ⟨word, all, rfl⟩]
    exact alone
  have length : word.length = 4 := all.length_eq.symm
  obtain ⟨c, others, rfl⟩ := List.exists_cons_of_length_eq_add_one length
  have skipped : others.length = 3 := Nat.succ.inj length
  obtain ⟨other, inside⟩ := List.forall_mem_cons.1 inert
  have first : splitFrom? operator words depth 0 .plain before (c :: (others ++ rest))
      = prependFound c (splitFrom? operator words (depth + 1) others.length .plain (some c)
          (others ++ rest)) := by
    rw [List.cons_append] at starts
    simp [splitFrom?_cons_plain, other, starts, skipped, after_plain_of_ne other.1, prependFound]
  exact first.trans (congrArg (prependFound c)
    (splitFrom?_skip others rest (fun d mem => (inside d mem).1) (depth + 1)))

/-- So is the keyword that closes one. -/
theorem operatorScan_reads_closeCase (depth : Nat) {before : Option Char} {word rest : Text}
    (same : sameLetters endKeyword word = true) (alone : standsAlone before rest.head? = true) :
    (operatorScan operator words).Reads (depth + 1) before word depth rest := by
  have all := sameLetters_iff.1 same
  have inert := ne_of_letters letters_endKeyword all
  have starts : startsKeyword endKeyword before (word ++ rest) = true := by
    rw [startsKeyword, after?_eq_some_iff.2 ⟨word, all, rfl⟩]
    exact alone
  cases all with
  | @cons _ c _ others first all =>
    have skipped : others.length = 2 := all.length_eq.symm
    have noCase : startsKeyword caseKeyword before (c :: (others ++ rest)) = false := by
      have differ : agree true 'C' c = false := (agree_congr first 'C').symm
      rw [startsKeyword, caseKeyword, after?, if_neg (ne_true_of_eq_false differ)]
    obtain ⟨other, inside⟩ := List.forall_mem_cons.1 inert
    have first : splitFrom? operator words (depth + 1) 0 .plain before (c :: (others ++ rest))
        = prependFound c (splitFrom? operator words depth others.length .plain (some c)
            (others ++ rest)) := by
      rw [List.cons_append] at starts
      simp [splitFrom?_cons_plain, other, noCase, starts, skipped, after_plain_of_ne other.1,
        prependFound]
    exact first.trans (congrArg (prependFound c)
      (splitFrom?_skip others rest (fun d mem => (inside d mem).1) depth))

/-- A character inside a span is passed, if it opens and closes nothing. -/
theorem operatorScan_reads_other {c : Char}
    (other : c ≠ '"' ∧ c ≠ '(' ∧ c ≠ ')' ∧ c ≠ '\x7b' ∧ c ≠ '\x7d') {rest : Text}
    (noCase : startsKeyword caseKeyword before (c :: rest) = false)
    (noEnd : startsKeyword endKeyword before (c :: rest) = false) (depth : Nat) :
    (operatorScan operator words).Reads (depth + 1) before [c] (depth + 1) rest := by
  have step : splitFrom? operator words (depth + 1) 0 .plain before (c :: rest)
      = prependFound c (splitFrom? operator words (depth + 1) 0 (Mode.plain.after c) (some c)
          rest) := by
    simp [splitFrom?_cons_plain, other, noCase, noEnd, prependFound]
  rw [after_plain_of_ne other.1] at step
  exact step

/-- At the outermost level a character is passed, if it opens and closes nothing and no operator
starts with it. -/
theorem operatorScan_reads_top {c : Char}
    (other : c ≠ '"' ∧ c ≠ '(' ∧ c ≠ ')' ∧ c ≠ '\x7b' ∧ c ≠ '\x7d') {rest : Text}
    (noCase : startsKeyword caseKeyword before (c :: rest) = false)
    (noEnd : startsKeyword endKeyword before (c :: rest) = false)
    (missed : afterOperator? operator words before (c :: rest) = none) :
    (operatorScan operator words).Reads 0 before [c] 0 rest := by
  have step : splitFrom? operator words 0 0 .plain before (c :: rest)
      = prependFound c (splitFrom? operator words 0 0 (Mode.plain.after c) (some c) rest) := by
    simp [splitFrom?_cons_plain, other, noCase, noEnd, missed, prependFound]
  rw [after_plain_of_ne other.1] at step
  exact step

/-- The search for an operator inside a span. -/
def insideScan (operator : Text) (words : Bool) : Scan (Option (Text × Text)) :=
  { operatorScan operator words with
    read := fun depth => (operatorScan operator words).read (depth + 1) }

theorem insideScan_lawful : (insideScan operator words).Lawful where
  inert depth _ _ _ inert noCase noEnd := operatorScan_reads_other inert.ne noCase noEnd depth
  literal depth before t rest :=
    operatorScan_reads_literal (depth + 1) before rest (literal?_escapeQuoted t)
  openParens depth := operatorScan_reads_open (.inl rfl) (depth + 1)
  closeParens depth := operatorScan_reads_close (.inl rfl) (depth + 1)
  openBraces depth := operatorScan_reads_open (.inr rfl) (depth + 1)
  closeBraces depth := operatorScan_reads_close (.inr rfl) (depth + 1)
  openCase depth _ _ clear behind :=
    operatorScan_reads_openCase (depth + 1) rfl (standsAlone_of_clear clear behind)
  closeCase depth _ _ clear behind :=
    operatorScan_reads_closeCase (depth + 1) rfl (standsAlone_of_clear clear behind)

/-- What is read to the end of a text holds no operator. -/
theorem splitAt?_eq_none {t : Text} (reads : (operatorScan operator words).Reads 0 none t 0 []) :
    splitAt? operator words t = none := by
  have found : splitAt? operator words (t ++ []) = t.foldr prependFound none := reads
  rw [List.append_nil, foldr_prependFound] at found
  exact found

/-- The first operator behind what is read splits the text there. -/
theorem splitAt?_of_reads {x ahead behind : Text}
    (reads : (operatorScan operator words).Reads 0 none x 0 ahead)
    (other : ∀ c ∈ ahead.head?, c ≠ '"' ∧ c ≠ '(' ∧ c ≠ ')' ∧ c ≠ '\x7b' ∧ c ≠ '\x7d')
    (noCase : startsKeyword caseKeyword (lastFrom none x) ahead = false)
    (noEnd : startsKeyword endKeyword (lastFrom none x) ahead = false)
    (nonempty : ahead ≠ [])
    (found : afterOperator? operator words (lastFrom none x) ahead = some behind) :
    splitAt? operator words (x ++ ahead) = some (x, behind) := by
  have stop : splitFrom? operator words 0 0 .plain (lastFrom none x) ahead = some ([], behind) := by
    obtain ⟨c, tail, rfl⟩ := List.exists_cons_of_ne_nil nonempty
    have plain := other c rfl
    simp [splitFrom?, plain, noCase, noEnd, found]
  have passed : splitAt? operator words (x ++ ahead)
      = x.foldr prependFound (splitFrom? operator words 0 0 .plain (lastFrom none x) ahead) := reads
  rw [passed, stop, foldr_prependFound]
  simp

end Operators

end RecordMapper.Text
