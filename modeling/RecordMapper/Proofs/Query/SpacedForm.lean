import RecordMapper.Proofs.Query.Mentions
import RecordMapper.Proofs.Text.SpacedScans

/-!
Forms of a text that is spaced in two ways.

A form is found in both sides or in none. What it takes out is the same where it is a word, a name or
a literal, and made of the same cells where it is text to be read further: the body before an alias
(`Form.exists_splitAlias`), the arguments of a call (`Form.exists_call?`) and the body of a case
distinction (`Form.exists_case?`). The last one depends on a gap: `CASE` and `END` with one blank
between them are no case distinction.
-/

namespace RecordMapper

open Text

namespace Spacing

variable {P : Spacing}

/-! ### Blanks -/

/-- What follows a gap does not start with another one. -/
theorem trimStart_of_gap {run : Side → Text} (spaced : Spaced (.gap run :: P)) : P.trimStart = P := by
  cases P with
  | nil => rfl
  | cons cell P =>
    have solid : cell.isGap = false := by
      rcases (List.isChain_cons_cons.1 spaced.apart).1 with gap | solid
      · cases gap
      · exact solid
    rw [trimStart, List.dropWhile_cons, solid]
    rfl

/-- Both sides start with blanks or none does. -/
theorem exists_afterBlanks? (spaced : P.Spaced) :
    (∃ run rest, P = .gap run :: rest
        ∧ ∀ side, Form.afterBlanks? (text side P) = some (text side rest))
      ∨ ∀ side, Form.afterBlanks? (text side P) = none := by
  cases P with
  | nil => exact .inr fun _ => rfl
  | cons cell rest =>
    have holds := spaced.separate cell (List.mem_cons_self ..)
    cases cell with
    | char c =>
      refine .inr fun side => ?_
      show (if isBlank c then _ else none) = none
      rw [holds.1, if_neg Bool.false_ne_true]
    | literal contents => exact .inr fun side => rfl
    | gap run =>
      have isRun : IsRun run := holds
      refine .inl ⟨run, rest, rfl, fun side => ?_⟩
      obtain ⟨b, blanks, here, blank⟩ := isRun.exists_cons side
      have trimmed := trimStart_eq spaced.separate side
      have behind : trimStart (.gap run :: rest) = rest := trimStart_of_gap spaced
      rw [behind, text_cons, Cell.text, here, List.cons_append, Text.trimStart,
        List.dropWhile_cons_of_pos blank] at trimmed
      rw [text_cons, Cell.text, here, List.cons_append, Form.afterBlanks?, if_pos blank]
      exact congrArg some trimmed

/-! ### Words -/

/-- Characters of a kind that no blank and no quote is of start both sides alike. -/
theorem exists_takeWhile {p : Char → Bool} (hidden : ∀ c, isBlank c = true → p c = false)
    (quote : p '"' = false) (separate : ∀ cell ∈ P, cell.Separate) :
    ∃ x rest, P = ofText x ++ rest
      ∧ ∀ side, (text side P).takeWhile p = x ∧ (text side P).dropWhile p = text side rest := by
  induction P with
  | nil => exact ⟨[], [], rfl, fun _ => ⟨rfl, rfl⟩⟩
  | cons cell P ih =>
    obtain ⟨holds, others⟩ := List.forall_mem_cons.1 separate
    have stops : ∀ {c : Char} (t : Text), p c = false →
        (c :: t).takeWhile p = [] ∧ (c :: t).dropWhile p = c :: t := by
      intro c t other
      simp [other]
    cases cell with
    | char c =>
      cases here : p c with
      | false => exact ⟨[], .char c :: P, rfl, fun side => stops (text side P) here⟩
      | true =>
        obtain ⟨x, rest, rfl, found⟩ := ih others
        refine ⟨c :: x, rest, rfl, fun side => ?_⟩
        obtain ⟨taken, dropped⟩ := found side
        rw [text_cons, Cell.text, List.singleton_append, List.takeWhile_cons_of_pos here,
          List.dropWhile_cons_of_pos here, taken, dropped]
        exact ⟨rfl, rfl⟩
    | literal contents => exact ⟨[], .literal contents :: P, rfl, fun side => stops _ quote⟩
    | gap run =>
      have isRun : IsRun run := holds
      refine ⟨[], .gap run :: P, rfl, fun side => ?_⟩
      obtain ⟨b, blanks, here, blank⟩ := isRun.exists_cons side
      rw [text_cons, Cell.text, here]
      exact stops _ (hidden b blank)

/-- The same word starts both sides or none. -/
theorem exists_word? (separate : ∀ cell ∈ P, cell.Separate) :
    (∃ x rest, P = ofText x ++ rest
        ∧ ∀ side, Form.word? (text side P) = some (x, text side rest))
      ∨ ∀ side, Form.word? (text side P) = none := by
  obtain ⟨x, rest, whole, found⟩ :=
    exists_takeWhile (p := isWord) (fun c => isWord_of_isBlank) (by decide) separate
  have unfolded : ∀ side, Form.word? (text side P)
      = if x.isEmpty then none else some (x, text side rest) := by
    intro side
    rw [Form.word?, (found side).1, (found side).2]
  simp only [unfolded]
  cases x.isEmpty with
  | true => exact .inr fun _ => if_pos rfl
  | false => exact .inl ⟨x, rest, whole, fun _ => if_neg Bool.false_ne_true⟩

/-- The same digits start both sides or none. -/
theorem exists_digits? (separate : ∀ cell ∈ P, cell.Separate) :
    (∃ x rest, P = ofText x ++ rest
        ∧ ∀ side, Form.digits? (text side P) = some (x, text side rest))
      ∨ ∀ side, Form.digits? (text side P) = none := by
  obtain ⟨x, rest, whole, found⟩ :=
    exists_takeWhile (p := isDigit) (fun c => isDigit_of_isBlank) (by decide) separate
  have unfolded : ∀ side, Form.digits? (text side P)
      = if x.isEmpty then none else some (x, text side rest) := by
    intro side
    rw [Form.digits?, (found side).1, (found side).2]
  simp only [unfolded]
  cases x.isEmpty with
  | true => exact .inr fun _ => if_pos rfl
  | false => exact .inl ⟨x, rest, whole, fun _ => if_neg Bool.false_ne_true⟩

/-- Both sides start with the character or none does. -/
theorem exists_head {c : Char} (visible : isBlank c = false) (unquoted : c ≠ '"')
    (separate : ∀ cell ∈ P, cell.Separate) :
    (∃ rest, P = .char c :: rest) ∨ ∀ side t, text side P ≠ c :: t := by
  cases P with
  | nil => exact .inr fun _ _ => nofun
  | cons cell rest =>
    cases cell with
    | char d =>
      by_cases same : d = c
      · exact .inl ⟨rest, by rw [same]⟩
      · exact .inr fun side t here => same (List.cons.inj here).1
    | literal contents => exact .inr fun side t here => unquoted (List.cons.inj here).1.symm
    | gap run =>
      have isRun : IsRun run := separate _ (List.mem_cons_self ..)
      refine .inr fun side t here => ?_
      obtain ⟨b, blanks, same, blank⟩ := isRun.exists_cons side
      rw [text_cons, Cell.text, same] at here
      rw [(List.cons.inj here).1, visible] at blank
      cases blank

end Spacing

namespace Form

theorem isAfter_afterWord? : IsAfter (fun a b => decide (fold a = fold b)) afterWord? where
  nil _ := rfl
  short _ _ := rfl
  cons a start b t := by simp [afterWord?]

theorem fold_of_isBlank {b : Char} (blank : isBlank b = true) : fold b = b := by
  have other : b ≠ 'ſ' := by
    rintro rfl
    cases blank
  rw [fold, if_neg other]
  rcases toLower_eq_or b with same | ⟨letter, -⟩
  · exact same
  · rw [not_isAlpha_of_isBlank blank] at letter
    cases letter

theorem isVisible_of_fold {w : Text}
    (checked : (w.all fun a => !isBlank (fold a) && fold a != '"') = true) :
    IsVisible (fun a b => decide (fold a = fold b)) w := by
  intro a mem
  have holds := List.all_eq_true.1 checked a mem
  simp only [Bool.and_eq_true, Bool.not_eq_true', bne_iff_ne] at holds
  refine ⟨decide_eq_false holds.2, fun b blank => decide_eq_false ?_⟩
  intro same
  rw [fold_of_isBlank blank] at same
  rw [same, blank] at holds
  cases holds.1

theorem isWritten_of_forall₂ {w x : Text}
    (all : List.Forall₂ (fun a b => decide (fold a = fold b) = true) w x) : IsWritten w x := by
  induction all with
  | nil => rfl
  | cons same _ ih => exact List.cons_eq_cons.2 ⟨(of_decide_eq_true same).symm, ih⟩

variable {P : Spacing}

/-- A keyword starts both sides or none. -/
theorem exists_afterWord? (word : Text)
    (checked : (word.all fun a => !isBlank (fold a) && fold a != '"') = true)
    (separate : ∀ cell ∈ P, cell.Separate) :
    (∃ x rest, P = .ofText x ++ rest ∧ IsWritten word x
        ∧ ∀ side, afterWord? word (P.text side) = some (Spacing.text side rest))
      ∨ ∀ side, afterWord? word (P.text side) = none := by
  rcases Spacing.exists_after_end isAfter_afterWord? (isVisible_of_fold checked) separate with
    ⟨x, rest, whole, all, found⟩ | missed
  · exact .inl ⟨x, rest, whole, isWritten_of_forall₂ all, found⟩
  · exact .inr missed

/-! ### Readers -/

/-- What `read` leaves of the sides is made of the same cells, or it refuses both. -/
def Leaves (read : Text → Option Text) (P : Spacing) : Prop :=
  (∃ rest, rest <:+ P ∧ ∀ side, read (P.text side) = some (Spacing.text side rest))
    ∨ ∀ side, read (P.text side) = none

/-- Moreover, it takes the same out of them. -/
def Takes {α : Type} (read : Text → Option (α × Text)) (P : Spacing) : Prop :=
  (∃ a rest, rest <:+ P ∧ ∀ side, read (P.text side) = some (a, Spacing.text side rest))
    ∨ ∀ side, read (P.text side) = none

section Readers

variable {α β : Type}

theorem Leaves.bind_eq {read : Text → Option Text} (leaves : Leaves read P) {next : Text → Option β}
    (same : ∀ rest, rest <:+ P → next (Spacing.text .left rest) = next (Spacing.text .right rest)) :
    (read (P.text .left)).bind next = (read (P.text .right)).bind next := by
  rcases leaves with ⟨rest, isSuffix, found⟩ | missed
  · rw [found, found, Option.bind_some, Option.bind_some, same rest isSuffix]
  · rw [missed, missed]

theorem Takes.bind_eq {read : Text → Option (α × Text)} (takes : Takes read P)
    {next : α × Text → Option β} (same : ∀ a rest, rest <:+ P →
      next (a, Spacing.text .left rest) = next (a, Spacing.text .right rest)) :
    (read (P.text .left)).bind next = (read (P.text .right)).bind next := by
  rcases takes with ⟨a, rest, isSuffix, found⟩ | missed
  · rw [found, found, Option.bind_some, Option.bind_some, same a rest isSuffix]
  · rw [missed, missed]

theorem Leaves.bind {read : Text → Option Text} (leaves : Leaves read P)
    {next : Text → Option (β × Text)} (takes : ∀ rest, rest <:+ P → Takes next rest) :
    Takes (fun t => (read t).bind next) P := by
  rcases leaves with ⟨rest, isSuffix, found⟩ | missed
  · rcases takes rest isSuffix with ⟨b, rest', isSuffix', found'⟩ | missed
    · refine .inl ⟨b, rest', isSuffix'.trans isSuffix, fun side => ?_⟩
      dsimp only
      rw [found, Option.bind_some, found']
    · refine .inr fun side => ?_
      dsimp only
      rw [found, Option.bind_some, missed]
  · refine .inr fun side => ?_
    dsimp only
    rw [missed, Option.bind_none]

theorem Takes.bind {read : Text → Option (α × Text)} (takes : Takes read P)
    {next : α × Text → Option (β × Text)}
    (takes' : ∀ a rest, rest <:+ P → Takes (fun t => next (a, t)) rest) :
    Takes (fun t => (read t).bind next) P := by
  rcases takes with ⟨a, rest, isSuffix, found⟩ | missed
  · rcases takes' a rest isSuffix with ⟨b, rest', isSuffix', found'⟩ | missed
    · refine .inl ⟨b, rest', isSuffix'.trans isSuffix, fun side => ?_⟩
      dsimp only
      rw [found, Option.bind_some]
      exact found' side
    · refine .inr fun side => ?_
      dsimp only
      rw [found, Option.bind_some]
      exact missed side
  · refine .inr fun side => ?_
    dsimp only
    rw [missed, Option.bind_none]

end Readers

theorem leaves_afterBlanks? (spaced : P.Spaced) : Leaves afterBlanks? P := by
  rcases Spacing.exists_afterBlanks? spaced with ⟨run, rest, rfl, found⟩ | missed
  · exact .inl ⟨rest, List.suffix_cons _ rest, found⟩
  · exact .inr missed

theorem leaves_afterWord? {word : Text}
    (checked : (word.all fun a => !isBlank (fold a) && fold a != '"') = true)
    (spaced : P.Spaced) : Leaves (afterWord? word) P := by
  rcases exists_afterWord? word checked spaced.separate with ⟨x, rest, rfl, -, found⟩ | missed
  · exact .inl ⟨rest, List.suffix_append _ rest, found⟩
  · exact .inr missed

theorem takes_word? (spaced : P.Spaced) : Takes word? P := by
  rcases Spacing.exists_word? spaced.separate with ⟨x, rest, rfl, found⟩ | missed
  · exact .inl ⟨x, rest, List.suffix_append _ rest, found⟩
  · exact .inr missed

theorem takes_digits? (spaced : P.Spaced) : Takes digits? P := by
  rcases Spacing.exists_digits? spaced.separate with ⟨x, rest, rfl, found⟩ | missed
  · exact .inl ⟨x, rest, List.suffix_append _ rest, found⟩
  · exact .inr missed

/-! ### Aliases -/

theorem isEmpty_eq (spaced : P.Spaced) : (P.text .left).isEmpty = (P.text .right).isEmpty := by
  rw [Bool.eq_iff_iff, List.isEmpty_iff, List.isEmpty_iff, Spacing.text_eq_nil_iff spaced.separate,
    Spacing.text_eq_nil_iff spaced.separate]

theorem ending?_of_ne_nil {t : Text} (nonempty : t ≠ []) :
    ending? t = (afterBlanks? t).bind fun t => (afterWord? ['A', 'S'] t).bind fun t =>
      (afterBlanks? t).bind fun t => (word? t).bind fun (name, rest) =>
        if rest.isEmpty then some (some (String.ofList name)) else none := by
  obtain ⟨c, t, rfl⟩ := List.exists_cons_of_ne_nil nonempty
  rfl

/-- **Both sides end in the same alias, or none does.** -/
theorem ending?_eq (spaced : P.Spaced) : ending? (P.text .left) = ending? (P.text .right) := by
  by_cases empty : P = []
  · rw [empty]
    rfl
  · have nonempty := Spacing.text_ne_nil spaced.separate empty
    rw [ending?_of_ne_nil (nonempty .left), ending?_of_ne_nil (nonempty .right)]
    refine (leaves_afterBlanks? spaced).bind_eq fun rest isSuffix => ?_
    have spaced := spaced.of_isInfix isSuffix.isInfix
    refine (leaves_afterWord? rfl spaced).bind_eq fun rest isSuffix => ?_
    have spaced := spaced.of_isInfix isSuffix.isInfix
    refine (leaves_afterBlanks? spaced).bind_eq fun rest isSuffix => ?_
    have spaced := spaced.of_isInfix isSuffix.isInfix
    refine (takes_word? spaced).bind_eq fun name rest isSuffix => ?_
    dsimp only
    rw [isEmpty_eq (spaced.of_isInfix isSuffix.isInfix)]

/-- The name of an alias at the end of a reversed chain, and the chain that is left. -/
def reversedAlias? (t : Text) : Option (Text × Text) :=
  (word? t).bind fun (name, rest) =>
    if (name.getLast?).any isNameStart then
      (afterBlanks? rest).bind fun rest => (afterWord? ['S', 'A'] rest).bind fun rest =>
        (afterBlanks? rest).bind fun rest => if rest.isEmpty then none else some (name, rest)
    else none

theorem splitAlias_eq (t : Text) :
    splitAlias t = match reversedAlias? t.reverse with
      | some (name, rest) => (rest.reverse, some name.reverse)
      | none => (t, none) := by
  unfold splitAlias reversedAlias?
  cases word? t.reverse with
  | none => rfl
  | some found =>
    obtain ⟨name, rest⟩ := found
    simp only [Option.bind_eq_bind, Option.bind_some]
    cases name.getLast? with
    | none => rfl
    | some first =>
      rw [Option.bind_some, Option.any_some]
      cases isNameStart first with
      | false => rfl
      | true =>
        simp only [if_true]
        cases afterBlanks? rest with
        | none => rfl
        | some rest =>
          rw [Option.bind_some, Option.bind_some]
          cases afterWord? ['S', 'A'] rest with
          | none => rfl
          | some rest =>
            rw [Option.bind_some, Option.bind_some]
            cases afterBlanks? rest with
            | none => rfl
            | some rest => cases rest <;> rfl

theorem takes_reversedAlias? (spaced : P.Spaced) : Takes reversedAlias? P := by
  refine (takes_word? spaced).bind fun name rest isSuffix => ?_
  have spaced := spaced.of_isInfix isSuffix.isInfix
  dsimp only
  cases name.getLast?.any isNameStart with
  | false => exact .inr fun side => rfl
  | true =>
    simp only [if_true]
    refine (leaves_afterBlanks? spaced).bind fun rest isSuffix => ?_
    have spaced := spaced.of_isInfix isSuffix.isInfix
    refine (leaves_afterWord? rfl spaced).bind fun rest isSuffix => ?_
    have spaced := spaced.of_isInfix isSuffix.isInfix
    refine (leaves_afterBlanks? spaced).bind fun rest isSuffix => ?_
    have spaced := spaced.of_isInfix isSuffix.isInfix
    by_cases empty : rest = []
    · exact .inr fun side => by rw [empty]; rfl
    · have more := fun side =>
        List.isEmpty_eq_false_iff.2 (Spacing.text_ne_nil spaced.separate empty side)
      refine .inl ⟨name, rest, List.suffix_refl rest, fun side => ?_⟩
      dsimp only
      rw [more, if_neg Bool.false_ne_true]

/-- **The same alias is split off both sides, or none is**, and what is left is made of the same
cells. -/
theorem exists_splitAlias (spaced : P.Spaced) :
    ∃ Q a, Q <:+: P ∧ ∀ side, splitAlias (P.text side) = (Spacing.text side Q, a) := by
  simp only [splitAlias_eq, ← Spacing.text_flip]
  rcases takes_reversedAlias? spaced.flip with ⟨name, rest, ⟨front, whole⟩, found⟩ | missed
  · refine ⟨Spacing.flip rest, some name.reverse, ?_, fun side => ?_⟩
    · rw [← P.flip_flip, ← whole, Spacing.flip_append]
      exact (List.prefix_append _ _).isInfix
    · rw [found, Spacing.text_flip]
  · exact ⟨P, none, List.infix_refl P, fun side => by rw [missed]⟩

/-! ### Fields and literals -/

/-- **Both sides are the same field reference, or none is one.** -/
theorem field?_brace (t : Text) : field? ('\x7b' :: t) = (word? t).bind fun (first, rest) =>
    match rest with
    | '\x7d' :: rest => (ending? rest).bind fun a => some ⟨none, String.ofList first, a⟩
    | '.' :: rest => (word? rest).bind fun (second, rest) =>
      match rest with
      | '\x7d' :: rest =>
        (ending? rest).bind fun a => some ⟨some (String.ofList first), String.ofList second, a⟩
      | _ => none
    | _ => none :=
  rfl

theorem field?_eq (spaced : P.Spaced) : field? (P.text .left) = field? (P.text .right) := by
  rcases Spacing.exists_head (c := '\x7b') rfl (by decide) spaced.separate with ⟨t, rfl⟩ | other
  swap
  · have missed : ∀ side, field? (P.text side) = none := by
      intro side
      unfold field?
      split
      · rename_i t here
        exact absurd here (other side t)
      · rfl
    rw [missed, missed]
  rw [Spacing.text_cons, Spacing.text_cons, Cell.text, Cell.text, List.singleton_append,
    List.singleton_append, field?_brace, field?_brace]
  have spaced := spaced.of_cons
  refine (takes_word? spaced).bind_eq fun first rest isSuffix => ?_
  have spaced := spaced.of_isInfix isSuffix.isInfix
  dsimp only
  rcases Spacing.exists_head (c := '\x7d') rfl (by decide) spaced.separate with ⟨t, rfl⟩ | other
  · exact congrArg (Option.bind · _) (ending?_eq spaced.of_cons)
  rcases Spacing.exists_head (c := '.') rfl (by decide) spaced.separate with ⟨t, rfl⟩ | other'
  · have spaced := spaced.of_cons
    refine (takes_word? spaced).bind_eq fun second rest isSuffix => ?_
    have spaced := spaced.of_isInfix isSuffix.isInfix
    dsimp only
    rcases Spacing.exists_head (c := '\x7d') rfl (by decide) spaced.separate with ⟨t, rfl⟩ | other
    · exact congrArg (Option.bind · _) (ending?_eq spaced.of_cons)
    · have left := other .left
      have right := other .right
      split
      · rename_i here
        exact absurd here (left _)
      · rfl
  · have left := other .left
    have right := other .right
    have left' := other' .left
    have right' := other' .right
    split
    · rename_i here
      exact absurd here (left _)
    · rename_i here
      exact absurd here (left' _)
    · rfl

/-- The same number without a sign starts both sides or none. -/
theorem takes_unsigned? (spaced : P.Spaced) : Takes unsigned? P := by
  refine (takes_digits? spaced).bind fun whole rest isSuffix => ?_
  have spaced := spaced.of_isInfix isSuffix.isInfix
  rcases Spacing.exists_head (c := '.') rfl (by decide) spaced.separate with ⟨t, rfl⟩ | other
  · have behind : ∀ side, Spacing.text side (.char '.' :: t) = '.' :: Spacing.text side t :=
      fun side => rfl
    rcases takes_digits? spaced.of_cons with ⟨fraction, rest, isSuffix', found⟩ | missed
    · refine .inl ⟨whole ++ '.' :: fraction, rest, isSuffix'.trans (List.suffix_cons _ t),
        fun side => ?_⟩
      simp only [behind, found]
    · refine .inl ⟨whole, .char '.' :: t, List.suffix_refl _, fun side => ?_⟩
      simp only [behind, missed]
  · refine .inl ⟨whole, rest, List.suffix_refl _, fun side => ?_⟩
    have none := other side
    dsimp only
    split
    · rename_i here
      exact absurd here (none _)
    · rfl

/-- **Both sides are the same literal, or none is one.** -/
theorem literal?_eq (lawful : P.Lawful) : literal? (P.text .left) = literal? (P.text .right) := by
  have spaced := lawful.toSpaced
  have starts : Takes literalStart? P := by
    cases P with
    | nil => exact .inr fun side => rfl
    | cons cell rest =>
      have number : (∀ side t, Spacing.text side (cell :: rest) ≠ '"' :: t) →
          (∀ side t, Spacing.text side (cell :: rest) ≠ '-' :: t) →
          Takes literalStart? (cell :: rest) := by
        intro unquoted unsigned
        have unfolded : ∀ side, literalStart? (Spacing.text side (cell :: rest))
            = (unsigned? (Spacing.text side (cell :: rest))).map
                fun (number, rest) => (.number number, rest) := by
          intro side
          unfold literalStart?
          split
          · rename_i here
            exact absurd here (unquoted side _)
          · rename_i here
            exact absurd here (unsigned side _)
          · rfl
        rcases takes_unsigned? spaced with ⟨number, rest, isSuffix, found⟩ | missed
        · exact .inl ⟨.number number, rest, isSuffix, fun side => by rw [unfolded, found]; rfl⟩
        · exact .inr fun side => by rw [unfolded, missed]; rfl
      cases cell with
      | char c =>
        by_cases minus : c = '-'
        · subst minus
          have unfolded : ∀ side, literalStart? (Spacing.text side (.char '-' :: rest))
              = (unsigned? (Spacing.text side rest)).map
                  fun (number, rest) => (.number ('-' :: number), rest) := fun side => rfl
          rcases takes_unsigned? spaced.of_cons with ⟨number, rest', isSuffix, found⟩ | missed
          · refine .inl ⟨.number ('-' :: number), rest', isSuffix.trans (List.suffix_cons _ rest),
              fun side => ?_⟩
            rw [unfolded, found]
            rfl
          · exact .inr fun side => by rw [unfolded, missed]; rfl
        · have holds := spaced.separate (.char c) (List.mem_cons_self ..)
          exact number (fun side t here => holds.2 (List.cons.inj here).1)
            (fun side t here => minus (List.cons.inj here).1)
      | literal contents =>
        refine .inl ⟨.string contents, rest, List.suffix_cons _ rest, fun side => ?_⟩
        have closed := literal?_closed (lawful.closed (.literal contents) (List.mem_cons_self ..))
          (Spacing.text side rest)
        have unfolded : literalStart? (Spacing.text side (.literal contents :: rest))
            = (Text.literal? (contents ++ '"' :: Spacing.text side rest)).map
                fun (contents, rest) => (.string contents, rest) := by
          simp [Cell.text, literalStart?]
        rw [unfolded, closed]
        rfl
      | gap run =>
        have isRun : IsRun run := spaced.separate (.gap run) (List.mem_cons_self ..)
        have other : ∀ {c : Char}, isBlank c = false → ∀ side t,
            Spacing.text side (.gap run :: rest) ≠ c :: t := by
          intro c visible side t here
          obtain ⟨b, blanks, same, blank⟩ := isRun.exists_cons side
          rw [Spacing.text_cons, Cell.text, same] at here
          rw [(List.cons.inj here).1, visible] at blank
          cases blank
        exact number (other rfl) (other rfl)
  refine starts.bind_eq fun l rest isSuffix => ?_
  dsimp only
  rw [ending?_eq (spaced.of_isInfix isSuffix.isInfix)]

/-! ### Calls -/

theorem call?_eq (t : Text) : call? t = (word? t).bind fun (name, rest) =>
    name.head?.bind fun first =>
      if isNameStart first then
        match Text.trimStart rest with
        | '(' :: rest => (Text.closing? rest).bind fun (arguments, rest) =>
          (ending? rest).bind fun a => some ⟨String.ofList name, arguments, a⟩
        | _ => none
      else none :=
  rfl

/-- **Both sides are calls of the same function, or none is a call**, and the arguments are made of
the same cells. -/
theorem exists_call? (lawful : P.Lawful) :
    (∃ name arguments a, arguments <:+: P
        ∧ ∀ side, call? (P.text side) = some ⟨name, Spacing.text side arguments, a⟩)
      ∨ ∀ side, call? (P.text side) = none := by
  simp only [call?_eq]
  rcases takes_word? lawful.toSpaced with ⟨name, rest, isSuffix, found⟩ | missed
  swap
  · exact .inr fun side => by rw [missed, Option.bind_none]
  have lawful' := lawful.of_isInfix isSuffix.isInfix
  simp only [found, Option.bind_some, Spacing.trimStart_eq lawful'.separate]
  cases name.head? with
  | none => exact .inr fun side => rfl
  | some first =>
  simp only [Option.bind_some]
  cases isNameStart first with
  | false => exact .inr fun side => rfl
  | true =>
  simp only [if_true]
  have lawful'' := lawful'.of_isInfix (Spacing.isInfix_trimStart rest)
  rcases Spacing.exists_head (c := '(') rfl (by decide) lawful''.separate with ⟨t, whole⟩ | other
  swap
  · refine .inr fun side => ?_
    have none := other side
    split
    · rename_i here
      exact absurd here (none _)
    · rfl
  rw [whole] at lawful''
  have inside : t <:+: P := by
    have behind := Spacing.isInfix_trimStart rest
    rw [whole] at behind
    exact ((List.suffix_cons _ t).isInfix.trans behind).trans isSuffix.isInfix
  have opened : ∀ side, Spacing.text side (Spacing.trimStart rest) = '(' :: Spacing.text side t :=
    fun side => by rw [whole]; rfl
  simp only [opened]
  rcases Spacing.exists_closing? (lawful.of_isInfix inside) with ⟨arguments, behind, rfl, closes⟩ | missed
  swap
  · exact .inr fun side => by rw [missed, Option.bind_none]
  simp only [closes, Option.bind_some]
  have spaced : Spacing.Spaced behind := (lawful.of_isInfix inside).toSpaced.of_append.of_cons
  have ending := eq_left (f := fun side => ending? (Spacing.text side behind)) (ending?_eq spaced)
  simp only [ending]
  cases ending? (Spacing.text .left behind) with
  | none => exact .inr fun side => rfl
  | some a =>
    exact .inl ⟨String.ofList name, arguments, a, (List.prefix_append _ _).isInfix.trans inside,
      fun side => rfl⟩

/-! ### Case distinctions -/

/-- **The same ending stands behind a blank on both sides, or none does.** -/
theorem exists_caseEnding? (spaced : P.Spaced) :
    (∃ e rest ending, P = Spacing.ofText e ++ rest ∧ IsWritten endKeyword e
        ∧ ∀ side b, isBlank b = true → caseEnding? (b :: P.text side) = some ending)
      ∨ ∀ side b, isBlank b = true → caseEnding? (b :: P.text side) = none := by
  rcases exists_afterWord? endKeyword rfl spaced.separate with
    ⟨e, rest, rfl, written, found⟩ | missed
  swap
  · refine .inr fun side b blank => ?_
    rw [caseEnding?_cons blank, missed, Option.bind_none]
  have spaced := spaced.of_append
  have behind : ∃ ending, ∀ side, behindEnding? (Spacing.text side rest) = ending := by
    have plain := eq_left (f := fun side => ending? (Spacing.text side rest)) (ending?_eq spaced)
    simp only [behindEnding?, Spacing.trimStart_eq spaced.separate, plain]
    have inner := spaced.of_isInfix (Spacing.isInfix_trimStart rest)
    generalize Spacing.trimStart rest = t at inner ⊢
    by_cases empty : t = []
    · exact ⟨_, fun side => by rw [empty]; rfl⟩
    · rcases Spacing.exists_head (c := ')') rfl (by decide) inner.separate with ⟨t, rfl⟩ | other
      · refine ⟨(ending? (Spacing.text .left t)).map fun a => (true, a), fun side => ?_⟩
        exact congrArg (Option.map _)
          (eq_left (f := fun side => ending? (Spacing.text side t)) (ending?_eq inner.of_cons) side)
      · refine ⟨(ending? (Spacing.text .left rest)).map fun a => (false, a), fun side => ?_⟩
        have more := Spacing.text_ne_nil inner.separate empty side
        have unclosed := other side
        split
        · rename_i here
          exact absurd here more
        · rename_i here
          exact absurd here (unclosed _)
        · rfl
  obtain ⟨ending, same⟩ := behind
  have ends : ∀ side b, isBlank b = true →
      caseEnding? (b :: Spacing.text side (.ofText e ++ rest)) = ending := by
    intro side b blank
    rw [caseEnding?_cons blank, found, Option.bind_some, same side]
  cases ending with
  | none => exact .inr ends
  | some ending => exact .inl ⟨e, rest, ending, rfl, written, ends⟩

/-- **The last ending stands at the same place on both sides, or there is none.** -/
theorem exists_lastCaseEnding? (spaced : P.Spaced) :
    (∃ front run e behind ending, P = front ++ (.gap run :: (Spacing.ofText e ++ behind))
        ∧ IsWritten endKeyword e ∧ ∀ side, lastCaseEnding? (P.text side)
          = some (Spacing.text side front ++ (run side).dropLast, ending))
      ∨ ∀ side, lastCaseEnding? (P.text side) = none := by
  induction P with
  | nil => exact .inr fun side => rfl
  | cons cell rest ih =>
    have holds := spaced.separate cell (List.mem_cons_self ..)
    have spaced' := spaced.of_cons
    rcases ih spaced' with ⟨front, run, e, behind, ending, rfl, written, found⟩ | none
    · refine .inl ⟨cell :: front, run, e, behind, ending, rfl, written, fun side => ?_⟩
      rw [Spacing.text_cons, lastCaseEnding?_later (found side), Spacing.text_cons,
        List.append_assoc]
    cases cell with
    | char c =>
      refine .inr fun side => lastCaseEnding?_missed (none side) fun front back split nonempty => ?_
      obtain rfl : back = [c] := by
        rcases List.cons_eq_append_iff.1 split with ⟨rfl, rfl⟩ | ⟨front', rfl, empty⟩
        · rfl
        · exact absurd (List.append_eq_nil_iff.1 empty.symm).2 nonempty
      exact caseEnding?_visible holds.1 _
    | literal contents =>
      refine .inr fun side => lastCaseEnding?_missed (none side) fun front back split nonempty => ?_
      -- an ending holds no quotes
      have quoted : '"' ∈ back := by
        obtain ⟨init, c, rfl⟩ := (List.eq_nil_or_concat back).resolve_left nonempty
        rw [List.concat_eq_append, Cell.text, ← List.cons_append, ← List.append_assoc] at split
        have last := (List.append_inj' split rfl).2
        simp [← List.singleton_inj.1 last]
      rw [Option.eq_none_iff_forall_ne_some]
      intro ending found
      exact (isNeutral_of_caseEnding? found).unquoted (List.mem_append_left _ quoted)
    | gap run =>
      have isRun : IsRun run := holds
      choose blanks b split blank using isRun.exists_concat
      have inner : ∀ side front d back, run side = front ++ d :: back → back ≠ [] →
          caseEnding? (d :: (back ++ Spacing.text side rest)) = .none := by
        intro side front d back split nonempty
        obtain ⟨d', back, rfl⟩ := List.exists_cons_of_ne_nil nonempty
        have first := isRun.blank side d (by simp [split])
        have second := isRun.blank side d' (by simp [split])
        have differ := (isVisible_of_fold (w := endKeyword) rfl _ (List.mem_cons_self ..)).2 d' second
        have missed : afterWord? endKeyword (d' :: (back ++ Spacing.text side rest)) = .none :=
          if_neg (of_decide_eq_false differ)
        rw [List.cons_append, caseEnding?_cons first, missed, Option.bind_none]
      rcases exists_caseEnding? spaced' with ⟨e, behind, ending, rfl, written, ends⟩ | unended
      · refine .inl ⟨[], run, e, behind, ending, rfl, written, fun side => ?_⟩
        have last : lastCaseEnding? (b side :: Spacing.text side (.ofText e ++ behind))
            = some ([], ending) := by
          rw [lastCaseEnding?, none, ends side _ (blank side)]
          rfl
        have found := lastCaseEnding?_later last (blanks side)
        rw [Spacing.text_cons, Cell.text, split side, List.append_assoc, List.singleton_append, found]
        simp
      · refine .inr fun side => lastCaseEnding?_missed (none side) fun front back here nonempty => ?_
        obtain ⟨d, back, rfl⟩ := List.exists_cons_of_ne_nil nonempty
        by_cases last : back = []
        · subst last
          have blank : isBlank d = true := isRun.blank side d (by
            rw [show run side = front ++ [d] from here]
            simp)
          exact unended side d blank
        · exact inner side front d back here last

/-- What a case distinction with this body has before its end: nothing, or what is left of the gap
there when its last blank is taken away. -/
def IsRemainder (P body : Spacing) (tail : Side → Text) : Prop :=
  (body = [] ∧ tail = fun _ => [])
    ∨ ∃ run e, IsWritten endKeyword e ∧ body ++ .gap run :: Spacing.ofText e <:+: P
      ∧ tail = fun side => (run side).dropLast

theorem takeWhile_isBlank {run : Side → Text} (isRun : IsRun run) {rest : Spacing}
    (spaced : Spacing.Spaced (.gap run :: rest)) (side : Side) :
    (Spacing.text side (.gap run :: rest)).takeWhile isBlank = run side := by
  have head : ∀ cell ∈ rest.head?, cell.isGap = false := by
    have start := rest.head_dropWhile
    have whole : rest.dropWhile Cell.isGap = rest := Spacing.trimStart_of_gap spaced
    rwa [whole] at start
  exact (takeWhile_append_of_head (isRun.blank side)
    (Spacing.head_of_not_isGap spaced.of_cons.separate head side)).1

/-- The gap between `CASE` and `END` is a single blank on both sides or on none. -/
def KeepsCase (P : Spacing) : Prop :=
  ∀ x run y, IsWritten caseKeyword x → IsWritten endKeyword y →
    Spacing.ofText x ++ (.gap run :: Spacing.ofText y) <:+: P →
    ((run .left).length = 1 ↔ (run .right).length = 1)

theorem exists_caseBehind? (spaced : P.Spaced) (keeps : KeepsCase P) (opened : Bool) :
    (∃ body tail closed a, body <:+: P ∧ IsRemainder P body tail ∧ ∀ side,
        caseBehind? opened (P.text side)
          = some ⟨opened, Spacing.text side body ++ tail side, closed, a⟩)
      ∨ ∀ side, caseBehind? opened (P.text side) = none := by
  have inside := Spacing.isInfix_trimStart P
  have inner := spaced.of_isInfix inside
  unfold caseBehind?
  simp only [Spacing.trimStart_eq spaced.separate]
  rcases exists_afterWord? caseKeyword rfl inner.separate with
    ⟨x, t, whole, written, found⟩ | missed
  swap
  · exact .inr fun side => by rw [missed, Option.bind_none]
  rw [whole] at inside inner
  have spaced' := inner.of_append
  simp only [found, Option.bind_some]
  rcases exists_lastCaseEnding? spaced' with
    ⟨front, run, e, behind, ⟨closed, a⟩, rfl, written', ends⟩ | missed
  swap
  · exact .inr fun side => by rw [missed, Option.bind_none]
  simp only [ends, Option.bind_some]
  have unblank : ∀ {t : Text}, (∀ c ∈ t.head?, isBlank c = false) → t.takeWhile isBlank = [] := by
    intro t start
    cases t with
    | nil => rfl
    | cons c t => exact List.takeWhile_cons_of_neg (by simp [start c rfl])
  cases front with
  | nil =>
    -- nothing but a gap stands between the keywords
    have isRun : IsRun run := spaced'.separate (.gap run) (by simp)
    have part : Spacing.ofText x ++ .gap run :: Spacing.ofText e <:+: P := by
      refine List.IsInfix.trans ⟨[], behind, ?_⟩ inside
      simp
    simp only [List.nil_append] at spaced' ⊢
    simp only [Spacing.text_nil, List.nil_append, takeWhile_isBlank isRun spaced']
    rcases isRun.single_or_longer (keeps x run e written written' part) with single | long
    · refine .inr fun side => ?_
      have none : (run side).dropLast = [] := by
        rw [← List.length_eq_zero_iff, List.length_dropLast, single]
      rw [none]
      exact if_pos (Bool.or_true _)
    · refine .inl ⟨[], fun _ => [], closed, a, List.nil_infix, .inl ⟨rfl, rfl⟩, fun side => ?_⟩
      have more := long side
      have front : (run side).dropLast ≠ [] := by
        rw [← List.length_pos_iff, List.length_dropLast]
        omega
      have all : (run side).dropLast.drop (run side).length = [] := by
        rw [List.drop_eq_nil_iff, List.length_dropLast]
        omega
      rw [all, List.isEmpty_eq_false_iff.2 front, List.isEmpty_eq_false_iff.2 (isRun.nonempty side)]
      rfl
  | cons cell body =>
    cases cell with
    | gap run' =>
      have isRun : IsRun run' := spaced'.separate (.gap run') (by simp)
      simp only [List.cons_append] at spaced' ⊢
      simp only [takeWhile_isBlank isRun spaced']
      have part : body ++ .gap run :: Spacing.ofText e <:+: P := by
        refine List.IsInfix.trans ⟨Spacing.ofText x ++ [.gap run'], behind, ?_⟩ inside
        simp
      refine .inl ⟨body, fun side => (run side).dropLast, closed, a,
        (List.prefix_append _ _).isInfix.trans part, .inr ⟨run, e, written', part, rfl⟩,
        fun side => ?_⟩
      have nonempty := isRun.nonempty side
      have front : run' side ++ Spacing.text side body ++ (run side).dropLast ≠ [] := by
        simp [nonempty]
      rw [Spacing.text_cons, Cell.text, List.isEmpty_eq_false_iff.2 nonempty,
        List.isEmpty_eq_false_iff.2 front, List.append_assoc, List.drop_left]
      rfl
    | char c =>
      refine .inr fun side => ?_
      have start := Spacing.head_of_not_isGap spaced'.separate (by rintro _ ⟨⟩; rfl) side
      rw [unblank start]
      rfl
    | literal contents =>
      refine .inr fun side => ?_
      have start := Spacing.head_of_not_isGap spaced'.separate (by rintro _ ⟨⟩; rfl) side
      rw [unblank start]
      rfl

/-- **Both sides are case distinctions or none is one**, and the body is made of the same cells. -/
theorem exists_case? (spaced : P.Spaced) (keeps : KeepsCase P) :
    (∃ opened body tail closed a, body <:+: P ∧ IsRemainder P body tail ∧ ∀ side,
        case? (P.text side) = some ⟨opened, Spacing.text side body ++ tail side, closed, a⟩)
      ∨ ∀ side, case? (P.text side) = none := by
  rcases Spacing.exists_head (c := '(') rfl (by decide) spaced.separate with ⟨t, rfl⟩ | other
  · have inside : t <:+: .char '(' :: t := (List.suffix_cons _ t).isInfix
    have opened : ∀ side, case? (Spacing.text side (.char '(' :: t))
        = caseBehind? true (Spacing.text side t) := fun side => rfl
    simp only [opened]
    rcases exists_caseBehind? spaced.of_cons
        (fun x run y written written' part => keeps x run y written written' (part.trans inside))
        true with ⟨body, tail, closed, a, part, remainder, found⟩ | missed
    · refine .inl ⟨true, body, tail, closed, a, part.trans inside, ?_, found⟩
      rcases remainder with empty | ⟨run, e, written, part, rest⟩
      · exact .inl empty
      · exact .inr ⟨run, e, written, part.trans inside, rest⟩
    · exact .inr missed
  · have unopened : ∀ side, case? (P.text side) = caseBehind? false (P.text side) :=
      fun side => case?_unopened (other side)
    simp only [unopened]
    rcases exists_caseBehind? spaced keeps false with found | missed
    · exact .inl ⟨false, found⟩
    · exact .inr missed

end Form

end RecordMapper
