import RecordMapper.Proofs.Text.Spacing

/-!
Scans of a text that is spaced in two ways.

A search passes over blanks and literals and looks at everything else character by character, so
**it finds the same cells on both sides** (`Spacing.Search.exists_scan`). So do the search for the
parenthesis that closes an open one (`Spacing.exists_closing?`) and the search for an operator
(`Spacing.exists_splitAt?`), which may be written as two words if the gap between them is the same on
both sides or longer than one blank on both.
-/

namespace RecordMapper

open Text

/-! ### Keywords -/

/-- Whether a keyword stands on its own does not depend on the blanks around it. -/
theorem Text.standsAlone_eq {before behind : Side → Option Char} (near : Near before)
    (near' : Near behind) :
    standsAlone (before .left) (behind .left) = standsAlone (before .right) (behind .right) := by
  have checked : ∀ b, isBlank b = true → mayPrecedeKeyword b = true ∧ mayFollowKeyword b = true := by
    intro b blank
    have other : isAsciiWord b = false := by
      rw [← Bool.not_eq_true]
      intro word
      rw [isBlank_of_isAsciiWord word] at blank
      cases blank
    have braces : b ≠ '\x7b' ∧ b ≠ '\x7d' := by
      constructor <;> (rintro rfl; cases blank)
    simp [mayPrecedeKeyword, mayFollowKeyword, other, braces]
  have first : (before .left).all mayPrecedeKeyword = (before .right).all mayPrecedeKeyword :=
    near.apply_eq fun b blank => (checked b blank).1
  have second : (behind .left).all mayFollowKeyword = (behind .right).all mayFollowKeyword :=
    near'.apply_eq fun b blank => (checked b blank).2
  rw [standsAlone, standsAlone, first, second]

/-! ### Searches -/

namespace Spacing

variable {P : Spacing}

/-- One step of a search over both sides: it stops, or it passes some characters. -/
inductive Step {σ : Type} (read : σ → Option Char → Text → Option (Text × Text))
    (IsStop : Spacing → Prop) (tail : Side → Text) (q : σ) (before : Side → Option Char)
    (P : Spacing) : Prop
  | found {stop rest : Spacing} (whole : P = stop ++ rest) (isStop : IsStop stop)
    (stops : ∀ side, read q (before side) (text side P ++ tail side)
      = some ([], text side rest ++ tail side))
  | passed {x : Text} {rest : Spacing} (q' : σ) (nonempty : x ≠ []) (whole : P = ofText x ++ rest)
    (passes : ∀ side, read q (before side) (text side P ++ tail side)
      = x.foldr prependFound (read q' (lastFrom (before side) x) (text side rest ++ tail side)))

/-- A word is passed as a whole if its first character is passed and the others are skipped. -/
theorem Step.of_word {σ : Type} {read : σ → Option Char → Text → Option (Text × Text)}
    {IsStop : Spacing → Prop} {tail : Side → Text} {q : σ} {before : Side → Option Char} {c : Char}
    {rest behind : Spacing} {word x : Text} (q' : σ)
    (skip : Nat → Option Char → Text → Option (Text × Text)) (nonempty : word ≠ [])
    (whole : .char c :: rest = ofText x ++ behind) (length : x.length = word.length)
    (skips : ∀ y, (∀ d ∈ y, d ∈ x) → ∀ before t,
      skip y.length before (y ++ t) = y.foldr prependFound (read q' (lastFrom before y) t))
    (counts : ∀ side, read q (before side) (c :: (text side rest ++ tail side))
      = prependFound c (skip (word.length - 1) (some c) (text side rest ++ tail side))) :
    Step read IsStop tail q before (.char c :: rest) := by
  cases x with
  | nil => exact absurd (List.length_eq_zero_iff.1 length.symm) nonempty
  | cons d x =>
    obtain ⟨same, others⟩ := List.cons.inj whole
    obtain rfl : c = d := Cell.char.inj same
    obtain rfl : rest = ofText x ++ behind := others
    refine .passed (x := c :: x) q' nofun rfl fun side => ?_
    have size : word.length - 1 = x.length := by
      rw [← length, List.length_cons, Nat.add_sub_cancel]
    refine (counts side).trans ?_
    rw [size, text_append, text_ofText, List.append_assoc,
      skips x fun d mem => List.mem_cons_of_mem c mem]
    rfl

/-- A search through a text that passes blanks one by one and literals as a whole. -/
structure Search {σ : Type} (read : σ → Option Char → Text → Option (Text × Text))
    (IsStop : Spacing → Prop) (tail : Side → Text) (whole : Spacing) : Prop where
  nil : ∀ q before, read q before [] = none
  blank : ∀ q before b t, isBlank b = true →
    read q before (b :: t) = prependFound b (read q (some b) t)
  literal : ∀ q before contents t, literal? (contents ++ ['"']) = some (contents, []) →
    read q before ('"' :: (contents ++ '"' :: t))
      = ('"' :: (contents ++ ['"'])).foldr prependFound (read q (some '"') t)
  step : ∀ q before c rest, .char c :: rest <:+ whole → Alike before →
    Step read IsStop tail q before (.char c :: rest)

namespace Search

variable {σ : Type} {read : σ → Option Char → Text → Option (Text × Text)}
  {IsStop : Spacing → Prop} {tail : Side → Text} {whole : Spacing}
  (search : Search read IsStop tail whole)
include search

theorem blanks (q : σ) (before : Option Char) {run : Text} (blank : ∀ c ∈ run, isBlank c = true)
    (t : Text) :
    read q before (run ++ t) = run.foldr prependFound (read q (lastFrom before run) t) := by
  induction run generalizing before with
  | nil => rfl
  | cons b run ih =>
    obtain ⟨first, others⟩ := List.forall_mem_cons.1 blank
    rw [List.cons_append, search.blank q before b _ first, ih _ others]
    rfl

omit search in
/-- Behind what was passed the search finds what it finds. -/
theorem exists_of_passed {X rest : Spacing} {q q' : σ} {before : Side → Option Char}
    (passes : ∀ side, read q (before side) (text side (X ++ rest) ++ tail side)
      = (text side X).foldr prependFound
          (read q' (lastFrom (before side) (text side X)) (text side rest ++ tail side)))
    (found : (∃ Y stop behind, rest = Y ++ (stop ++ behind) ∧ IsStop stop
        ∧ ∀ side, read q' (lastFrom (before side) (text side X)) (text side rest ++ tail side)
            = some (text side Y, text side behind ++ tail side))
      ∨ ∀ side, read q' (lastFrom (before side) (text side X)) (text side rest ++ tail side)
          = none) :
    (∃ Y stop behind, X ++ rest = Y ++ (stop ++ behind) ∧ IsStop stop
        ∧ ∀ side, read q (before side) (text side (X ++ rest) ++ tail side)
            = some (text side Y, text side behind ++ tail side))
      ∨ ∀ side, read q (before side) (text side (X ++ rest) ++ tail side) = none := by
  rcases found with ⟨Y, stop, behind, rfl, isStop, finds⟩ | missed
  · refine .inl ⟨X ++ Y, stop, behind, by simp, isStop, fun side => ?_⟩
    rw [passes, finds, foldr_prependFound, text_append]
    rfl
  · refine .inr fun side => ?_
    rw [passes, missed, foldr_prependFound]
    rfl

/-- **A search finds the same cells on both sides.** -/
theorem exists_scan (separate : ∀ cell ∈ P, cell.Separate) (closed : ∀ cell ∈ P, cell.Closed)
    (part : P <:+ whole) (slack : IsSlack tail) {q : σ}
    {before : Side → Option Char} (alike : Alike before) :
    (∃ X stop rest, P = X ++ (stop ++ rest) ∧ IsStop stop
        ∧ ∀ side, read q (before side) (text side P ++ tail side)
            = some (text side X, text side rest ++ tail side))
      ∨ ∀ side, read q (before side) (text side P ++ tail side) = none := by
  induction size : P.length using Nat.strong_induction_on generalizing P q before with
  | h length ih =>
    subst size
    have goesOn : ∀ {X rest : Spacing} (q' : σ), P = X ++ rest → X ≠ [] →
        (∀ side, read q (before side) (text side P ++ tail side)
          = (text side X).foldr prependFound
              (read q' (lastFrom (before side) (text side X)) (text side rest ++ tail side))) →
        (∃ Y stop behind, P = Y ++ (stop ++ behind) ∧ IsStop stop
            ∧ ∀ side, read q (before side) (text side P ++ tail side)
                = some (text side Y, text side behind ++ tail side))
          ∨ ∀ side, read q (before side) (text side P ++ tail side) = none := by
      rintro X rest q' rfl nonempty passes
      have front : ∀ cell ∈ X, cell.Separate :=
        fun cell mem => separate cell (List.mem_append_left _ mem)
      refine exists_of_passed passes (ih rest.length ?_
        (fun cell mem => separate cell (List.mem_append_right _ mem))
        (fun cell mem => closed cell (List.mem_append_right _ mem))
        ((List.suffix_append X rest).trans part) (alike_last front alike) rfl)
      have positive := List.length_pos_iff.2 nonempty
      rw [List.length_append]
      omega
    cases P with
    | nil =>
      refine .inr fun side => ?_
      have passed := search.blanks q (before side) (slack side) []
      rw [List.append_nil, search.nil, foldr_prependFound] at passed
      exact passed
    | cons cell rest =>
      have holds := separate cell (List.mem_cons_self ..)
      cases cell with
      | char c =>
        cases search.step q before c rest part alike with
        | @found stop behind whole isStop stops => exact .inl ⟨[], stop, behind, whole, isStop, stops⟩
        | @passed x behind q' nonempty whole passes =>
          refine goesOn q' whole ?_ fun side => ?_
          · simpa [ofText] using nonempty
          · rw [passes, text_ofText]
      | literal contents =>
        have ends := closed _ (List.mem_cons_self ..)
        refine goesOn (X := [.literal contents]) q rfl (List.cons_ne_nil _ _) fun side => ?_
        have passed := search.literal q (before side) contents (text side rest ++ tail side) ends
        have last : lastFrom (before side) ('"' :: contents ++ ['"']) = some '"' := lastFrom_concat ..
        simpa [Cell.text, ← last] using passed
      | gap run =>
        have isRun : IsRun run := holds
        refine goesOn (X := [.gap run]) q rfl (List.cons_ne_nil _ _) fun side => ?_
        have passed := search.blanks q (before side) (isRun.blank side) (text side rest ++ tail side)
        simpa [Cell.text] using passed

end Search

end Spacing

/-! ### Parentheses -/

namespace Spacing

variable {P : Spacing} {tail : Side → Text}

theorem search_closingFrom? (tail : Side → Text) (P : Spacing) (lawful : ∀ cell ∈ P, cell.Separate) :
    Search (fun depth (_ : Option Char) t => closingFrom? depth .plain t) (· = [.char ')']) tail P where
  nil _ _ := rfl
  blank depth _ b t blank := by
    have other : b ≠ '(' ∧ b ≠ ')' ∧ b ≠ '"' := by
      refine ⟨?_, ?_, ?_⟩ <;> (rintro rfl; cases blank)
    have step := closingFrom?_cons_of_other ⟨other.1, other.2.1⟩ depth t
    rwa [after_plain_of_ne other.2.2] at step
  literal depth _ contents t closed := by
    have passed := parenthesesScan_reads_literal depth none t closed
    simpa [Scan.Reads, parenthesesScan] using passed
  step depth before c rest part _ := by
    have unquoted : c ≠ '"' := (lawful _ (part.subset (List.mem_cons_self ..))).2
    have plain := after_plain_of_ne unquoted
    by_cases opens : c = '('
    · subst opens
      refine .passed (x := ['(']) (depth + 1) (List.cons_ne_nil _ _) rfl fun side => ?_
      simp [Cell.text, closingFrom?, prependFound, Mode.after]
    · by_cases closes : c = ')'
      · subst closes
        cases depth with
        | zero =>
          have whole : .char ')' :: rest = [Cell.char ')'] ++ rest := rfl
          refine .found whole rfl fun side => ?_
          simp [Cell.text, closingFrom?]
        | succ depth =>
          refine .passed (x := [')']) depth (List.cons_ne_nil _ _) rfl fun side => ?_
          simp [Cell.text, closingFrom?, prependFound, Mode.after]
      · refine .passed (x := [c]) depth (List.cons_ne_nil _ _) rfl fun side => ?_
        have step := closingFrom?_cons_of_other ⟨opens, closes⟩ depth (text side rest ++ tail side)
        rw [plain] at step
        exact step

/-- **The same parenthesis closes an open one on both sides.** -/
theorem exists_closing? (lawful : Lawful P) :
    (∃ inner rest, P = inner ++ (.char ')' :: rest)
        ∧ ∀ side, closing? (text side P) = some (text side inner, text side rest))
      ∨ ∀ side, closing? (text side P) = none := by
  have found := (search_closingFrom? (fun _ => []) P lawful.separate).exists_scan (q := 0)
    lawful.separate lawful.closed (List.suffix_refl P) nofun (.const none)
  simp only [List.append_nil] at found
  rcases found with ⟨inner, _, rest, whole, rfl, finds⟩ | missed
  · exact .inl ⟨inner, rest, whole, finds⟩
  · exact .inr missed

/-- **Both sides are wrapped in one pair of parentheses or none is.** -/
theorem exists_unwrapped? (lawful : Lawful P) :
    (∃ inner, P = .char '(' :: (inner ++ [.char ')'])
        ∧ ∀ side, unwrapped? (text side P) = some (text side inner))
      ∨ ∀ side, unwrapped? (text side P) = none := by
  cases P with
  | nil => exact .inr fun _ => rfl
  | cons cell rest =>
    have holds := lawful.separate cell (List.mem_cons_self ..)
    cases cell with
    | char c =>
      by_cases opens : c = '('
      · subst opens
        have inside : Lawful rest := lawful.of_isInfix (List.suffix_cons _ rest).isInfix
        rcases exists_closing? inside with ⟨inner, behind, rfl, closes⟩ | missed
        · have front : ∀ side, unwrapped? (text side (.char '(' :: (inner ++ .char ')' :: behind)))
              = if text side behind = [] then some (text side inner) else none := by
            intro side
            simp only [text_cons, Cell.text, List.singleton_append, unwrapped?, closes side]
            split
            · rename_i same
              obtain ⟨rfl, empty⟩ := Prod.mk.inj (Option.some.inj same)
              rw [if_pos empty]
            · rename_i other
              rw [if_neg]
              intro empty
              exact other _ (by rw [empty])
          have behind_separate : ∀ cell ∈ behind, cell.Separate :=
            fun cell mem => inside.separate cell (by simp [mem])
          by_cases empty : behind = []
          · subst empty
            refine .inl ⟨inner, rfl, fun side => ?_⟩
            rw [front, text_nil, if_pos rfl]
          · refine .inr fun side => ?_
            rw [front, if_neg (text_ne_nil behind_separate empty side)]
        · refine .inr fun side => ?_
          simp [Cell.text, unwrapped?, missed side]
      · exact .inr fun side => unwrapped?_cons_eq_none opens _
    | literal contents => exact .inr fun side => unwrapped?_cons_eq_none (by decide) _
    | gap run =>
      have isRun : IsRun run := holds
      refine .inr fun side => ?_
      obtain ⟨b, blanks, here, blank⟩ := isRun.exists_cons side
      rw [text_cons, Cell.text, here]
      refine unwrapped?_cons_eq_none ?_ _
      rintro rfl
      cases blank

/-! ### Operators -/

/-- A keyword that stands on its own starts both sides or none. -/
theorem exists_startsKeyword (keyword : Text) (visible : IsVisible (agree true) keyword)
    (unquoted : '"' ∉ keyword) (separate : ∀ cell ∈ P, cell.Separate) {before : Side → Option Char}
    (near : Near before) :
    (∃ x rest, P = ofText x ++ rest ∧ x.length = keyword.length ∧ (∀ c ∈ x, c ≠ '"')
        ∧ ∀ side, startsKeyword keyword (before side) (text side P) = true)
      ∨ ∀ side, startsKeyword keyword (before side) (text side P) = false := by
  rcases exists_after_end (isAfter_after? true) visible separate with
    ⟨x, rest, rfl, all, found⟩ | missed
  · have behind : Near fun side => (text side rest).head? :=
      (alike_head fun cell mem => separate cell (List.mem_append_right _ mem)).near
    have same : ∀ side, startsKeyword keyword (before side) (text side (ofText x ++ rest))
        = standsAlone (before .left) (text .left rest).head? := by
      intro side
      rw [startsKeyword, found side]
      exact eq_left (f := fun side => standsAlone (before side) (text side rest).head?)
        (standsAlone_eq near behind) side
    cases alone : standsAlone (before .left) (text .left rest).head? with
    | false => exact .inr fun side => by rw [same, alone]
    | true =>
      refine .inl ⟨x, rest, rfl, all.length_eq.symm, ?_, fun side => by rw [same, alone]⟩
      rintro c mem rfl
      exact unquoted ((mem_iff_of_agree rfl all).1 mem)
  · exact .inr fun side => by rw [startsKeyword, missed side]

/-- The gap between the two words is a single space on both sides or on none. -/
def KeepsBetween (v w : Text) (P : Spacing) : Prop :=
  ∀ x run y, List.Forall₂ (fun a b => agree true a b = true) v x →
    List.Forall₂ (fun a b => agree true a b = true) w y →
    ofText x ++ (.gap run :: ofText y) <:+: P →
    (run .left = [' '] ↔ run .right = [' '])

/-- An operator that is one word, or two words with a space between them. -/
inductive IsOperator : (words : Bool) → Text → Prop
  | one (words : Bool) {w : Text} (nonempty : w ≠ [])
    (plain : IsPlainWord w) : IsOperator words w
  | two {v w : Text} (nonempty : v ≠ []) (plain : IsPlainWord v)
    (nonempty' : w ≠ []) (plain' : IsPlainWord w) :
    IsOperator true (v ++ ' ' :: w)

theorem IsOperator.exists_cons {words : Bool} {operator : Text} (isOperator : IsOperator words operator) :
    ∃ a rest, operator = a :: rest ∧ isBlank a = false ∧ a ≠ '"' := by
  cases isOperator with
  | one _ nonempty plain =>
    obtain ⟨a, rest, rfl⟩ := List.exists_cons_of_ne_nil nonempty
    exact ⟨a, rest, rfl, plain a (List.mem_cons_self ..)⟩
  | two nonempty plain _ _ =>
    obtain ⟨a, rest, rfl⟩ := List.exists_cons_of_ne_nil nonempty
    exact ⟨a, _, rfl, plain a (List.mem_cons_self ..)⟩

/-- A space and a word behind it are found where there is a gap of one space. -/
theorem after?_gap {run : Side → Text} (isRun : IsRun run) {w : Text} (nonempty : w ≠ [])
    (plain : IsPlainWord w) (rest : Spacing) (side : Side) :
    after? true (' ' :: w) (text side (.gap run :: rest))
      = if run side = [' '] then after? true w (text side rest) else none := by
  obtain ⟨b, blanks, here, blank⟩ := isRun.exists_cons side
  have step : after? true (' ' :: w) (text side (.gap run :: rest))
      = if agree true ' ' b then after? true w (blanks ++ text side rest) else none := by
    rw [text_cons, Cell.text, here]
    rfl
  rw [step, here]
  by_cases space : b = ' '
  · subst space
    have same : agree true ' ' ' ' = true := rfl
    rw [if_pos same]
    cases blanks with
    | nil => rw [if_pos rfl, List.nil_append]
    | cons d blanks =>
      obtain ⟨a, w, rfl⟩ := List.exists_cons_of_ne_nil nonempty
      have blank' : isBlank d = true := isRun.blank side d (by simp [here])
      have differ := (isVisible_of true plain a (List.mem_cons_self ..)).2 d blank'
      rw [if_neg (by simp), List.cons_append, after?, differ, if_neg Bool.false_ne_true]
  · have differ : agree true ' ' b = false := by
      rw [← Bool.not_eq_true]
      exact fun same => space (eq_of_agree rfl same).symm
    rw [differ, if_neg Bool.false_ne_true, if_neg]
    intro same
    exact space (List.cons.inj same).1

/-- **An operator starts both sides or none.** -/
theorem exists_after?_operator {words : Bool} {operator : Text}
    (isOperator : IsOperator words operator) (separate : ∀ cell ∈ P, cell.Separate)
    (keeps : ∀ v w, operator = v ++ ' ' :: w → KeepsBetween v w P) :
    (∃ stop rest, P = stop ++ rest
        ∧ ∀ side, after? words operator (text side P) = some (text side rest))
      ∨ ∀ side, after? words operator (text side P) = none := by
  cases isOperator with
  | one _ nonempty plain =>
    rcases exists_after_end (isAfter_after? words) (isVisible_of _ plain) separate with
      ⟨x, rest, whole, -, found⟩ | missed
    · exact .inl ⟨ofText x, rest, whole, found⟩
    · exact .inr missed
  | @two v w nonempty plain nonempty' plain' =>
    simp only [after?_append_left]
    rcases exists_after_end (isAfter_after? true) (isVisible_of _ plain) separate with
      ⟨x, rest, rfl, all, found⟩ | missed
    · simp only [found, Option.bind_some]
      have behind : ∀ cell ∈ rest, cell.Separate :=
        fun cell mem => separate cell (List.mem_append_right _ mem)
      have other : ∀ b t, b ≠ ' ' → after? true (' ' :: w) (b :: t) = none := by
        intro b t other
        rw [after?, if_neg]
        intro same
        exact other (eq_of_agree rfl same).symm
      cases rest with
      | nil => exact .inr fun side => rfl
      | cons cell rest =>
        obtain ⟨holds, others⟩ := List.forall_mem_cons.1 behind
        cases cell with
        | char c =>
          refine .inr fun side => other c _ ?_
          rintro rfl
          cases holds.1
        | literal contents => exact .inr fun side => other '"' _ (by decide)
        | gap run =>
          have isRun : IsRun run := holds
          simp only [after?_gap isRun nonempty' plain']
          rcases exists_after_end (isAfter_after? true) (isVisible_of _ plain') others with
            ⟨y, rest, rfl, all', found'⟩ | missed
          · have part : ofText x ++ (.gap run :: ofText y)
                <:+: ofText x ++ .gap run :: (ofText y ++ rest) :=
              ⟨[], rest, by simp⟩
            have same : ∀ side, run side = [' '] ↔ run .left = [' '] :=
              Side.forall_iff.2 ⟨Iff.rfl, (keeps v w rfl x run y all all' part).symm⟩
            by_cases single : run .left = [' ']
            · refine .inl ⟨ofText x ++ .gap run :: ofText y, rest, by simp, fun side => ?_⟩
              rw [if_pos ((same side).2 single), found']
            · exact .inr fun side => if_neg (mt (same side).1 single)
          · refine .inr fun side => ?_
            rw [missed side]
            exact ite_self none
    · exact .inr fun side => by rw [missed side, Option.bind_none]

/-- An operator that may be taken starts both sides or none. -/
theorem exists_afterOperator? {words : Bool} {operator : Text}
    (isOperator : IsOperator words operator) (separate : ∀ cell ∈ P, cell.Separate)
    (keeps : ∀ v w, operator = v ++ ' ' :: w → KeepsBetween v w P) {before : Side → Option Char}
    (alike : Alike before) :
    (∃ stop rest, P = stop ++ rest ∧ ∀ side,
        afterOperator? operator words (before side) (text side P) = some (text side rest))
      ∨ ∀ side, afterOperator? operator words (before side) (text side P) = none := by
  unfold afterOperator?
  cases words with
  | false => simpa using exists_after?_operator isOperator separate keeps
  | true =>
    have blank : ∀ {c : Side → Option Char}, Alike c → ∀ side,
        (c side).any isAsciiBlank = (c .left).any isAsciiBlank := by
      intro c alike side
      exact eq_left (f := fun side => (c side).any isAsciiBlank)
        (alike.apply_eq fun b blank => by rw [Option.any_some, Option.any_some, blank]; rfl) side
    simp only [if_true, blank alike]
    cases (before .left).any isAsciiBlank with
    | false => exact .inr fun side => if_neg Bool.false_ne_true
    | true =>
      simp only [if_true]
      rcases exists_after?_operator isOperator separate keeps with ⟨stop, rest, rfl, found⟩ | missed
      · have behind := alike_head (P := rest)
          fun cell mem => separate cell (List.mem_append_right _ mem)
        simp only [found, Option.filter_some, blank behind]
        cases (text .left rest).head?.any isAsciiBlank with
        | false => exact .inr fun side => if_neg Bool.false_ne_true
        | true => exact .inl ⟨stop, rest, rfl, fun side => if_pos rfl⟩
      · exact .inr fun side => by rw [missed side]; rfl

section Operators

variable {words : Bool} {operator : Text}

theorem splitFrom?_cons {c : Char} (unquoted : c ≠ '"') (depth : Nat) (before : Option Char)
    (t : Text) :
    splitFrom? operator words depth 0 .plain before (c :: t)
      = if c = '(' ∨ c = '\x7b' then
          prependFound c (splitFrom? operator words (depth + 1) 0 .plain (some c) t)
        else if c = ')' ∨ c = '\x7d' then
          prependFound c (splitFrom? operator words (depth - 1) 0 .plain (some c) t)
        else if startsKeyword caseKeyword before (c :: t) then
          prependFound c (splitFrom? operator words (depth + 1) 3 .plain (some c) t)
        else if startsKeyword endKeyword before (c :: t) then
          prependFound c (splitFrom? operator words (depth - 1) 2 .plain (some c) t)
        else if depth = 0 then
          match afterOperator? operator words before (c :: t) with
          | some rest => some ([], rest)
          | none => prependFound c (splitFrom? operator words 0 0 .plain (some c) t)
        else prependFound c (splitFrom? operator words depth 0 .plain (some c) t) := by
  rw [splitFrom?]
  simp only [if_true, if_neg unquoted, after_plain_of_ne unquoted]
  rfl

theorem KeepsBetween.of_isInfix {v w : Text} {P Q : Spacing} (keeps : KeepsBetween v w P)
    (part : Q <:+: P) : KeepsBetween v w Q :=
  fun x run y all all' inside => keeps x run y all all' (inside.trans part)

/-- Blanks are passed one by one. -/
theorem splitFrom?_blank (isOperator : IsOperator words operator) {b : Char}
    (blank : isBlank b = true) (depth : Nat) (before : Option Char) (t : Text) :
    splitFrom? operator words depth 0 .plain before (b :: t)
      = prependFound b (splitFrom? operator words depth 0 .plain (some b) t) := by
  obtain ⟨a, more, rfl, visible, unquoted⟩ := isOperator.exists_cons
  have parens : ¬ (b = '(' ∨ b = '\x7b') := by rintro (rfl | rfl) <;> cases blank
  have parens' : ¬ (b = ')' ∨ b = '\x7d') := by rintro (rfl | rfl) <;> cases blank
  have quote : b ≠ '"' := by
    rintro rfl
    cases blank
  have letter := not_isAlpha_of_isBlank blank
  have noCase : startsKeyword caseKeyword before (b :: t) = false :=
    startsKeyword_cons_of_not_isAlpha (by decide) letters_caseKeyword letter t
  have noEnd : startsKeyword endKeyword before (b :: t) = false :=
    startsKeyword_cons_of_not_isAlpha (by decide) letters_endKeyword letter t
  have differ : a ≠ b := by
    rintro rfl
    rw [visible] at blank
    cases blank
  have missed : afterOperator? (a :: more) words before (b :: t) = none := by
    simp only [afterOperator?, after?_cons_eq_none' letter differ, Option.filter_none, ite_self]
  simp only [splitFrom?_cons quote, if_neg parens, if_neg parens', noCase, noEnd,
    Bool.false_eq_true, if_false, missed]
  split
  · rename_i zero
    rw [zero]
  · rfl

/-- Literals are passed as a whole. -/
theorem splitFrom?_literal {contents : Text}
    (closed : literal? (contents ++ ['"']) = some (contents, [])) (depth : Nat)
    (before : Option Char) (t : Text) :
    splitFrom? operator words depth 0 .plain before ('"' :: (contents ++ '"' :: t))
      = ('"' :: (contents ++ ['"'])).foldr prependFound
          (splitFrom? operator words depth 0 .plain (some '"') t) := by
  have passed := @operatorScan_reads_literal operator words depth before contents t closed
  rw [Scan.Reads, ← List.cons_append, lastFrom_concat] at passed
  simpa [operatorScan] using passed

/-- **The search for an operator is a search through the cells.** -/
theorem search_splitFrom? (isOperator : IsOperator words operator)
    (separate : ∀ cell ∈ P, cell.Separate)
    (keeps : ∀ v w, operator = v ++ ' ' :: w → KeepsBetween v w P) :
    Search (fun depth before t => splitFrom? operator words depth 0 .plain before t)
      (fun _ => True) (fun _ => []) P where
  nil _ _ := rfl
  blank depth before b t blank := splitFrom?_blank isOperator blank depth before t
  literal depth before contents t closed := splitFrom?_literal closed depth before t
  step depth before c rest part alike := by
    have inside : ∀ cell ∈ Cell.char c :: rest, cell.Separate :=
      fun cell mem => separate cell (part.subset mem)
    have unquoted : c ≠ '"' := (inside _ (List.mem_cons_self ..)).2
    have keeps' := fun v w same => (keeps v w same).of_isInfix part.isInfix
    have cons := fun side => @splitFrom?_cons words operator c unquoted depth (before side)
      (text side rest)
    have passed : ∀ depth', (∀ side,
        splitFrom? operator words depth 0 .plain (before side) (c :: text side rest)
          = prependFound c (splitFrom? operator words depth' 0 .plain (some c) (text side rest))) →
        Step (fun depth before t => splitFrom? operator words depth 0 .plain before t)
          (fun _ => True) (fun _ => []) depth before (.char c :: rest) := by
      intro depth' passes
      refine .passed (x := [c]) depth' (List.cons_ne_nil _ _) rfl fun side => ?_
      simp only [List.append_nil]
      exact passes side
    by_cases opens : c = '(' ∨ c = '\x7b'
    · exact passed (depth + 1) fun side => by rw [cons, if_pos opens]
    by_cases closes : c = ')' ∨ c = '\x7d'
    · exact passed (depth - 1) fun side => by rw [cons, if_neg opens, if_pos closes]
    simp only [if_neg opens, if_neg closes] at cons
    -- the rest of a keyword that stands on its own is skipped
    have skips : ∀ {x : Text}, (∀ d ∈ x, d ≠ '"') → ∀ (depth' : Nat) (y : Text), (∀ d ∈ y, d ∈ x) →
        ∀ before t, splitFrom? operator words depth' y.length .plain before (y ++ t)
          = y.foldr prependFound
              (splitFrom? operator words depth' 0 .plain (lastFrom before y) t) :=
      fun letters depth' y sub before t =>
        splitFrom?_skip y t (fun d mem => letters d (sub d mem)) depth'
    rcases exists_startsKeyword caseKeyword (isVisible_of _ (by decide)) (by decide) inside
        alike.near with ⟨x, behind, whole, length, letters, starts⟩ | noCase
    · refine Step.of_word (depth + 1) (fun n => splitFrom? operator words (depth + 1) n .plain)
        (by decide) whole length (skips letters (depth + 1)) fun side => ?_
      have start : startsKeyword caseKeyword (before side) (c :: text side rest) = true :=
        starts side
      rw [List.append_nil, cons, if_pos start]
      rfl
    rcases exists_startsKeyword endKeyword (isVisible_of _ (by decide)) (by decide) inside
        alike.near with ⟨x, behind, whole, length, letters, starts⟩ | noEnd
    · refine Step.of_word (depth - 1) (fun n => splitFrom? operator words (depth - 1) n .plain)
        (by decide) whole length (skips letters (depth - 1)) fun side => ?_
      have start : startsKeyword endKeyword (before side) (c :: text side rest) = true :=
        starts side
      have notCase : ¬ startsKeyword caseKeyword (before side) (c :: text side rest) = true :=
        ne_true_of_eq_false (noCase side)
      rw [List.append_nil, cons, if_neg notCase, if_pos start]
      rfl
    have notCase : ∀ side, startsKeyword caseKeyword (before side) (c :: text side rest) = false :=
      noCase
    have notEnd : ∀ side, startsKeyword endKeyword (before side) (c :: text side rest) = false :=
      noEnd
    simp only [notCase, notEnd, Bool.false_eq_true, if_false] at cons
    by_cases zero : depth = 0
    · subst zero
      simp only [if_true] at cons
      rcases exists_afterOperator? isOperator inside keeps' alike with
        ⟨stop, behind, whole, found⟩ | missed
      · refine .found whole trivial fun side => ?_
        simp only [List.append_nil]
        have finds : afterOperator? operator words (before side) (c :: text side rest)
            = some (text side behind) := found side
        rw [text_cons, Cell.text, List.singleton_append, cons, finds]
      · refine passed 0 fun side => ?_
        have misses : afterOperator? operator words (before side) (c :: text side rest) = none :=
          missed side
        rw [cons, misses]
    · exact passed depth fun side => by rw [cons, if_neg zero]

end Operators

/-- **An operator splits both sides at the same cells or none.** -/
theorem exists_splitAt? {words : Bool} {operator : Text} (isOperator : IsOperator words operator)
    (lawful : Lawful P) (keeps : ∀ v w, operator = v ++ ' ' :: w → KeepsBetween v w P) :
    (∃ left stop right, P = left ++ (stop ++ right)
        ∧ ∀ side, splitAt? operator words (text side P) = some (text side left, text side right))
      ∨ ∀ side, splitAt? operator words (text side P) = none := by
  have found := (search_splitFrom? isOperator lawful.separate keeps).exists_scan (q := 0)
    lawful.separate lawful.closed (List.suffix_refl P) nofun (.const none)
  simp only [List.append_nil] at found
  rcases found with ⟨left, stop, right, whole, -, finds⟩ | missed
  · exact .inl ⟨left, stop, right, whole, finds⟩
  · exact .inr missed

/-! ### Blanks -/

end Spacing

/-- The cell with spaces for its blanks. -/
def Cell.flatten : Cell → Cell
  | .gap run => .gap fun side => List.replicate (run side).length ' '
  | cell => cell

namespace Text

theorem flattenBlanksFrom_blanks {run : Text} (blank : ∀ c ∈ run, isBlank c = true) (t : Text) :
    flattenBlanksFrom .plain (run ++ t)
      = List.replicate run.length ' ' ++ flattenBlanksFrom .plain t := by
  induction run with
  | nil => rfl
  | cons b run ih =>
    obtain ⟨first, others⟩ := List.forall_mem_cons.1 blank
    have plain : Mode.plain.after b = .plain := by
      refine after_plain_of_ne ?_
      rintro rfl
      cases first
    rw [List.cons_append, flattenBlanksFrom, plain, ih others, if_pos ⟨rfl, first⟩]
    rfl

theorem flattenBlanksFrom_literal {contents : Text}
    (closed : literal? (contents ++ ['"']) = some (contents, [])) (t : Text) :
    flattenBlanksFrom .plain ('"' :: (contents ++ '"' :: t))
      = '"' :: (contents ++ ['"']) ++ flattenBlanksFrom .plain t := by
  have inside : ∀ (m : Mode) (_ : Option Char) c t, m ≠ .plain →
      flattenBlanksFrom m (c :: t) = c :: flattenBlanksFrom (m.after c) t := by
    intro m _ c t inside
    simp [flattenBlanksFrom, inside]
  have passed := read_closed (fun m _ t => flattenBlanksFrom m t) inside (by decide) closed
    none t
  have opens : flattenBlanksFrom .plain ('"' :: (contents ++ '"' :: t))
      = '"' :: flattenBlanksFrom .quoted (contents ++ '"' :: t) := rfl
  rw [opens, passed, List.foldr_cons_eq_append']
  rfl

end Text

namespace Spacing

variable {P : Spacing}

/-- The spacing with spaces for all blanks. -/
def flatten (P : Spacing) : Spacing :=
  P.map Cell.flatten

/-- **Every blank outside literals is written as a space.** -/
theorem flattenBlanks_text (separate : ∀ cell ∈ P, cell.Separate) (closed : ∀ cell ∈ P, cell.Closed)
    (side : Side) {tail : Text} (blank : ∀ c ∈ tail, isBlank c = true) :
    flattenBlanks (text side P ++ tail)
      = text side P.flatten ++ List.replicate tail.length ' ' := by
  unfold flattenBlanks
  induction P with
  | nil => simpa [flatten, flattenBlanksFrom] using flattenBlanksFrom_blanks blank []
  | cons cell P ih =>
    obtain ⟨holds, others⟩ := List.forall_mem_cons.1 separate
    obtain ⟨ends, others'⟩ := List.forall_mem_cons.1 closed
    have rest := ih others others'
    cases cell with
    | char c =>
      have visible : isBlank c = false := holds.1
      have plain := after_plain_of_ne holds.2
      show flattenBlanksFrom .plain (c :: (text side P ++ tail)) = c :: _
      rw [flattenBlanksFrom, plain, rest, visible, if_neg (by simp)]
      rfl
    | literal contents =>
      have passed := flattenBlanksFrom_literal ends (text side P ++ tail)
      rw [rest] at passed
      simpa [Cell.text, flatten, Cell.flatten] using passed
    | gap run =>
      have isRun : IsRun run := holds
      have passed := flattenBlanksFrom_blanks (isRun.blank side) (text side P ++ tail)
      rw [rest] at passed
      simpa [Cell.text, flatten, Cell.flatten] using passed

end Spacing

end RecordMapper
