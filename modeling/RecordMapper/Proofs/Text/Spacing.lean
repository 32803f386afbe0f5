import Mathlib.Data.List.Chain
import RecordMapper.Proofs.Text.Mentions

/-!
Texts that are spaced in two ways.

A `Spacing` is a text with its blanks left open: its cells are characters, whole string literals, and
gaps that hold one run of blanks on the left side and another one on the right. So it stands for two
texts that differ in nothing but blanks outside literals (`Spacing.text`). A word without blanks
starts both texts or none (`Spacing.exists_after`) and ends both or none
(`Spacing.exists_before?`), and what is next to a gap on one side is next to it on the other, up to
the kind of ASCII blank (`Spacing.near_head`, `Spacing.alike_last`).
-/

namespace RecordMapper

open Text

/-! ### Spacings -/

/-- The two ways in which a text is spaced. -/
inductive Side where
  | left | right
  deriving DecidableEq, Repr

theorem Side.forall_iff {p : Side → Prop} : (∀ side, p side) ↔ p .left ∧ p .right :=
  ⟨fun all => ⟨all .left, all .right⟩, fun ⟨first, second⟩ side => by cases side <;> assumption⟩

instance {p : Side → Prop} [DecidablePred p] : Decidable (∀ side, p side) :=
  decidable_of_iff _ Side.forall_iff.symm

/-- A place of a text: a character, a string literal, or a gap with the blanks of each side. -/
inductive Cell where
  | char (c : Char)
  | literal (contents : Text)
  | gap (run : Side → Text)

/-- A text that is spaced in two ways. -/
abbrev Spacing := List Cell

namespace Cell

/-- The text of a cell on one side. -/
def text (side : Side) : Cell → Text
  | .char c => [c]
  | .literal contents => '"' :: (contents ++ ['"'])
  | .gap run => run side

/-- The cell is a gap. -/
def isGap : Cell → Bool
  | .gap _ => true
  | _ => false

/-- The cell read from its end. -/
def flip : Cell → Cell
  | .char c => .char c
  | .literal contents => .literal contents.reverse
  | .gap run => .gap fun side => (run side).reverse

end Cell

namespace Spacing

/-- The text on one side. -/
def text (side : Side) (P : Spacing) : Text :=
  P.flatMap (Cell.text side)

/-- A text without gaps. -/
def ofText (t : Text) : Spacing :=
  t.map .char

/-- The spacing read from its end. -/
def flip (P : Spacing) : Spacing :=
  (P.map Cell.flip).reverse

variable {side : Side} {P Q : Spacing}

@[simp] theorem text_nil (side : Side) : text side [] = [] :=
  rfl

@[simp] theorem text_cons (side : Side) (cell : Cell) (P : Spacing) :
    text side (cell :: P) = cell.text side ++ text side P :=
  rfl

@[simp] theorem text_append (side : Side) (P Q : Spacing) :
    text side (P ++ Q) = text side P ++ text side Q :=
  List.flatMap_append

@[simp] theorem text_ofText (side : Side) (t : Text) : text side (ofText t) = t := by
  induction t with
  | nil => rfl
  | cons c t ih => exact congrArg (c :: ·) ih

@[simp] theorem text_flip (side : Side) (P : Spacing) : text side P.flip = (text side P).reverse := by
  have cell : ∀ cell : Cell, cell.flip.text side = (cell.text side).reverse := by
    rintro (c | contents | run)
    all_goals simp [Cell.flip, Cell.text]
  induction P with
  | nil => rfl
  | cons first P ih =>
    have split : flip (first :: P) = flip P ++ [first.flip] := by simp [flip]
    rw [split, text_append, ih, text_cons, text_cons, cell, text_nil, List.append_nil,
      List.reverse_append]

theorem flip_append (P Q : Spacing) : flip (P ++ Q) = flip Q ++ flip P := by
  simp [flip]

theorem flip_flip (P : Spacing) : flip (flip P) = P := by
  have cell : Cell.flip ∘ Cell.flip = id := by
    funext cell
    cases cell <;> simp [Cell.flip]
  simp [flip, List.map_reverse, cell]

theorem flip_ofText (t : Text) : flip (ofText t) = ofText t.reverse := by
  simp [flip, ofText, Cell.flip, Function.comp_def]

end Spacing

/-! ### Characters beside a gap -/

/-- The characters at one place of the two sides are the same, or ASCII blanks. -/
def Alike (c : Side → Option Char) : Prop :=
  c .left = c .right ∨ ∀ side, ∃ b, c side = some b ∧ isAsciiBlank b = true

/-- The characters at one place of the two sides are the same, or there are only blanks or
nothing. -/
def Near (c : Side → Option Char) : Prop :=
  c .left = c .right ∨ ∀ side, ∀ b ∈ c side, isBlank b = true

namespace Alike

theorem const (c : Option Char) : Alike fun _ => c :=
  .inl rfl

variable {c : Side → Option Char} (alike : Alike c)
include alike

theorem near : Near c := by
  rcases alike with same | blanks
  · exact .inl same
  · refine .inr fun side b mem => ?_
    obtain ⟨b', here, blank⟩ := blanks side
    rw [here] at mem
    cases mem
    exact isBlank_of_isAsciiBlank blank

/-- What does not tell ASCII blanks apart takes the same value on both sides. -/
theorem apply_eq {β : Type} {f : Option Char → β}
    (blank : ∀ b, isAsciiBlank b = true → f (some b) = f (some ' ')) : f (c .left) = f (c .right) := by
  rcases alike with same | blanks
  · rw [same]
  · obtain ⟨b, left, isBlank⟩ := blanks .left
    obtain ⟨b', right, isBlank'⟩ := blanks .right
    rw [left, right, blank b isBlank, blank b' isBlank']

end Alike

/-- What takes blanks for nothing takes the same value on both sides. -/
theorem Near.apply_eq {c : Side → Option Char} (near : Near c) {β : Type} {f : Option Char → β}
    (blank : ∀ b, isBlank b = true → f (some b) = f none) : f (c .left) = f (c .right) := by
  have nothing : (∀ side, ∀ b ∈ c side, isBlank b = true) → ∀ side, f (c side) = f none := by
    intro blanks side
    cases here : c side with
    | none => rfl
    | some b => exact blank b (blanks side b here)
  rcases near with same | blanks
  · rw [same]
  · rw [nothing blanks, nothing blanks]

/-- A function of the side that takes the same value on both. -/
theorem eq_left {β : Type} {f : Side → β} (same : f .left = f .right) (side : Side) :
    f side = f .left := by
  cases side with
  | left => rfl
  | right => exact same.symm

/-! ### Lawful spacings -/

/-- Blanks beside a spacing, which may be none. -/
def IsSlack (blanks : Side → Text) : Prop :=
  ∀ side, ∀ c ∈ blanks side, isBlank c = true

theorem isSlack_nil : IsSlack fun _ => [] :=
  nofun

theorem isSlack_space : IsSlack fun _ => [' '] := by
  intro side c mem
  rw [List.mem_singleton.1 mem]
  rfl

/-- The blanks of a gap: some on each side. The first ones are the same or ASCII, and so are the
last ones. -/
structure IsRun (run : Side → Text) : Prop where
  blank : IsSlack run
  nonempty : ∀ side, run side ≠ []
  first : Alike fun side => (run side).head?
  last : Alike fun side => (run side).getLast?

/-- Gaps hold blanks, and characters outside literals are neither blanks nor quotes. -/
def Cell.Separate : Cell → Prop
  | .char c => isBlank c = false ∧ c ≠ '"'
  | .literal _ => True
  | .gap run => IsRun run

/-- A literal holds its contents up to the quote that closes it. -/
def Cell.Closed : Cell → Prop
  | .literal contents => literal? (contents ++ ['"']) = some (contents, [])
  | _ => True

/-- Every gap holds all the blanks around it, and nothing else holds any. -/
structure Spacing.Spaced (P : Spacing) : Prop where
  separate : ∀ cell ∈ P, cell.Separate
  apart : P.IsChain fun a b => a.isGap = false ∨ b.isGap = false

/-- Moreover, literals are closed. -/
structure Spacing.Lawful (P : Spacing) : Prop extends Spaced P where
  closed : ∀ cell ∈ P, cell.Closed

theorem Spacing.Spaced.of_isInfix {P Q : Spacing} (spaced : Spaced P) (part : Q <:+: P) :
    Spaced Q where
  separate cell mem := spaced.separate cell (part.subset mem)
  apart := List.IsChain.infix spaced.apart part

theorem Spacing.Spaced.of_append {P Q : Spacing} (spaced : Spaced (P ++ Q)) : Spaced Q :=
  spaced.of_isInfix (List.suffix_append P Q).isInfix

theorem Spacing.Spaced.of_cons {cell : Cell} {P : Spacing} (spaced : Spaced (cell :: P)) :
    Spaced P :=
  spaced.of_isInfix (List.suffix_cons cell P).isInfix

theorem Spacing.Lawful.of_isInfix {P Q : Spacing} (lawful : Lawful P) (part : Q <:+: P) :
    Lawful Q where
  toSpaced := lawful.toSpaced.of_isInfix part
  closed cell mem := lawful.closed cell (part.subset mem)

namespace IsRun

variable {run : Side → Text}

theorem of_ascii (checked : ∀ side, (run side).all isAsciiBlank = true)
    (nonempty : ∀ side, run side ≠ []) : IsRun run := by
  have ascii : ∀ side, ∀ c ∈ run side, isAsciiBlank c = true :=
    fun side => List.all_eq_true.1 (checked side)
  have first : ∀ side, ∃ c, (run side).head? = some c ∧ isAsciiBlank c = true := by
    intro side
    obtain ⟨c, rest, same⟩ := List.exists_cons_of_ne_nil (nonempty side)
    exact ⟨c, by rw [same, List.head?_cons], ascii side c (by simp [same])⟩
  have last : ∀ side, ∃ c, (run side).getLast? = some c ∧ isAsciiBlank c = true := fun side =>
    ⟨_, List.getLast?_eq_some_getLast (nonempty side), ascii side _ (List.getLast_mem (nonempty side))⟩
  exact ⟨fun side c mem => isBlank_of_isAsciiBlank (ascii side c mem), nonempty, .inr first, .inr last⟩

variable (isRun : IsRun run)
include isRun

theorem exists_cons (side : Side) : ∃ c rest, run side = c :: rest ∧ isBlank c = true := by
  obtain ⟨c, rest, same⟩ := List.exists_cons_of_ne_nil (isRun.nonempty side)
  exact ⟨c, rest, same, isRun.blank side c (by simp [same])⟩

theorem exists_concat (side : Side) : ∃ front c, run side = front ++ [c] ∧ isBlank c = true := by
  obtain ⟨front, c, same⟩ :=
    (List.eq_nil_or_concat (run side)).resolve_left (isRun.nonempty side)
  rw [List.concat_eq_append] at same
  exact ⟨front, c, same, isRun.blank side c (by simp [same])⟩

theorem reverse : IsRun fun side => (run side).reverse where
  blank side c mem := isRun.blank side c (List.mem_reverse.1 mem)
  nonempty side := by simpa using isRun.nonempty side
  first := by simpa only [List.head?_reverse] using isRun.last
  last := by simpa only [List.getLast?_reverse] using isRun.first

/-- A gap that is a single blank on both sides or on none is longer where it is not. -/
theorem single_or_longer (same : (run .left).length = 1 ↔ (run .right).length = 1) :
    (∀ side, (run side).length = 1) ∨ ∀ side, 1 < (run side).length := by
  have positive := fun side => List.length_pos_iff.2 (isRun.nonempty side)
  have left := positive .left
  have right := positive .right
  simp only [Side.forall_iff]
  omega

theorem lastFrom_eq (before : Option Char) (side : Side) :
    lastFrom before (run side) = (run side).getLast? := by
  obtain ⟨front, c, same, -⟩ := isRun.exists_concat side
  rw [same, lastFrom_concat, List.getLast?_concat]

end IsRun

namespace Spacing

variable {P Q : Spacing}

theorem separate_flip (separate : ∀ cell ∈ P, cell.Separate) : ∀ cell ∈ P.flip, cell.Separate := by
  intro cell mem
  obtain ⟨original, member, rfl⟩ := List.mem_map.1 (List.mem_reverse.1 mem)
  have holds := separate original member
  cases original with
  | char c => exact holds
  | literal contents => trivial
  | gap run => exact IsRun.reverse holds

theorem Spaced.flip (spaced : Spaced P) : Spaced P.flip where
  separate := separate_flip spaced.separate
  apart := by
    have gap : ∀ cell : Cell, cell.flip.isGap = cell.isGap := by
      rintro (c | contents | run) <;> rfl
    rw [Spacing.flip, List.isChain_reverse, List.isChain_map]
    refine spaced.apart.imp fun a b either => ?_
    rw [gap, gap]
    exact either.symm

theorem text_ne_nil (separate : ∀ cell ∈ P, cell.Separate) (nonempty : P ≠ []) (side : Side) :
    text side P ≠ [] := by
  obtain ⟨cell, P, rfl⟩ := List.exists_cons_of_ne_nil nonempty
  cases cell with
  | char c => simp [Cell.text]
  | literal contents => simp [Cell.text]
  | gap run =>
    have isRun : IsRun run := separate _ (List.mem_cons_self ..)
    simp [Cell.text, isRun.nonempty side]

theorem text_eq_nil_iff (separate : ∀ cell ∈ P, cell.Separate) (side : Side) :
    text side P = [] ↔ P = [] := by
  constructor
  · intro empty
    by_contra nonempty
    exact text_ne_nil separate nonempty side empty
  · rintro rfl
    rfl

/-- There are no more cells than characters. -/
theorem length_le_text (separate : ∀ cell ∈ P, cell.Separate) (side : Side) :
    P.length ≤ (text side P).length := by
  induction P with
  | nil => exact Nat.le_refl 0
  | cons cell P ih =>
    obtain ⟨first, others⟩ := List.forall_mem_cons.1 separate
    have one : cell.text side ≠ [] := by
      have single := text_ne_nil (List.forall_mem_singleton.2 first) nofun side
      simpa using single
    have positive := List.length_pos_iff.2 one
    have rest := ih others
    simp only [text_cons, List.length_cons, List.length_append]
    omega

end Spacing

/-! ### The ends of a side -/

namespace Spacing

variable {side : Side} {P : Spacing} {before tail : Side → Option Char}

theorem alike_head (separate : ∀ cell ∈ P, cell.Separate) :
    Alike fun side => (text side P).head? := by
  cases P with
  | nil => exact .const none
  | cons cell P =>
    cases cell with
    | char c => exact .const (some c)
    | literal contents => exact .const (some '"')
    | gap run =>
      have isRun : IsRun run := separate _ (List.mem_cons_self ..)
      have heads : (fun side => (text side (.gap run :: P)).head?) = fun side => (run side).head? := by
        funext side
        obtain ⟨c, rest, same, -⟩ := isRun.exists_cons side
        simp [Cell.text, same]
      rw [heads]
      exact isRun.first

theorem alike_last (separate : ∀ cell ∈ P, cell.Separate) (alike : Alike before) :
    Alike fun side => lastFrom (before side) (text side P) := by
  induction P generalizing before with
  | nil => exact alike
  | cons cell P ih =>
    obtain ⟨first, others⟩ := List.forall_mem_cons.1 separate
    have next : Alike fun side => lastFrom (before side) (cell.text side) := by
      cases cell with
      | char c => exact .const (some c)
      | literal contents =>
        refine .inl ?_
        show lastFrom _ ('"' :: contents ++ ['"']) = lastFrom _ ('"' :: contents ++ ['"'])
        rw [lastFrom_concat, lastFrom_concat]
      | gap run =>
        have isRun : IsRun run := first
        simpa only [Cell.text, isRun.lastFrom_eq] using isRun.last
    simp only [text_cons, lastFrom_append]
    exact ih others next

/-- Behind a spacing there may be blanks on one side only. -/
theorem near_head (separate : ∀ cell ∈ P, cell.Separate) {tail : Side → Text}
    (slack : IsSlack tail) : Near fun side => (text side P ++ tail side).head? := by
  cases P with
  | nil => exact .inr fun side b mem => slack side b (List.mem_of_head? mem)
  | cons cell P =>
    have heads : (fun side => (text side (cell :: P) ++ tail side).head?)
        = fun side => (text side (cell :: P)).head? := by
      funext side
      obtain ⟨c, rest, same⟩ :=
        List.exists_cons_of_ne_nil (text_ne_nil separate (List.cons_ne_nil cell P) side)
      rw [same]
      rfl
    rw [heads]
    exact (alike_head separate).near

/-- So may there before it. -/
theorem near_last (separate : ∀ cell ∈ P, cell.Separate) {lead : Side → Text}
    (slack : IsSlack lead) : Near fun side => (lead side ++ text side P).getLast? := by
  have slack' : IsSlack fun side => (lead side).reverse :=
    fun side c mem => slack side c (List.mem_reverse.1 mem)
  have heads := near_head (separate_flip separate) slack'
  simp only [text_flip, ← List.reverse_append, List.head?_reverse] at heads
  exact heads

end Spacing

/-! ### Words -/

namespace Text

/-- Characters are compared one by one, as `same` says, to find what follows a start. -/
structure IsAfter (same : Char → Char → Bool) (after : Text → Text → Option Text) : Prop where
  nil : ∀ t, after [] t = some t
  short : ∀ a start, after (a :: start) [] = none
  cons : ∀ a start b t, after (a :: start) (b :: t) = if same a b then after start t else none

/-- A word of which no character is taken for a blank or a quote. -/
def IsVisible (same : Char → Char → Bool) (w : Text) : Prop :=
  ∀ a ∈ w, same a '"' = false ∧ ∀ b, isBlank b = true → same a b = false

theorem IsVisible.reverse {same : Char → Char → Bool} {w : Text} (visible : IsVisible same w) :
    IsVisible same w.reverse :=
  fun a mem => visible a (List.mem_reverse.1 mem)

theorem isAfter_after? (ignoreCase : Bool) : IsAfter (agree ignoreCase) (after? ignoreCase) :=
  ⟨fun _ => rfl, fun _ _ => rfl, fun _ _ _ _ => rfl⟩

/-- A text without blanks and quotes. -/
def IsPlainWord (w : Text) : Prop :=
  ∀ a ∈ w, isBlank a = false ∧ a ≠ '"'

instance (w : Text) : Decidable (IsPlainWord w) :=
  List.decidableBAll _ w

theorem isVisible_of (ignoreCase : Bool) {w : Text} (plain : IsPlainWord w) :
    IsVisible (agree ignoreCase) w := by
  intro a mem
  obtain ⟨visible, unquoted⟩ := plain a mem
  constructor
  · rw [← Bool.not_eq_true]
    intro same
    rw [agree_comm] at same
    exact unquoted (eq_of_agree rfl same).symm
  · intro b blank
    rw [← Bool.not_eq_true]
    intro same
    rw [agree_comm] at same
    rw [eq_of_agree (not_isAlpha_of_isBlank blank) same, visible] at blank
    cases blank

end Text

namespace Spacing

variable {P : Spacing} {same : Char → Char → Bool} {w : Text}

/-- **A visible word starts both sides or none**, whatever blanks follow behind the spacing. -/
theorem exists_after {after : Text → Text → Option Text} (isAfter : IsAfter same after)
    (visible : IsVisible same w) (separate : ∀ cell ∈ P, cell.Separate) {tail : Side → Text}
    (slack : IsSlack tail) :
    (∃ x rest, P = ofText x ++ rest ∧ List.Forall₂ (fun a b => same a b = true) w x
      ∧ ∀ side, after w (text side P ++ tail side) = some (text side rest ++ tail side))
    ∨ ∀ side, after w (text side P ++ tail side) = none := by
  induction w generalizing P with
  | nil => exact .inl ⟨[], P, rfl, .nil, fun side => isAfter.nil _⟩
  | cons a w ih =>
    obtain ⟨⟨unquoted, visible_a⟩, others⟩ := List.forall_mem_cons.1 visible
    have blanks : ∀ {b : Char} (t : Text), isBlank b = true → after (a :: w) (b :: t) = none := by
      intro b t blank
      rw [isAfter.cons, visible_a b blank, if_neg Bool.false_ne_true]
    cases P with
    | nil =>
      refine .inr fun side => ?_
      rw [text_nil, List.nil_append]
      cases here : tail side with
      | nil => exact isAfter.short a w
      | cons b t => exact blanks t (slack side b (by simp [here]))
    | cons cell P =>
      obtain ⟨first, behind⟩ := List.forall_mem_cons.1 separate
      cases cell with
      | char c =>
        have step : ∀ side, after (a :: w) (text side (.char c :: P) ++ tail side)
            = if same a c then after w (text side P ++ tail side) else none :=
          fun side => isAfter.cons a w c _
        cases agreed : same a c with
        | false => exact .inr fun side => by rw [step, agreed, if_neg Bool.false_ne_true]
        | true =>
          rcases ih others behind with ⟨x, rest, rfl, all, found⟩ | missed
          · refine .inl ⟨c :: x, rest, rfl, .cons agreed all, fun side => ?_⟩
            rw [step, agreed, if_pos rfl, found]
          · refine .inr fun side => ?_
            rw [step, agreed, if_pos rfl, missed]
      | literal contents =>
        refine .inr fun side => ?_
        show after (a :: w) ('"' :: _) = none
        rw [isAfter.cons, unquoted, if_neg Bool.false_ne_true]
      | gap run =>
        have isRun : IsRun run := first
        refine .inr fun side => ?_
        obtain ⟨c, rest, here, blank⟩ := isRun.exists_cons side
        simpa [Cell.text, here] using blanks (rest ++ (text side P ++ tail side)) blank

/-- A visible word starts both sides or none, with nothing behind them. -/
theorem exists_after_end {after : Text → Text → Option Text} (isAfter : IsAfter same after)
    (visible : IsVisible same w) (separate : ∀ cell ∈ P, cell.Separate) :
    (∃ x rest, P = ofText x ++ rest ∧ List.Forall₂ (fun a b => same a b = true) w x
      ∧ ∀ side, after w (text side P) = some (text side rest))
    ∨ ∀ side, after w (text side P) = none := by
  have found := exists_after isAfter visible separate isSlack_nil
  simpa using found

/-- **A visible word ends both sides or none**, whatever blanks come before the spacing. -/
theorem exists_before? {ignoreCase : Bool} (visible : IsVisible (agree ignoreCase) w)
    (separate : ∀ cell ∈ P, cell.Separate) {lead : Side → Text}
    (slack : IsSlack lead) :
    (∃ front x, P = front ++ ofText x ∧ List.Forall₂ (fun a b => agree ignoreCase a b = true) w x
      ∧ ∀ side, after? ignoreCase w.reverse (lead side ++ text side P).reverse
          = some (lead side ++ text side front).reverse)
    ∨ ∀ side, after? ignoreCase w.reverse (lead side ++ text side P).reverse = none := by
  have reversed : ∀ side (Q : Spacing), (lead side ++ text side Q).reverse
      = text side Q.flip ++ (lead side).reverse := by simp
  have slack' : IsSlack fun side => (lead side).reverse :=
    fun side c mem => slack side c (List.mem_reverse.1 mem)
  simp only [reversed]
  rcases exists_after (isAfter_after? ignoreCase) visible.reverse (separate_flip separate) slack' with
    ⟨x, rest, whole, all, found⟩ | missed
  · refine .inl ⟨rest.flip, x.reverse, ?_, ?_, fun side => ?_⟩
    · rw [← flip_ofText, ← flip_append, ← whole, flip_flip]
    · simpa using List.forall₂_reverse_iff.2 all
    · rw [found side, flip_flip]
  · exact .inr missed

/-- A side that holds nothing but a visible word comes from a spacing without gaps. -/
theorem eq_ofText_of_text {side : Side} (visible : IsPlainWord w)
    (separate : ∀ cell ∈ P, cell.Separate) (here : text side P = w) : P = ofText w := by
  induction P generalizing w with
  | nil =>
    obtain rfl : [] = w := here
    rfl
  | cons cell P ih =>
    obtain ⟨first, behind⟩ := List.forall_mem_cons.1 separate
    subst here
    cases cell with
    | char c =>
      have rest := ih (fun a mem => visible a (List.mem_cons_of_mem c mem)) behind rfl
      exact congrArg (.char c :: ·) rest
    | literal contents => exact absurd rfl (visible '"' (List.mem_cons_self ..)).2
    | gap run =>
      have isRun : IsRun run := first
      obtain ⟨b, rest, here, blank⟩ := isRun.exists_cons side
      have other := (visible b (by simp [Cell.text, here])).1
      rw [blank] at other
      cases other

end Spacing

/-! ### Trimming -/

namespace Spacing

variable {P : Spacing}

/-- The spacing without a gap at its start. -/
def trimStart (P : Spacing) : Spacing :=
  P.dropWhile Cell.isGap

/-- The spacing without gaps at its ends. -/
def trim (P : Spacing) : Spacing :=
  P.trimStart.flip.trimStart.flip

theorem isInfix_trimStart (P : Spacing) : P.trimStart <:+: P :=
  (List.dropWhile_suffix _).isInfix

theorem isInfix_trim (P : Spacing) : P.trim <:+: P := by
  obtain ⟨gaps, split⟩ : P.trimStart.flip.trimStart <:+ P.trimStart.flip := List.dropWhile_suffix _
  have whole : P.trim ++ flip gaps = P.trimStart := by
    rw [trim, ← flip_append, split, flip_flip]
  exact (List.prefix_append _ _).isInfix.trans (whole ▸ P.isInfix_trimStart)

theorem isBlank_of_gaps (separate : ∀ cell ∈ P, cell.Separate) (gaps : ∀ cell ∈ P, cell.isGap = true)
    (side : Side) : ∀ c ∈ text side P, isBlank c = true := by
  intro c mem
  obtain ⟨cell, member, mem⟩ := List.mem_flatMap.1 mem
  have gap := gaps cell member
  have holds := separate cell member
  cases cell with
  | char c => cases gap
  | literal contents => cases gap
  | gap run =>
    have isRun : IsRun run := holds
    exact isRun.blank side c mem

theorem head_of_not_isGap (separate : ∀ cell ∈ P, cell.Separate)
    (start : ∀ cell ∈ P.head?, cell.isGap = false) (side : Side) :
    ∀ c ∈ (text side P).head?, isBlank c = false := by
  cases P with
  | nil => exact nofun
  | cons cell P =>
    have holds := separate cell (List.mem_cons_self ..)
    have solid := start cell rfl
    cases cell with
    | char c =>
      rintro _ ⟨⟩
      exact holds.1
    | literal contents =>
      rintro _ ⟨⟩
      rfl
    | gap run => cases solid

theorem head_dropWhile (P : Spacing) : ∀ cell ∈ (P.dropWhile Cell.isGap).head?, cell.isGap = false := by
  intro cell mem
  have found := List.head?_dropWhile_not Cell.isGap P
  rw [Option.mem_def.1 mem] at found
  simpa using found

theorem blank_of_trimStart (separate : ∀ cell ∈ P, cell.Separate) (empty : P.trimStart = [])
    (side : Side) : ∀ c ∈ text side P, isBlank c = true :=
  isBlank_of_gaps separate (List.dropWhile_eq_nil_iff.1 empty) side

/-- The blanks at the start of a side are those before the first cell that is no gap. -/
theorem trimStart_text (separate : ∀ cell ∈ P, cell.Separate) (nonempty : P.trimStart ≠ [])
    (side : Side) {lead : Text} (blank : ∀ c ∈ lead, isBlank c = true) (tail : Text) :
    Text.trimStart (lead ++ text side P ++ tail) = text side P.trimStart ++ tail := by
  have split : text side P = text side (P.takeWhile Cell.isGap) ++ text side P.trimStart := by
    rw [← text_append, trimStart, List.takeWhile_append_dropWhile]
  have gaps : ∀ c ∈ text side (P.takeWhile Cell.isGap), isBlank c = true :=
    isBlank_of_gaps (fun cell mem => separate cell (List.takeWhile_subset _ mem))
      (fun cell mem => List.mem_takeWhile_imp mem) side
  have inner : ∀ cell ∈ P.trimStart, cell.Separate :=
    fun cell mem => separate cell (P.isInfix_trimStart.subset mem)
  have start := head_of_not_isGap inner P.head_dropWhile side
  obtain ⟨c, rest, here⟩ := List.exists_cons_of_ne_nil (text_ne_nil inner nonempty side)
  rw [split, List.append_assoc, List.append_assoc, ← List.append_assoc]
  refine dropWhile_isBlank_append (List.forall_mem_append.2 ⟨blank, gaps⟩) ?_
  rw [here] at start ⊢
  exact start

/-- The gap at the start is what is trimmed from a side. -/
theorem trimStart_eq (separate : ∀ cell ∈ P, cell.Separate) (side : Side) :
    Text.trimStart (text side P) = text side P.trimStart := by
  by_cases empty : P.trimStart = []
  · rw [empty]
    exact List.dropWhile_eq_nil_iff.2 (blank_of_trimStart separate empty side)
  · have trimmed := trimStart_text separate empty side (List.forall_mem_nil _) []
    simpa using trimmed

/-- **A side is trimmed to what stands between the gaps at the ends.** -/
theorem trim_text (separate : ∀ cell ∈ P, cell.Separate) (side : Side) {lead tail : Text}
    (blank : ∀ c ∈ lead, isBlank c = true) (blank' : ∀ c ∈ tail, isBlank c = true) :
    Text.trim (lead ++ text side P ++ tail) = text side P.trim := by
  by_cases empty : P.trimStart = []
  · have blanks : ∀ c ∈ lead ++ text side P ++ tail, isBlank c = true :=
      List.forall_mem_append.2 ⟨List.forall_mem_append.2
        ⟨blank, blank_of_trimStart separate empty side⟩, blank'⟩
    have start : Text.trimStart (lead ++ text side P ++ tail) = [] := List.dropWhile_eq_nil_iff.2 blanks
    have trimmed : P.trim = [] := by rw [trim, empty]; rfl
    rw [Text.trim, start, trimmed]
    rfl
  · have inner : ∀ cell ∈ P.trimStart, cell.Separate :=
      fun cell mem => separate cell (P.isInfix_trimStart.subset mem)
    have first : P.trimStart.flip.trimStart ≠ [] := by
      intro gaps
      obtain ⟨cell, rest, here⟩ := List.exists_cons_of_ne_nil empty
      have solid := P.head_dropWhile cell (by rw [← trimStart, here]; rfl)
      have gap := List.dropWhile_eq_nil_iff.1 gaps cell.flip (by simp [flip, here])
      cases cell <;> simp_all [Cell.flip, Cell.isGap]
    have back := trimStart_text (separate_flip inner) first side
      (fun c mem => blank' c (List.mem_reverse.1 mem)) []
    rw [List.append_nil, List.append_nil, text_flip, ← List.reverse_append] at back
    rw [Text.trim, trimStart_text separate empty side blank, trimEnd, ← Text.trimStart, back, trim,
      text_flip]

theorem trim_append_text (separate : ∀ cell ∈ P, cell.Separate) (side : Side) {lead : Text}
    (blank : ∀ c ∈ lead, isBlank c = true) :
    Text.trim (lead ++ text side P) = text side P.trim := by
  rw [← trim_text separate side blank (List.forall_mem_nil _), List.append_nil]

/-- What is trimmed from a side. -/
theorem trim_text_self (separate : ∀ cell ∈ P, cell.Separate) (side : Side) :
    Text.trim (text side P) = text side P.trim :=
  trim_append_text separate side (List.forall_mem_nil _)

end Spacing

end RecordMapper
