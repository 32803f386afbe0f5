import RecordMapper.Proofs.Query.SpacedForm
import RecordMapper.Proofs.Query.Tokens
import RecordMapper.Proofs.Token.Depth
import RecordMapper.Proofs.Token.SpacedRun

/-!
Tokens of a query text that is spaced in two ways.

`Spacing.Kept` says how far the blanks of a text may be replaced: the ends of the gaps around
connectors and arithmetic signs, the blank behind `DISTINCT` and the gaps between words that are read
together stay what they are, everything else is free. Two texts are `Respaced` if they are the sides
of such a spacing. **Every tokenizer of the query language divides respaced texts into respaced
tokens** (`FieldList.respaced_items`, `Chain.arePieces_tokens`, `Connected.respaced_tokens`,
`CaseBody.respaced_tokens`).
-/

namespace RecordMapper

open Text
open Form (IsWritten)
open Separation (Opens)

/-! ### Words as they are written -/

namespace Form

theorem fold_eq_of_agree {ignoreCase : Bool} {a b : Char} (same : agree ignoreCase a b = true) :
    fold a = fold b := by
  by_cases long : a = 'ſ'
  · rw [← eq_of_agree (by rw [long]; decide) same]
  by_cases long' : b = 'ſ'
  · rw [agree_comm] at same
    rw [← eq_of_agree (by rw [long']; decide) same]
  rw [fold, fold, if_neg long, if_neg long']
  cases ignoreCase with
  | false => rw [show a = b by simpa [agree] using same]
  | true => simpa [agree] using same

theorem IsWritten.ne_nil {w x : Text} (written : IsWritten w x) (nonempty : w ≠ []) : x ≠ [] := by
  rintro rfl
  exact nonempty (List.map_eq_nil_iff.1 written.symm)

theorem isWritten_of_agree {ignoreCase : Bool} {w x : Text}
    (all : List.Forall₂ (fun a b => agree ignoreCase a b = true) w x) : IsWritten w x := by
  induction all with
  | nil => rfl
  | cons same _ ih => exact List.cons_eq_cons.2 ⟨(fold_eq_of_agree same).symm, ih⟩

end Form

/-! ### What is kept -/

namespace Spacing

/-- A word that joins the texts around it if there is a space on each side. -/
inductive IsJoint : Text → Prop
  | sign (op : MathOp) : IsJoint [op.symbol]
  | connector (op : BoolOp) : IsJoint op.keyword

/-- Words that are read in another way where a single blank stands between them: together, or as
words that share it. -/
inductive AreTied : Text → Text → Prop
  | signs (op op' : MathOp) : AreTied [op.symbol] [op'.symbol]
  | connectors (op op' : BoolOp) : AreTied op.keyword op'.keyword
  | keywords {w w' : Text} (mem : w ∈ CaseBody.keywords) (mem' : w' ∈ CaseBody.keywords) :
    AreTied w w'
  | ending {w : Text} (mem : w ∈ CaseBody.keywords) : AreTied w endKeyword
  | empty : AreTied caseKeyword endKeyword
  | operator {v w : Text} (op : CmpOp) (split : op.text = v ++ ' ' :: w) : AreTied v w

/-- The word `DISTINCT`. -/
def distinctWord : Text := ['D', 'I', 'S', 'T', 'I', 'N', 'C', 'T']

/-- Where the blanks of the two sides must agree. A connector or an arithmetic sign between two gaps
has a space on each side in both texts or in none, and the gap behind `DISTINCT` starts with a space
in both or in none. The gap between tied words is a single blank in both or in none, and that within
an operator is a single space in both or in none. -/
structure Kept (P : Spacing) : Prop extends Lawful P where
  around : ∀ w, IsJoint w → ∀ run x run', IsWritten w x →
    .gap run :: (ofText x ++ [.gap run']) <:+: P →
    (Opens (run .left) (run' .left) ↔ Opens (run .right) (run' .right))
  between : ∀ v w, AreTied v w → ∀ x run y, IsWritten v x → IsWritten w y →
    ofText x ++ (.gap run :: ofText y) <:+: P →
    ((run .left).length = 1 ↔ (run .right).length = 1)
  within : ∀ (op : CmpOp) v w, op.text = v ++ ' ' :: w → ∀ x run y, IsWritten v x → IsWritten w y →
    ofText x ++ (.gap run :: ofText y) <:+: P → (run .left = [' '] ↔ run .right = [' '])
  behind : ∀ x run, IsWritten distinctWord x → ofText x ++ [.gap run] <:+: P →
    ((run .left).head? = some ' ' ↔ (run .right).head? = some ' ')

theorem Kept.of_isInfix {P Q : Spacing} (kept : Kept P) (part : Q <:+: P) : Kept Q where
  toLawful := kept.toLawful.of_isInfix part
  around w joint run x run' written inside :=
    kept.around w joint run x run' written (inside.trans part)
  between v w tied x run y written written' inside :=
    kept.between v w tied x run y written written' (inside.trans part)
  within op v w split x run y written written' inside :=
    kept.within op v w split x run y written written' (inside.trans part)
  behind x run written inside := kept.behind x run written (inside.trans part)

/-- A gap that is the same on both sides, or starts and ends with spaces of its own on both. -/
def IsPadded (run : Side → Text) : Prop :=
  run .left = run .right ∨ ∀ side, ∃ blanks, run side = ' ' :: (blanks ++ [' '])

theorem IsPadded.ends {run : Side → Text} (padded : IsPadded run) :
    (run .left).head? = (run .right).head? ∧ (run .left).getLast? = (run .right).getLast?
      ∧ ((run .left).length = 1 ↔ (run .right).length = 1)
      ∧ (run .left = [' '] ↔ run .right = [' ']) := by
  rcases padded with same | padded
  · simp [same]
  · obtain ⟨blanks, left⟩ := padded .left
    obtain ⟨blanks', right⟩ := padded .right
    simp [left, right, List.getLast?_cons]

/-- Blanks are kept if all gaps are padded. -/
theorem Lawful.kept {P : Spacing} (lawful : Lawful P)
    (padded : ∀ run, .gap run ∈ P → IsPadded run) : Kept P := by
  have ends := fun run mem => (padded run mem).ends
  refine ⟨lawful, ?_, ?_, ?_, ?_⟩
  · intro _ _ run _ run' _ inside
    rw [Opens, Opens, (ends run (inside.subset (by simp))).2.1,
      (ends run' (inside.subset (by simp))).1]
  · intro _ _ _ _ run _ _ _ inside
    exact (ends run (inside.subset (by simp))).2.2.1
  · intro _ _ _ _ _ run _ _ _ inside
    exact (ends run (inside.subset (by simp))).2.2.2
  · intro _ run _ inside
    rw [(ends run (inside.subset (by simp))).1]

theorem concat_infix_concat {P : Spacing} (front : Spacing) {last cell : Cell}
    (part : front ++ [last] <:+: P ++ [cell]) :
    front ++ [last] <:+: P ∨ last = cell ∧ front <:+ P := by
  rcases List.infix_concat_iff.1 part with isSuffix | inside
  · rcases List.suffix_concat_iff.1 isSuffix with empty | ⟨front', same, isSuffix⟩
    · simp at empty
    · obtain ⟨rfl, last_eq⟩ := List.append_inj' same rfl
      exact .inr ⟨List.singleton_inj.1 last_eq, isSuffix⟩
  · exact .inl inside

theorem AreTied.nonempty {v w : Text} (tied : AreTied v w) : w ≠ [] := by
  cases tied with
  | signs => nofun
  | connectors _ op => cases op <;> nofun
  | keywords _ mem =>
    rintro rfl
    exact absurd mem (by decide)
  | ending => nofun
  | empty => nofun
  | operator op split =>
    rintro rfl
    have last := congrArg List.getLast? split
    rw [List.getLast?_concat] at last
    cases op <;> cases last

/-- The gap at the end matters by its first blank only. -/
theorem Kept.concat_gap {P : Spacing} {run run' : Side → Text} (kept : Kept (P ++ [.gap run]))
    (isRun : IsRun run') (head : ∀ side, (run' side).head? = (run side).head?) :
    Kept (P ++ [.gap run']) := by
  have front : P <:+: P ++ [.gap run] := (List.prefix_append _ _).isInfix
  have atEnd : ∀ {Q : Spacing}, Q <:+ P → Q ++ [.gap run] <:+: P ++ [.gap run] := by
    rintro Q ⟨before, rfl⟩
    exact ⟨before, [], by simp⟩
  have reaches : ∀ {x y : Text} {run₁ : Side → Text}, y ≠ [] →
      ofText x ++ .gap run₁ :: ofText y <:+: P ++ [.gap run'] →
      ofText x ++ .gap run₁ :: ofText y <:+: P ++ [.gap run] := by
    intro x y run₁ nonempty inside
    obtain ⟨y, c, rfl⟩ := (List.eq_nil_or_concat y).resolve_left nonempty
    have split : ofText x ++ .gap run₁ :: ofText (y.concat c)
        = (ofText x ++ .gap run₁ :: ofText y) ++ [.char c] := by simp [ofText]
    rw [split] at inside ⊢
    rcases concat_infix_concat _ inside with inside | ⟨same, -⟩
    · exact inside.trans front
    · cases same
  refine ⟨⟨⟨?_, ?_⟩, ?_⟩, ?_, ?_, ?_, ?_⟩
  · intro cell mem
    rcases List.mem_append.1 mem with inside | last
    · exact kept.separate cell (List.mem_append_left _ inside)
    · obtain rfl := List.mem_singleton.1 last
      exact isRun
  · have apart := kept.apart
    rw [List.isChain_append] at apart ⊢
    refine ⟨apart.1, List.isChain_singleton _, fun a last b first => ?_⟩
    cases first
    exact apart.2.2 a last (.gap run) rfl
  · intro cell mem
    rcases List.mem_append.1 mem with inside | last
    · exact kept.closed cell (List.mem_append_left _ inside)
    · obtain rfl := List.mem_singleton.1 last
      trivial
  · intro w joint run₁ x run₂ written inside
    rcases concat_infix_concat (.gap run₁ :: ofText x) inside with inside | ⟨same, isSuffix⟩
    · exact kept.around w joint run₁ x run₂ written (inside.trans front)
    · obtain rfl := Cell.gap.inj same
      have around := kept.around w joint run₁ x run written (atEnd isSuffix)
      rwa [Opens, Opens, head, head]
  · intro v w tied x run₁ y written written' inside
    have nonempty : y ≠ [] := written'.ne_nil tied.nonempty
    exact kept.between v w tied x run₁ y written written' (reaches nonempty inside)
  · intro op v w split x run₁ y written written' inside
    have nonempty : y ≠ [] := written'.ne_nil (AreTied.operator op split).nonempty
    exact kept.within op v w split x run₁ y written written' (reaches nonempty inside)
  · intro x run₁ written inside
    rcases concat_infix_concat _ inside with inside | ⟨same, isSuffix⟩
    · exact kept.behind x run₁ written (inside.trans front)
    · obtain rfl := Cell.gap.inj same
      rw [head, head]
      exact kept.behind x run written (atEnd isSuffix)

/-- A text without gaps. -/
theorem kept_ofText {t : Text} (plain : IsPlainWord t) : Kept (ofText t) := by
  have chars : ∀ cell ∈ ofText t, ∃ a ∈ t, cell = .char a := by
    intro cell mem
    obtain ⟨a, member, rfl⟩ := List.mem_map.1 mem
    exact ⟨a, member, rfl⟩
  refine Lawful.kept ⟨⟨?_, ?_⟩, ?_⟩ ?_
  · intro cell mem
    obtain ⟨a, member, rfl⟩ := chars cell mem
    exact plain a member
  · rw [ofText, List.isChain_map]
    exact (List.pairwise_of_forall fun _ _ => .inl rfl).isChain
  · intro cell mem
    obtain ⟨a, -, rfl⟩ := chars cell mem
    trivial
  · intro run mem
    obtain ⟨a, -, same⟩ := chars (.gap run) mem
    cases same

/-! ### Blanks as spaces -/

theorem isGap_flatten (cell : Cell) : cell.flatten.isGap = cell.isGap := by
  cases cell <;> rfl

/-- Cells that were flattened to those of a text are those of the text. -/
theorem eq_ofText_of_flatten {x : Text} {P : Spacing} (rest : Spacing) (same : P.flatten = ofText x ++ rest) :
    ∃ rest', P = ofText x ++ rest' ∧ Spacing.flatten rest' = rest := by
  induction x generalizing P with
  | nil => exact ⟨P, rfl, same⟩
  | cons c x ih =>
    cases P with
    | nil => cases same
    | cons cell P =>
      obtain ⟨first, others⟩ := List.cons.inj same
      obtain ⟨rest', rfl, flattened⟩ := ih others
      cases cell with
      | char d =>
        obtain rfl : d = c := Cell.char.inj first
        exact ⟨rest', rfl, flattened⟩
      | literal contents => cases first
      | gap run => cases first

/-- A flattened gap comes from one with as many blanks. -/
theorem exists_gap_of_flatten {run : Side → Text} {P rest : Spacing}
    (same : P.flatten = .gap run :: rest) :
    ∃ run' rest', P = .gap run' :: rest' ∧ Spacing.flatten rest' = rest
      ∧ run = fun side => List.replicate (run' side).length ' ' := by
  cases P with
  | nil => cases same
  | cons cell P =>
    obtain ⟨first, others⟩ := List.cons.inj same
    cases cell with
    | char c => cases first
    | literal contents => cases first
    | gap run' => exact ⟨run', P, rfl, others, (Cell.gap.inj first).symm⟩

/-- A part of the flattened spacing is a flattened part of it. -/
theorem exists_infix_of_flatten {P Q : Spacing} (part : Q <:+: P.flatten) :
    ∃ Q', Q' <:+: P ∧ Spacing.flatten Q' = Q := by
  obtain ⟨front, back, whole⟩ := part
  obtain ⟨P', back', rfl, first, -⟩ := List.map_eq_append_iff.1 whole.symm
  obtain ⟨front', Q', rfl, -, second⟩ := List.map_eq_append_iff.1 first
  exact ⟨Q', ⟨front', back', rfl⟩, second⟩

variable {P : Spacing}

theorem isRun_replicate {n : Side → Nat} (positive : ∀ side, 0 < n side) :
    IsRun fun side => List.replicate (n side) ' ' := by
  refine .of_ascii (fun side => ?_) fun side empty => ?_
  · simp [isAsciiBlank]
  · have none := (List.replicate_eq_nil_iff ' ').1 empty
    exact absurd none (Nat.ne_of_gt (positive side))

theorem Lawful.flatten (lawful : Lawful P) : Lawful P.flatten where
  separate cell mem := by
    obtain ⟨original, member, rfl⟩ := List.mem_map.1 mem
    have holds := lawful.separate original member
    cases original with
    | char c => exact holds
    | literal contents => trivial
    | gap run =>
      have isRun : IsRun run := holds
      exact isRun_replicate fun side => List.length_pos_iff.2 (isRun.nonempty side)
  apart := by
    rw [Spacing.flatten, List.isChain_map]
    exact lawful.apart.imp fun a b either => by rwa [isGap_flatten, isGap_flatten]
  closed cell mem := by
    obtain ⟨original, member, rfl⟩ := List.mem_map.1 mem
    have holds := lawful.closed original member
    cases original with
    | char c => trivial
    | literal contents => exact holds
    | gap run => trivial

/-- In a flattened spacing there are spaces at the ends of all gaps. -/
theorem ends_of_flatten (separate : ∀ cell ∈ P, cell.Separate) (run : Side → Text)
    (mem : .gap run ∈ P.flatten) (side : Side) :
    (run side).head? = some ' ' ∧ (run side).getLast? = some ' ' := by
  obtain ⟨original, member, same⟩ := List.mem_map.1 mem
  have holds := separate original member
  cases original with
  | char c => cases same
  | literal contents => cases same
  | gap run' =>
    have isRun : IsRun run' := holds
    obtain rfl := (Cell.gap.inj same).symm
    have positive := List.length_pos_iff.2 (isRun.nonempty side)
    rw [List.head?_replicate, List.getLast?_replicate, if_neg (Nat.ne_of_gt positive)]
    exact ⟨rfl, rfl⟩

/-- A flattened gap between two words comes from one with as many blanks. -/
theorem exists_between_of_flatten {x y : Text} {run : Side → Text}
    (inside : ofText x ++ .gap run :: ofText y <:+: P.flatten) :
    ∃ run', ofText x ++ .gap run' :: ofText y <:+: P
      ∧ run = fun side => List.replicate (run' side).length ' ' := by
  obtain ⟨Q, part, flattened⟩ := exists_infix_of_flatten inside
  obtain ⟨rest, rfl, flattened'⟩ := eq_ofText_of_flatten _ flattened
  obtain ⟨run', rest', rfl, flattened'', rfl⟩ := exists_gap_of_flatten flattened'
  obtain ⟨rest, rfl, -⟩ := eq_ofText_of_flatten [] (by simpa using flattened'')
  exact ⟨run', List.IsInfix.trans ⟨[], rest, by simp⟩ part, rfl⟩

/-- Written as spaces, blanks that are kept are kept. -/
theorem Kept.flatten (kept : Kept P) : Kept P.flatten where
  toLawful := kept.toLawful.flatten
  around w _ run x run' _ inside := by
    have first := ends_of_flatten kept.separate run (inside.subset (List.mem_cons_self ..))
    have last := ends_of_flatten kept.separate run' (inside.subset (by simp))
    simp [Opens, (first _).2, (last _).1]
  between v w tied x run y written written' inside := by
    obtain ⟨run', part, rfl⟩ := exists_between_of_flatten inside
    simpa using kept.between v w tied x run' y written written' part
  within op v w split x run y written written' inside := by
    obtain ⟨run', part, rfl⟩ := exists_between_of_flatten inside
    have one : ∀ n, List.replicate n ' ' = [' '] ↔ n = 1 :=
      fun n => List.replicate_left_inj (m := 1)
    rw [one, one]
    exact kept.between v w (.operator op split) x run' y written written' part
  behind x run _ inside := by
    have ends := ends_of_flatten kept.separate run (inside.subset (by simp))
    simp [(ends _).1]

end Spacing

/-! ### Respaced texts -/

/-- The two texts differ in nothing but blanks outside literals, and not in those that matter. -/
def Text.Respaced (x y : Text) : Prop :=
  ∃ P : Spacing, P.Kept ∧ x = P.text .left ∧ y = P.text .right

namespace Text

theorem respaced_sides {P : Spacing} (kept : P.Kept) : Respaced (P.text .left) (P.text .right) :=
  ⟨P, kept, rfl, rfl⟩

theorem respaced_self {w : Text} (plain : IsPlainWord w) : Respaced w w :=
  ⟨.ofText w, Spacing.kept_ofText plain, (Spacing.text_ofText .left w).symm,
    (Spacing.text_ofText .right w).symm⟩

variable {x y : Text} (respaced : Respaced x y)
include respaced

theorem Respaced.trim : Respaced x.trim y.trim := by
  obtain ⟨P, kept, rfl, rfl⟩ := respaced
  rw [Spacing.trim_text_self kept.separate, Spacing.trim_text_self kept.separate]
  exact respaced_sides (kept.of_isInfix P.isInfix_trim)

theorem Respaced.isEmpty_eq : x.isEmpty = y.isEmpty := by
  obtain ⟨P, kept, rfl, rfl⟩ := respaced
  exact Form.isEmpty_eq kept.toSpaced

/-- A word without blanks stands on both sides or on none. -/
theorem Respaced.eq_iff {w : Text} (plain : IsPlainWord w) :
    x = w ↔ y = w := by
  obtain ⟨P, kept, rfl, rfl⟩ := respaced
  constructor
  all_goals
    intro here
    rw [Spacing.eq_ofText_of_text plain kept.separate here, Spacing.text_ofText]

end Text

/-! ### Separations -/

namespace Separation

variable {s : Separation} {t : Tokenizer}

/-- What is kept of the blanks is enough where the words of the separation are joints. -/
theorem keeps_of_joints
    (joint : ∀ w, ' ' :: (w ++ [' ']) ∈ s.separators → Spacing.IsJoint w)
    (tied : ∀ v w, ' ' :: (v ++ [' ']) ∈ s.separators → ' ' :: (w ++ [' ']) ∈ s.separators →
      Spacing.AreTied v w) {P : Spacing} (kept : P.Kept) : s.Keeps P where
  around run x run' word inside := by
    obtain ⟨w, mem, all⟩ := word
    exact kept.around w (joint w mem) run x run' (Form.isWritten_of_agree all) inside
  between x run y word word' inside := by
    obtain ⟨v, mem, all⟩ := word
    obtain ⟨w, mem', all'⟩ := word'
    exact kept.between v w (tied v w mem mem') x run y (Form.isWritten_of_agree all)
      (Form.isWritten_of_agree all') inside

/-- **Respaced texts are divided into respaced tokens.** -/
theorem respaced_tokenizeWithin (layout : t.symbols = s.symbols) (wordy : s.IsWordy)
    (trims : t.trim = true) (keeps : ∀ {P : Spacing}, P.Kept → s.Keeps P) {P : Spacing}
    (kept : P.Kept) (depth : Side → Nat) (deep : ∀ side, P.length < depth side) :
    List.Forall₂ (Token.Pairs Text.Respaced) (t.tokenizeWithin (depth .left) (P.text .left))
      (t.tokenizeWithin (depth .right) (P.text .right)) := by
  induction size : P.length using Nat.strong_induction_on generalizing P depth with
  | h length ih =>
    subst size
    have succ : ∀ side, ∃ d, depth side = d + 1 :=
      fun side => Nat.exists_eq_succ_of_ne_zero (Nat.ne_zero_of_lt (deep side))
    choose d here using succ
    have parted := parted_tokenizeWithin layout wordy trims kept.toLawful (keeps kept) d
    have inside : ∀ Q : Spacing, Q <:+: P → Q.length < P.length → Token.Pairs Text.Respaced
        (.nested (t.tokenizeWithin (d .left) (Q.text .left)))
        (.nested (t.tokenizeWithin (d .right) (Q.text .right))) := by
      intro Q part smaller
      refine .nested (ih Q.length smaller (kept.of_isInfix part) d (fun side => ?_) rfl)
      have bound := deep side
      rw [here side] at bound
      exact Nat.lt_of_lt_of_le smaller (Nat.le_of_lt_succ bound)
    rw [here, here]
    exact parted.forall₂ (R := Token.Pairs Text.Respaced) wordy trims kept.separate
      (fun Q part => .text (respaced_sides (kept.of_isInfix part)))
      (fun _ _ w plain _ => .text (respaced_self plain)) (fun _ => inside)

/-- Respaced texts have respaced tokens. -/
theorem respaced_tokenize (layout : t.symbols = s.symbols) (wordy : s.IsWordy)
    (trims : t.trim = true) (keeps : ∀ {P : Spacing}, P.Kept → s.Keeps P) {x y : Text}
    (respaced : Text.Respaced x y) :
    List.Forall₂ (Token.Pairs Text.Respaced) (t.tokenize x) (t.tokenize y) := by
  obtain ⟨P, kept, rfl, rfl⟩ := respaced
  refine respaced_tokenizeWithin layout wordy trims keeps kept
    (fun side => (P.text side).length + 1) fun side => ?_
  exact Nat.lt_succ_of_le (Spacing.length_le_text kept.separate side)

end Separation

/-! ### Conditions and chains -/

theorem BoolOp.plain_keyword (op : BoolOp) : IsPlainWord op.keyword := by
  cases op <;> decide

theorem MathOp.plain_symbol (op : MathOp) : IsPlainWord [op.symbol] := by
  cases op <;> decide

theorem spaced_inj {v w : Text} (same : ' ' :: (v ++ [' ']) = ' ' :: (w ++ [' '])) : v = w :=
  List.append_cancel_right (List.cons.inj same).2

namespace Connected

theorem isWordy : separation.IsWordy := by
  intro separator mem
  obtain ⟨op, -, rfl⟩ := List.mem_map.1 mem
  exact ⟨op.keyword, by cases op <;> nofun, op.plain_keyword, .inr rfl⟩

theorem exists_connector {w : Text} (mem : ' ' :: (w ++ [' ']) ∈ separation.separators) :
    ∃ op : BoolOp, w = op.keyword := by
  obtain ⟨op, -, same⟩ := List.mem_map.1 mem
  exact ⟨op, (spaced_inj same).symm⟩

/-- **Respaced conditions have respaced tokens.** -/
theorem respaced_tokens {x y : Text} (respaced : Text.Respaced x y) :
    List.Forall₂ (Token.Pairs Text.Respaced) (tokens x) (tokens y) := by
  refine Separation.respaced_tokenize symbols_eq isWordy rfl (Separation.keeps_of_joints ?_ ?_)
    respaced
  · intro w mem
    obtain ⟨op, rfl⟩ := exists_connector mem
    exact .connector op
  · intro v w mem mem'
    obtain ⟨op, rfl⟩ := exists_connector mem
    obtain ⟨op', rfl⟩ := exists_connector mem'
    exact .connectors op op'

end Connected

namespace Chain

theorem isWordy : separation.IsWordy := by
  intro separator mem
  obtain ⟨op, -, rfl⟩ := List.mem_map.1 mem
  exact ⟨[op.symbol], nofun, op.plain_symbol, .inr rfl⟩

theorem exists_sign {w : Text} (mem : ' ' :: (w ++ [' ']) ∈ separation.separators) :
    ∃ op : MathOp, w = [op.symbol] := by
  obtain ⟨op, -, same⟩ := List.mem_map.1 mem
  exact ⟨op, (spaced_inj (v := [op.symbol]) same).symm⟩

theorem keeps {P : Spacing} (kept : P.Kept) : separation.Keeps P := by
  refine Separation.keeps_of_joints ?_ ?_ kept
  · intro w mem
    obtain ⟨op, rfl⟩ := exists_sign mem
    exact .sign op
  · intro v w mem mem'
    obtain ⟨op, rfl⟩ := exists_sign mem
    obtain ⟨op', rfl⟩ := exists_sign mem'
    exact .signs op op'

/-- The two tokens are the sides of a part of the spacing, or the same sign. -/
def ArePieces (P : Spacing) (token token' : Token) : Prop :=
  ∃ Q : Spacing, Q.Kept ∧ (Q <:+: P ∨ ∃ op : MathOp, Q = .ofText [op.symbol])
    ∧ token = .text (Q.text .left) ∧ token' = .text (Q.text .right)

variable {P : Spacing} {x y : Text} {tokens tokens' : List Token}

theorem ArePieces.of_isInfix {P Q : Spacing} {token token' : Token} (part : Q <:+: P)
    (pieces : ArePieces Q token token') : ArePieces P token token' := by
  obtain ⟨R, kept, inside | sign, same⟩ := pieces
  · exact ⟨R, kept, .inl (inside.trans part), same⟩
  · exact ⟨R, kept, .inr sign, same⟩

theorem ArePieces.respaced (pieces : ArePieces P (.text x) (.text y)) : Text.Respaced x y := by
  obtain ⟨Q, kept, -, same, same'⟩ := pieces
  obtain rfl := Token.text.inj same
  obtain rfl := Token.text.inj same'
  exact respaced_sides kept

/-- A piece is the whole text on both sides or on none. -/
theorem ArePieces.eq_iff (kept : P.Kept) (pieces : ArePieces P (.text x) (.text y)) :
    x = P.text .left ↔ y = P.text .right := by
  obtain ⟨Q, -, inside | ⟨op, rfl⟩, same, same'⟩ := pieces
  all_goals
    obtain rfl := Token.text.inj same
    obtain rfl := Token.text.inj same'
  · have whole : ∀ side, Spacing.text side Q = P.text side ↔ Q = P := by
      intro side
      refine ⟨fun same => ?_, fun same => by rw [same]⟩
      obtain ⟨front, back, rfl⟩ := inside
      have lengths := congrArg List.length same
      rw [Spacing.text_append, Spacing.text_append, List.length_append, List.length_append] at lengths
      have nil : ∀ {R : Spacing}, R <:+: front ++ Q ++ back → (R.text side).length = 0 → R = [] :=
        fun part none => (Spacing.text_eq_nil_iff
          (fun cell mem => kept.separate cell (part.subset mem)) side).1 (List.length_eq_zero_iff.1 none)
      rw [nil (R := front) ⟨[], Q ++ back, by simp⟩ (by omega),
        nil (R := back) ⟨front ++ Q, [], by simp⟩ (by omega)]
      simp
    rw [whole, whole]
  · have plain := op.plain_symbol
    have self := (respaced_sides kept).eq_iff plain
    rw [Spacing.text_ofText, Spacing.text_ofText]
    exact ⟨fun same => (self.1 same.symm).symm, fun same => (self.2 same.symm).symm⟩

/-- **A chain is divided into pieces of it and signs.** -/
theorem arePieces_tokenize (kept : P.Kept) :
    List.Forall₂ (ArePieces P) (tokenizer.tokenize (P.text .left))
      (tokenizer.tokenize (P.text .right)) := by
  have parted := Separation.parted_tokenizeWithin symbols_eq isWordy rfl kept.toLawful (keeps kept)
    fun side => (P.text side).length
  refine parted.forall₂ isWordy rfl kept.separate
    (fun Q part => ⟨Q, kept.of_isInfix part, .inl part, rfl, rfl⟩) ?_ nofun
  intro separator mem w plain shape
  obtain ⟨op, -, rfl⟩ := List.mem_map.1 mem
  rcases shape with rfl | same
  · exact absurd (plain ' ' (by simp)).1 (by decide)
  · obtain rfl := spaced_inj (v := [op.symbol]) same
    exact ⟨.ofText [op.symbol], Spacing.kept_ofText plain, .inr ⟨op, rfl⟩, rfl, rfl⟩

/-- So is it once it was unwrapped. -/
theorem arePieces_tokensWithin (kept : P.Kept) (depth : Side → Nat)
    (deep : ∀ side, P.length ≤ depth side) :
    List.Forall₂ (ArePieces P) (tokensWithin tokenizer (depth .left) (P.text .left))
      (tokensWithin tokenizer (depth .right) (P.text .right)) := by
  induction size : P.length using Nat.strong_induction_on generalizing P depth with
  | h length ih =>
    subst size
    by_cases empty : P = []
    · have none : ∀ side, tokensWithin tokenizer (depth side) (P.text side) = [] := by
        intro side
        rw [empty, Spacing.text_nil]
        cases depth side <;> rfl
      rw [none, none]
      exact .nil
    have positive := List.length_pos_iff.2 empty
    have succ : ∀ side, ∃ d, depth side = d + 1 := fun side =>
      Nat.exists_eq_succ_of_ne_zero (Nat.ne_zero_of_lt (Nat.lt_of_lt_of_le positive (deep side)))
    choose d here using succ
    have pieces := arePieces_tokenize kept
    rw [here, here, tokensWithin, tokensWithin]
    generalize tokenizer.tokenize (P.text .left) = tokens at pieces ⊢
    generalize tokenizer.tokenize (P.text .right) = tokens' at pieces ⊢
    rcases pieces with _ | ⟨first, _ | ⟨second, others⟩⟩
    case nil => exact .nil
    case cons.cons =>
      obtain ⟨Q, kept, part, rfl, rfl⟩ := first
      exact .cons ⟨Q, kept, part, rfl, rfl⟩ (.cons second others)
    case cons.nil =>
      obtain ⟨Q, kept, part, rfl, rfl⟩ := first
      have kept' := kept.of_isInfix Q.isInfix_trim
      dsimp only
      rw [Spacing.trim_text_self kept.separate, Spacing.trim_text_self kept.separate]
      rcases Spacing.exists_unwrapped? kept'.toLawful with ⟨inner, whole, found⟩ | missed
      · have trimmed := Q.isInfix_trim.length_le
        rw [whole, List.length_cons, List.length_append, List.length_singleton] at trimmed
        have inside : inner <:+: Q.trim := ⟨[.char '('], [.char ')'], by simp [whole]⟩
        rcases part with part | ⟨op, rfl⟩
        · have short := part.length_le
          have pieces := ih inner.length (by omega) (kept'.of_isInfix inside) d
            (fun side => by
              have bound := deep side
              rw [here side] at bound
              omega) rfl
          rw [found, found]
          exact pieces.imp fun _ _ =>
            ArePieces.of_isInfix (inside.trans (Q.isInfix_trim.trans part))
        · -- a sign is too short to be wrapped
          have one : (Spacing.ofText [op.symbol]).length = 1 := rfl
          omega
      · rw [missed, missed]
        exact .cons ⟨Q, kept, part, rfl, rfl⟩ .nil

/-- **Respaced chains have respaced tokens.** -/
theorem arePieces_tokens (kept : P.Kept) :
    List.Forall₂ (ArePieces P) (Chain.tokens (P.text .left)) (Chain.tokens (P.text .right)) :=
  arePieces_tokensWithin kept (fun side => (P.text side).length)
    (Spacing.length_le_text kept.separate)

end Chain

/-! ### Field lists -/

namespace FieldList

theorem isWordy : separation.IsWordy := by
  intro other mem
  obtain rfl := List.mem_singleton.1 mem
  exact ⟨separator, nofun, by decide, .inl rfl⟩

theorem keeps {P : Spacing} (kept : P.Kept) : separation.Keeps P := by
  have none : ∀ w : Text, ' ' :: (w ++ [' ']) ∉ separation.separators := by
    intro w mem
    cases List.mem_singleton.1 mem
  exact Separation.keeps_of_joints (fun w mem => absurd mem (none w))
    (fun v _ mem => absurd mem (none v)) kept

/-- A relation of texts that are trimmed alike, and that are empty, or commas, together. -/
structure PairsItems (pair : Text → Text → Prop) : Prop where
  trim : ∀ {x y : Text}, pair x y → pair x.trim y.trim
  isEmpty_eq : ∀ {x y : Text}, pair x y → x.isEmpty = y.isEmpty
  separator : ∀ {x y : Text}, pair x y → (x = separator ↔ y = separator)

section Pairs

variable {pair : Text → Text → Prop} (pairs : PairsItems pair) {x y : Text} (holds : pair x y)
include pairs holds

theorem PairsItems.item : List.Forall₂ pair (item [x]) (item [y]) := by
  have trimmed := pairs.trim holds
  rw [FieldList.item, FieldList.item, join_singleton, join_singleton, pairs.isEmpty_eq trimmed]
  split
  · exact .nil
  · exact .cons trimmed .nil

/-- What is read before a separator, or at the end of the list. -/
theorem PairsItems.itemsFrom {rest rest' : List Token}
    (behind : rest = [] ∧ rest' = []
      ∨ ∃ tokens tokens', rest = .text FieldList.separator :: tokens
        ∧ rest' = .text FieldList.separator :: tokens'
        ∧ List.Forall₂ pair (itemsFrom [] tokens) (itemsFrom [] tokens')) :
    List.Forall₂ pair (itemsFrom [] (.text x :: rest)) (itemsFrom [] (.text y :: rest')) := by
  have closed : ∀ parts tokens, FieldList.itemsFrom parts (.text FieldList.separator :: tokens)
      = FieldList.item parts ++ FieldList.itemsFrom [] tokens := fun parts tokens => by
    simp [FieldList.itemsFrom, Token.isText]
  by_cases here : x = FieldList.separator
  · have here' := (pairs.separator holds).1 here
    rw [here, here', closed, closed]
    refine List.rel_append .nil ?_
    rcases behind with ⟨rfl, rfl⟩ | ⟨tokens, tokens', rfl, rfl, items⟩
    · exact .nil
    · rw [closed, closed]
      exact List.rel_append .nil items
  · have here' := mt (pairs.separator holds).2 here
    have kept : ∀ {z : Text} (tokens : List Token), z ≠ FieldList.separator →
        FieldList.itemsFrom [] (.text z :: tokens) = FieldList.itemsFrom [z] tokens := by
      intro z tokens other
      simp [FieldList.itemsFrom, Token.isText, other, Token.print]
    rw [kept rest here, kept rest' here']
    rcases behind with ⟨rfl, rfl⟩ | ⟨tokens, tokens', rfl, rfl, items⟩
    · exact pairs.item holds
    · rw [closed, closed]
      exact List.rel_append (pairs.item holds) items

end Pairs

theorem pairsItems_respaced : PairsItems Text.Respaced where
  trim := Text.Respaced.trim
  isEmpty_eq := Text.Respaced.isEmpty_eq
  separator respaced := respaced.eq_iff (by decide)

/-- **Respaced lists have respaced items.** -/
theorem respaced_items {x y : Text} (respaced : Text.Respaced x y) :
    List.Forall₂ Text.Respaced (items x) (items y) := by
  obtain ⟨P, kept, rfl, rfl⟩ := respaced
  have parted := Separation.parted_tokenizeWithin symbols_eq isWordy rfl kept.toLawful (keeps kept)
    fun side => (P.text side).length
  have flat : ∀ {Q : Spacing}, Q <:+: P → (∀ side, tokenizer.flat (Q.text side) = [])
      ∨ ∀ side, tokenizer.flat (Q.text side) = [.text (Q.trim.text side)] := fun part =>
    Separation.exists_flat rfl fun cell mem => kept.separate cell (part.subset mem)
  have read : ∀ {tokens : Side → List Token},
      separation.Parted tokenizer (fun side => tokenizer.tokenizeWithin (P.text side).length) P
        tokens →
      List.Forall₂ Text.Respaced (itemsFrom [] (tokens .left)) (itemsFrom [] (tokens .right)) := by
    intro tokens parted
    induction parted with
    | @last Q part =>
      dsimp only
      rcases flat part with none | one
      · rw [none, none]
        exact .nil
      · rw [one, one]
        exact pairsItems_respaced.itemsFrom (respaced_sides (kept.of_isInfix (Q.isInfix_trim.trans part)))
          (.inl ⟨rfl, rfl⟩)
    | @separated Q other tokens part mem _ ih =>
      obtain rfl := List.mem_singleton.1 mem
      have comma : tokenizer.flat separator = [.text separator] := rfl
      dsimp only
      rw [comma]
      rcases flat part with none | one
      · rw [none, none]
        exact ih
      · rw [one, one]
        exact pairsItems_respaced.itemsFrom (respaced_sides (kept.of_isInfix (Q.isInfix_trim.trans part)))
          (.inr ⟨_, _, rfl, rfl, ih⟩)
    | grouped _ groups _ _ _ _ => cases groups
  exact read parted

end FieldList

/-! ### Bodies of case distinctions -/

namespace CaseBody

theorem plain_of_mem_keywords {w : Text} (mem : w ∈ keywords) :
    w ≠ [] ∧ IsPlainWord w := by
  have checked : ∀ w ∈ keywords, w ≠ [] ∧ IsPlainWord w := by decide
  exact checked w mem

theorem isWordy : separation.IsWordy := by
  intro separator mem
  obtain ⟨w, member, rfl⟩ := List.mem_map.1 mem
  obtain ⟨nonempty, plain⟩ := plain_of_mem_keywords member
  exact ⟨w, nonempty, plain, .inr rfl⟩

theorem mem_keywords_of_isWord {x : Text} (word : separation.IsWord x) :
    ∃ w ∈ keywords, IsWritten w x := by
  obtain ⟨w, mem, all⟩ := word
  obtain ⟨w', member, same⟩ := List.mem_map.1 mem
  obtain rfl := spaced_inj same
  exact ⟨w', member, Form.isWritten_of_agree all⟩

/-- There are spaces at the ends of all gaps. -/
def IsFlat (P : Spacing) : Prop :=
  ∀ run, Cell.gap run ∈ P → ∀ side, (run side).head? = some ' ' ∧ (run side).getLast? = some ' '

variable {P : Spacing}

theorem keeps (kept : P.Kept) (flat : IsFlat P) : separation.Keeps P where
  around run x run' _ inside := by
    have first := flat run (inside.subset (List.mem_cons_self ..))
    have last := flat run' (inside.subset (by simp))
    simp [Opens, (first _).2, (last _).1]
  between x run y word word' inside := by
    obtain ⟨v, mem, written⟩ := mem_keywords_of_isWord word
    obtain ⟨w, mem', written'⟩ := mem_keywords_of_isWord word'
    exact kept.between v w (.keywords mem mem') x run y written written' inside

/-- **Bodies that are made of the same cells have respaced tokens**, if blanks that follow them on
one side only follow no keyword. -/
theorem respaced_texts (kept : P.Kept) (flat : IsFlat P) {tail : Side → Text} (slack : IsSlack tail)
    (ends : separation.Ends tail P) :
    List.Forall₂ Text.Respaced
      ((tokenizer.tokenize (' ' :: (P.text .left ++ tail .left))).map Token.print)
      ((tokenizer.tokenize (' ' :: (P.text .right ++ tail .right))).map Token.print) := by
  let inner (side : Side) : Text → List Token :=
    tokenizer.tokenizeWithin (' ' :: (P.text side ++ tail side)).length
  have starts : separation.Starts (fun _ => [' ']) P := by
    rintro x run rest _ rfl
    have start := flat run (by simp)
    simp [Separation.Opens, (start _).1]
  have parted : separation.Parted tokenizer inner P
      (Separation.runBetween tokenizer inner (fun _ => [' ']) tail [] P) :=
    Separation.parted_run (Q := []) symbols_eq isWordy rfl kept.toLawful (keeps kept flat) starts
      isSlack_space slack (fun groups => absurd groups (by decide)) ends
  have tokens := parted.forall₂ (R := fun token token' =>
      ∃ x y, token = .text x ∧ token' = .text y ∧ Text.Respaced x y) isWordy rfl kept.separate
    (fun Q part => ⟨_, _, rfl, rfl, respaced_sides (kept.of_isInfix part)⟩)
    (fun _ _ w plain _ => ⟨w, w, rfl, rfl, respaced_self plain⟩)
    fun groups => absurd groups (by decide)
  have opened : ∀ side, tokenizer.tokenize (' ' :: (P.text side ++ tail side))
      = Separation.runBetween tokenizer inner (fun _ => [' ']) tail [] P side := by
    intro side
    have passed : tokenizer.Passes (inner side) [] [' '] (P.text side ++ tail side) :=
      Separation.passes_blanks symbols_eq isWordy (by simp) (isSlack_space side) _
    exact passed
  rw [opened, opened, List.forall₂_map_left_iff, List.forall₂_map_right_iff]
  refine tokens.imp ?_
  rintro _ _ ⟨x, y, rfl, rfl, respaced⟩
  exact respaced

theorem isFlat_flatten (kept : P.Kept) : IsFlat P.flatten :=
  fun run mem => Spacing.ends_of_flatten kept.separate run mem

/-- Blanks that are left of the gap before `END` on one side only follow no keyword. -/
theorem ends_flatten {body : Spacing} {run : Side → Text} {e : Text} (kept : P.Kept)
    (written : IsWritten endKeyword e) (inside : body ++ .gap run :: Spacing.ofText e <:+: P)
    {single : Side} (short : (run single).length ≤ 1) :
    separation.Ends (fun side => List.replicate (run side).dropLast.length ' ') body.flatten := by
  by_cases keyword : ∃ front x, separation.IsWord x ∧ body.flatten = front ++ Spacing.ofText x
  · obtain ⟨front, x, word, whole⟩ := keyword
    obtain ⟨w, mem, written'⟩ := mem_keywords_of_isWord word
    obtain ⟨front, back, rfl, -, flattened⟩ := List.map_eq_append_iff.1 whole
    obtain ⟨rest, rfl, empty⟩ := Spacing.eq_ofText_of_flatten (P := back) []
      (flattened.trans (List.append_nil _).symm)
    obtain rfl := List.map_eq_nil_iff.1 empty
    have part : Spacing.ofText x ++ .gap run :: Spacing.ofText e <:+: P :=
      List.IsInfix.trans ⟨front, [], by simp⟩ inside
    have isRun : IsRun run := kept.separate (.gap run) (inside.subset (by simp))
    have between := kept.between w endKeyword (.ending mem) x run e written' written part
    rcases isRun.single_or_longer between with one | long
    · refine .inl fun side => List.replicate_eq_nil_iff ' ' |>.2 ?_
      rw [List.length_dropLast, one]
    · exact absurd (long single) (Nat.not_lt.2 short)
  · refine .inr ?_
    rintro front x word whole
    exact keyword ⟨front, x, word, whole⟩

/-- **Respaced case distinctions have respaced tokens in their bodies.** -/
theorem respaced_tokens {body : Spacing} {tail : Side → Text} (kept : P.Kept) (part : body <:+: P)
    (remainder : Form.IsRemainder P body tail) :
    List.Forall₂ Text.Respaced ((tokens (body.text .left ++ tail .left)).map Token.print)
      ((tokens (body.text .right ++ tail .right)).map Token.print) := by
  have kept' := kept.of_isInfix part
  have spaces : ∀ n : Side → Nat, IsSlack fun side => List.replicate (n side) ' ' := by
    intro n side c mem
    rw [List.eq_of_mem_replicate mem]
    rfl
  have flattened : ∀ side {blanks : Text}, (∀ c ∈ blanks, isBlank c = true) →
      tokens (body.text side ++ blanks) = tokenizer.tokenize
        (' ' :: (body.flatten.text side ++ List.replicate blanks.length ' ')) := by
    intro side blanks blank
    rw [tokens, Spacing.flattenBlanks_text kept'.separate kept'.closed side blank]
  rcases remainder with ⟨rfl, rfl⟩ | ⟨run, e, written, inside, rfl⟩
  · rw [flattened .left (List.forall_mem_nil _), flattened .right (List.forall_mem_nil _)]
    exact respaced_texts kept'.flatten (isFlat_flatten kept') (spaces fun _ => 0)
      (.inl fun _ => rfl)
  have inside' : body ++ [.gap run] <:+: P :=
    List.IsInfix.trans ⟨[], Spacing.ofText e, by simp⟩ inside
  have isRun : IsRun run := kept.separate (.gap run) (inside'.subset (by simp))
  have blank : ∀ side, ∀ c ∈ (run side).dropLast, isBlank c = true :=
    fun side c mem => isRun.blank side c ((List.dropLast_subset _) mem)
  rw [flattened .left (blank .left), flattened .right (blank .right)]
  by_cases both : ∀ side, 0 < (run side).dropLast.length
  · -- the gap before `END` is one of the body, less a blank
    have isRun' := Spacing.isRun_replicate both
    have kept'' : Spacing.Kept (body.flatten
        ++ [.gap fun side => List.replicate (run side).dropLast.length ' ']) := by
      have whole := (kept.of_isInfix inside').flatten
      have split : Spacing.flatten (body ++ [.gap run]) = body.flatten
          ++ [.gap fun side => List.replicate (run side).length ' '] := List.map_append
      rw [split] at whole
      refine whole.concat_gap isRun' fun side => ?_
      rw [List.head?_replicate, List.head?_replicate, if_neg (Nat.ne_of_gt (both side)),
        if_neg (Nat.ne_of_gt (List.length_pos_iff.2 (isRun.nonempty side)))]
    have flat : IsFlat (body.flatten
        ++ [.gap fun side => List.replicate (run side).dropLast.length ' ']) := by
      intro run' mem side
      rcases List.mem_append.1 mem with front | last
      · exact isFlat_flatten kept' run' front side
      · obtain rfl := Cell.gap.inj (List.mem_singleton.1 last)
        rw [List.head?_replicate, List.getLast?_replicate, if_neg (Nat.ne_of_gt (both side))]
        exact ⟨rfl, rfl⟩
    have texts := respaced_texts kept'' flat isSlack_nil (.inl fun _ => rfl)
    simpa [Cell.text] using texts
  · obtain ⟨single, none⟩ := not_forall.1 both
    have short : (run single).length ≤ 1 := by
      rw [List.length_dropLast] at none
      omega
    exact respaced_texts kept'.flatten (isFlat_flatten kept') (spaces _)
      (ends_flatten kept written inside short)

end CaseBody

end RecordMapper
