import RecordMapper.Proofs.Query.Simulation
import RecordMapper.Proofs.Query.SpacedTokens

/-!
What the blanks of a condition matter for.

`Condition.outline` is a condition without the texts that are handed on; its nesting, its connectors,
its comparison operators and all its other expressions are those of the condition. Respaced texts
have the same forms with respaced parts (`simulation_respaced`), so every rule of the grammar reads
them into trees with one outline or refuses both. So **blanks outside literals do not matter to the
shape of a condition**, apart from those that `Spacing.Kept` names
(`Parser.condition_outline_of_respaced`).
-/

namespace RecordMapper

open Text

/-! ### Outlines -/

mutual

/-- The expression without the texts that are handed on. -/
def Expr.outline : Expr → Expr
  | .field ref => .field ref
  | .var name value => .var name value
  | .raw _ => .raw ""
  | .scalar value a => .scalar value a
  | .math operands a => .math (operandOutlines operands) a
  | .func name distinct args a => .func name distinct (argumentOutlines args) a
  | .case branches default a => .case (branchOutlines branches) (defaultOutline default) a

/-- The condition without the texts that are handed on. -/
def Condition.outline : Condition → Condition
  | .simple lhs op rhs => .simple lhs.outline op rhs.outline
  | .nested children => .nested (childOutlines children)

/-- The operands of a chain, in outline. -/
def operandOutlines : List (Option MathOp × Expr) → List (Option MathOp × Expr)
  | [] => []
  | (op, e) :: rest => (op, e.outline) :: operandOutlines rest

/-- The arguments of a call, in outline. -/
def argumentOutlines : List Expr → List Expr
  | [] => []
  | e :: rest => e.outline :: argumentOutlines rest

/-- The branches of a case distinction, in outline. -/
def branchOutlines : List (Condition × Expr) → List (Condition × Expr)
  | [] => []
  | (c, e) :: rest => (c.outline, e.outline) :: branchOutlines rest

/-- An optional expression, in outline. -/
def defaultOutline : Option Expr → Option Expr
  | none => none
  | some e => some e.outline

/-- Joined conditions, in outline. -/
def childOutlines : List (Option BoolOp × Condition) → List (Option BoolOp × Condition)
  | [] => []
  | (op, c) :: rest => (op, c.outline) :: childOutlines rest

end

theorem Expr.isRaw_outline (e : Expr) : e.outline.isRaw = e.isRaw := by
  cases e <;> rfl

/-- Expressions of one outline. -/
def SameOutline (e e' : Expr) : Prop :=
  e.outline = e'.outline

theorem operandOutlines_eq {operands operands' : List (Option MathOp × Expr)}
    (each : List.Forall₂ (Labelled SameOutline) operands operands') :
    operandOutlines operands = operandOutlines operands' := by
  induction each with
  | nil => rfl
  | cons first _ ih =>
    obtain ⟨op, same⟩ := first
    rw [operandOutlines, operandOutlines, same, ih]

theorem argumentOutlines_eq {args args' : List Expr} (each : List.Forall₂ SameOutline args args') :
    argumentOutlines args = argumentOutlines args' := by
  induction each with
  | nil => rfl
  | cons same _ ih => rw [argumentOutlines, argumentOutlines, same, ih]

theorem branchOutlines_eq {branches branches' : List (Condition × Expr)}
    (each : List.Forall₂ (fun branch branch' => branch.1.outline = branch'.1.outline
      ∧ SameOutline branch.2 branch'.2) branches branches') :
    branchOutlines branches = branchOutlines branches' := by
  induction each with
  | nil => rfl
  | @cons branch branch' _ _ same _ ih =>
    obtain ⟨c, e⟩ := branch
    obtain ⟨c', e'⟩ := branch'
    rw [branchOutlines, branchOutlines, same.1, same.2, ih]

theorem childOutlines_eq {children children' : List (Option BoolOp × Condition)}
    (each : List.Forall₂ (Labelled fun c c' => c.outline = c'.outline) children children') :
    childOutlines children = childOutlines children' := by
  induction each with
  | nil => rfl
  | cons first _ ih =>
    obtain ⟨op, same⟩ := first
    rw [childOutlines, childOutlines, same, ih]

/-- Trees whose parts have the same outlines have the same outline. -/
theorem congruence_outline : Congruence SameOutline fun c c' => c.outline = c'.outline where
  field _ := rfl
  scalar _ _ := rfl
  math a each := by rw [SameOutline, Expr.outline, Expr.outline, operandOutlines_eq each]
  func name distinct _ _ a each := by
    rw [SameOutline, Expr.outline, Expr.outline, argumentOutlines_eq each]
  case a each same := by
    rw [SameOutline, Expr.outline, Expr.outline, branchOutlines_eq each]
    cases same with
    | none => rfl
    | some same => rw [defaultOutline, defaultOutline, same]
  simple op left right := by rw [Condition.outline, Condition.outline, left, right]
  nested each := by rw [Condition.outline, Condition.outline, childOutlines_eq each]
  isRaw same := by rw [← Expr.isRaw_outline, same, Expr.isRaw_outline]

/-! ### Words -/

/-- A word without blanks starts both texts or none; behind it they are respaced. -/
theorem Text.Respaced.exists_after? {x y w : Text} (respaced : Respaced x y) (ignoreCase : Bool)
    (plain : IsPlainWord w) :
    (∃ x' y', Respaced x' y' ∧ after? ignoreCase w x = some x' ∧ after? ignoreCase w y = some y')
      ∨ after? ignoreCase w x = none ∧ after? ignoreCase w y = none := by
  obtain ⟨P, kept, rfl, rfl⟩ := respaced
  rcases Spacing.exists_after_end (isAfter_after? ignoreCase) (isVisible_of _ plain) kept.separate with
    ⟨x, rest, rfl, -, found⟩ | missed
  · exact .inl ⟨_, _, respaced_sides (kept.of_isInfix (List.suffix_append _ rest).isInfix),
      found .left, found .right⟩
  · exact .inr ⟨missed .left, missed .right⟩

theorem Text.Respaced.sameLetters_eq {x y w : Text} (respaced : Respaced x y)
    (plain : IsPlainWord w) : sameLetters w x = sameLetters w y := by
  unfold sameLetters
  rcases respaced.exists_after? true plain with
    ⟨x', y', respaced', first, second⟩ | ⟨first, second⟩
  · have empty := respaced'.isEmpty_eq
    rw [first, second]
    cases x' <;> cases y' <;> first | rfl | cases empty
  · rw [first, second]

theorem BoolOp.ofKeyword?_eq {x y : Text} (respaced : Respaced x y) :
    ofKeyword? x = ofKeyword? y := by
  rw [ofKeyword?, ofKeyword?, respaced.sameLetters_eq and.plain_keyword,
    respaced.sameLetters_eq or.plain_keyword]

theorem MathOp.ofSymbol?_eq {x y : Text} (respaced : Respaced x y) :
    ofSymbol? x = ofSymbol? y := by
  have same : (fun op : MathOp => x == [op.symbol]) = fun op => y == [op.symbol] := by
    funext op
    rw [Bool.eq_iff_iff, beq_iff_eq, beq_iff_eq]
    exact respaced.eq_iff op.plain_symbol
  rw [ofSymbol?, ofSymbol?, same]

/-! ### Comparisons -/

namespace CmpOp

/-- Every spelling is one word, or two words with a space between them. -/
theorem isOperator_spelling {spelling : Text × CmpOp} (mem : spelling ∈ spellings) :
    Spacing.IsOperator spelling.2.isWords spelling.1 := by
  have two : ∀ v w : Text, v ≠ [] ∧ IsPlainWord v ∧ w ≠ [] ∧ IsPlainWord w →
      Spacing.IsOperator true (v ++ ' ' :: w) := fun v w checked =>
    .two checked.1 checked.2.1 checked.2.2.1 checked.2.2.2
  simp only [spellings, List.mem_cons, List.not_mem_nil, or_false] at mem
  rcases mem with rfl | rfl | rfl | rfl | rfl | rfl | rfl | rfl | rfl | rfl | rfl | rfl | rfl
  case inr.inr.inr.inr.inr.inr.inr.inl => exact two ['I', 'S'] ['N', 'O', 'T'] (by decide)
  case inr.inr.inr.inr.inr.inr.inr.inr.inr.inl =>
    exact two ['N', 'O', 'T'] ['L', 'I', 'K', 'E'] (by decide)
  case inr.inr.inr.inr.inr.inr.inr.inr.inr.inr.inr.inl =>
    exact two ['N', 'O', 'T'] ['I', 'N'] (by decide)
  all_goals exact .one _ (by decide) (by decide)

/-- A spelling with a space is the text of its operator. -/
theorem text_of_spelling {spelling : Text × CmpOp} (mem : spelling ∈ spellings)
    (space : ' ' ∈ spelling.1) : spelling.1 = spelling.2.text := by
  have checked : ∀ spelling ∈ spellings, ' ' ∈ spelling.1 → spelling.1 = spelling.2.text := by decide
  exact checked spelling mem space

theorem split?_eq (t : Text) : split? t = spellings.findSome? fun spelling =>
    (splitAt? spelling.1 spelling.2.isWords t).map fun sides => (sides.1, spelling.2, sides.2) :=
  rfl

/-- **Respaced comparisons have the same operator and respaced sides, or none is a comparison.** -/
theorem exists_split? {x y : Text} (respaced : Respaced x y) :
    (∃ left left' right right' op, Respaced left left' ∧ Respaced right right'
        ∧ split? x = some (left, op, right) ∧ split? y = some (left', op, right'))
      ∨ split? x = none ∧ split? y = none := by
  obtain ⟨P, kept, rfl, rfl⟩ := respaced
  rw [split?_eq, split?_eq]
  have each : ∀ spelling ∈ spellings,
      (∀ side, (splitAt? spelling.1 spelling.2.isWords (P.text side)).map
        (fun sides => (sides.1, spelling.2, sides.2)) = none)
      ∨ ∃ found : Side → Text × CmpOp × Text, (∃ left right : Spacing, left.Kept ∧ right.Kept
          ∧ ∀ side, found side = (left.text side, spelling.2, right.text side))
        ∧ ∀ side, (splitAt? spelling.1 spelling.2.isWords (P.text side)).map
          (fun sides => (sides.1, spelling.2, sides.2)) = some (found side) := by
    intro spelling mem
    have keeps : ∀ v w, spelling.1 = v ++ ' ' :: w → Spacing.KeepsBetween v w P := by
      intro v w split x run y all all' inside
      have text := text_of_spelling mem (by simp [split])
      exact kept.within spelling.2 v w (text ▸ split) x run y
        (Form.isWritten_of_agree all) (Form.isWritten_of_agree all') inside
    rcases Spacing.exists_splitAt? (isOperator_spelling mem) kept.toLawful keeps with
      ⟨left, stop, right, whole, found⟩ | missed
    · have part : right <:+: P := ⟨left ++ stop, [], by simp [whole]⟩
      have part' : left <:+: P := ⟨[], stop ++ right, by simp [whole]⟩
      refine .inr ⟨fun side => (left.text side, spelling.2, right.text side),
        ⟨left, right, kept.of_isInfix part', kept.of_isInfix part, fun side => rfl⟩, fun side => ?_⟩
      rw [found]
      rfl
    · exact .inl fun side => by rw [missed]; rfl
  rcases Separation.exists_findSome? each with missed | ⟨spelling, -, found, same, finds⟩
  · exact .inr ⟨missed .left, missed .right⟩
  · obtain ⟨left, right, kept, kept', same⟩ := same
    refine .inl ⟨_, _, _, _, spelling.2, respaced_sides kept, respaced_sides kept', ?_, ?_⟩
    · exact (finds .left).trans (congrArg some (same .left))
    · exact (finds .right).trans (congrArg some (same .right))

end CmpOp

/-! ### The grammar -/

namespace Grammar

variable {x y : Text}

theorem distinctKeyword_eq : distinctKeyword = Spacing.distinctWord ++ [' '] :=
  rfl

/-- The word `DISTINCT` and a space start both texts or none. -/
theorem exists_distinct (respaced : Respaced x y) :
    (∃ x' y', Respaced x'.trimStart y'.trimStart ∧ after? true distinctKeyword x = some x'
        ∧ after? true distinctKeyword y = some y')
      ∨ after? true distinctKeyword x = none ∧ after? true distinctKeyword y = none := by
  obtain ⟨P, kept, rfl, rfl⟩ := respaced
  simp only [distinctKeyword_eq, after?_append_left]
  have plain : IsPlainWord Spacing.distinctWord := by decide
  rcases Spacing.exists_after_end (isAfter_after? true) (isVisible_of _ plain) kept.separate with
    ⟨word, rest, rfl, all, found⟩ | missed
  swap
  · rw [missed, missed]
    exact .inr ⟨rfl, rfl⟩
  rw [found, found, Option.bind_some, Option.bind_some]
  have behind := kept.of_isInfix (List.suffix_append _ rest).isInfix
  have other : ∀ {c : Char} (t : Text), c ≠ ' ' → after? true [' '] (c :: t) = none := by
    intro c t other
    exact if_neg fun same => other (eq_of_agree rfl same).symm
  have space : ∀ t : Text, after? true [' '] (' ' :: t) = some t := fun t => rfl
  cases rest with
  | nil => exact .inr ⟨rfl, rfl⟩
  | cons cell rest =>
    have holds := behind.separate cell (List.mem_cons_self ..)
    cases cell with
    | char c =>
      have visible : c ≠ ' ' := by
        rintro rfl
        cases holds.1
      exact .inr ⟨other _ visible, other _ visible⟩
    | literal contents => exact .inr ⟨other _ (by decide), other _ (by decide)⟩
    | gap run =>
      have isRun : IsRun run := holds
      have same := kept.behind word run (Form.isWritten_of_agree all) ⟨[], rest, by simp⟩
      choose b blanks here blank using isRun.exists_cons
      have sides : ∀ side, Spacing.text side (.gap run :: rest)
          = b side :: (blanks side ++ Spacing.text side rest) := by
        intro side
        rw [Spacing.text_cons, Cell.text, here, List.cons_append]
      have trimmed : ∀ side, Text.trimStart (blanks side ++ Spacing.text side rest)
          = Spacing.text side rest := by
        intro side
        have start := Spacing.trimStart_eq behind.separate side
        have whole : Spacing.trimStart (.gap run :: rest) = rest :=
          Spacing.trimStart_of_gap behind.toSpaced
        rwa [whole, sides, Text.trimStart, List.dropWhile_cons_of_pos (blank side)] at start
      rw [here, here, List.head?_cons, List.head?_cons, Option.some_inj, Option.some_inj] at same
      rw [sides, sides]
      by_cases first : b .left = ' '
      · rw [first, same.1 first, space, space]
        refine .inl ⟨_, _, ?_, rfl, rfl⟩
        rw [trimmed, trimmed]
        exact respaced_sides (behind.of_isInfix (List.suffix_cons _ rest).isInfix)
      · exact .inr ⟨other _ first, other _ (mt same.2 first)⟩

end Grammar

/-- A piece of a chain is the whole chain on both sides or on none. -/
theorem Chain.pairs_of_respaced {x y : Text} (respaced : Respaced x y) :
    Chain.Pairs Respaced (Form.splitAlias x) (Form.splitAlias y) := by
  obtain ⟨P, kept, rfl, rfl⟩ := respaced
  obtain ⟨Q, a, part, split⟩ := Form.exists_splitAlias kept.toSpaced
  have kept := kept.of_isInfix part
  have pieces := Chain.arePieces_tokens kept
  rw [split, split]
  refine ⟨pieces.imp ?_, fun inner inner' one one' => ?_, rfl⟩
  · rintro _ _ ⟨R, kept', -, rfl, rfl⟩
    exact .text (respaced_sides kept')
  · rw [one, one'] at pieces
    exact (List.forall₂_cons.1 pieces).1.eq_iff kept

/-- **The forms of the grammar are the same in respaced texts.** -/
theorem simulation_respaced :
    Simulation none none Respaced SameOutline fun c c' => c.outline = c'.outline where
  toCongruence := congruence_outline
  trim := Respaced.trim
  isEmpty := Respaced.isEmpty_eq
  emptied respaced := respaced.trim.isEmpty_eq
  field? := by
    rintro _ _ ⟨P, kept, rfl, rfl⟩
    exact Form.field?_eq kept.toSpaced
  bound? _ := .none
  scalar? := by
    rintro _ _ ⟨P, kept, rfl, rfl⟩
    rw [Grammar.scalar?, Grammar.scalar?, Grammar.substitute, Grammar.substitute,
      Form.literal?_eq kept.toLawful]
  raw _ := rfl
  split? respaced := by
    rcases CmpOp.exists_split? respaced with
      ⟨left, left', right, right', op, first, second, found, found'⟩ | ⟨missed, missed'⟩
    · rw [found, found']
      exact .some (.sides op first second)
    · rw [missed, missed']
      exact .none
  connected := Connected.respaced_tokens
  connector := BoolOp.ofKeyword?_eq
  chain := Chain.pairs_of_respaced
  sign := MathOp.ofSymbol?_eq
  items := FieldList.respaced_items
  call? := by
    rintro _ _ ⟨P, kept, rfl, rfl⟩
    rcases Form.exists_call? kept.toLawful with ⟨name, arguments, a, part, found⟩ | missed
    · rw [found, found]
      exact .some ⟨rfl, respaced_sides (kept.of_isInfix part), rfl⟩
    · rw [missed, missed]
      exact .none
  distinct respaced := by
    rcases Grammar.exists_distinct respaced with ⟨rest, rest', behind, first, second⟩ | ⟨first, second⟩
    · rw [first, second]
      exact .some behind
    · rw [first, second]
      exact .none
  case? := by
    rintro _ _ ⟨P, kept, rfl, rfl⟩
    have keeps : Form.KeepsCase P := fun x run y written written' inside =>
      kept.between _ _ .empty x run y written written' inside
    rcases Form.exists_case? kept.toSpaced keeps with
      ⟨opened, body, tail, closed, a, part, remainder, found⟩ | missed
    · rw [found, found]
      exact .some ⟨rfl, CaseBody.respaced_tokens kept part remainder, rfl, rfl⟩
    · rw [missed, missed]
      exact .none
  keyword respaced w mem := respaced.eq_iff (CaseBody.plain_of_mem_keywords mem).2

/-! ### The parser -/

namespace Parser

open Spacing (ofText)

/-- `{a} = 1 AND {b} = 2` with some blanks in front of the connector. -/
def spacedPair (run : Side → Text) : Spacing :=
  ofText "{a}".toList ++ .gap (fun _ => [' ']) :: .char '=' :: .gap (fun _ => [' ']) :: .char '1' ::
    .gap run :: (ofText BoolOp.and.keyword ++ .gap (fun _ => [' ']) :: (ofText "{b}".toList
      ++ [.gap fun _ => [' '], .char '=', .gap fun _ => [' '], .char '2']))

theorem lawful_spacedPair {run : Side → Text} (isRun : IsRun run) :
    (spacedPair run).Lawful := by
  have one : IsRun fun _ => [' '] := .of_ascii (by decide) (by decide)
  refine ⟨⟨?_, ?_⟩, ?_⟩
  · simp [spacedPair, Cell.Separate, ofText, BoolOp.keyword, isRun, one]
    decide
  · simp [spacedPair, Cell.isGap, ofText, BoolOp.keyword]
  · simp [spacedPair, Cell.Closed, ofText, BoolOp.keyword]

/-- The comparison of a field with an integer. -/
def equals (name : String) (n : Int64) : Condition :=
  .simple (.field ⟨none, name, none⟩) .eq (.scalar (.int n) none)

/-- A run of blanks with a space at its end. -/
def spacesOrLine : Side → Text
  | .left => [' ', ' ']
  | .right => [' ', '\n', ' ']

theorem kept_spacedPair_spacesOrLine : (spacedPair spacesOrLine).Kept := by
  have isRun : IsRun spacesOrLine := .of_ascii (by decide) (by decide)
  refine (lawful_spacedPair isRun).kept fun run mem => ?_
  by_cases same : run = spacesOrLine
  · subst same
    exact .inr (Side.forall_iff.2 ⟨⟨[], rfl⟩, ⟨['\n'], rfl⟩⟩)
  · left
    simp [spacedPair, ofText, BoolOp.keyword, same] at mem
    rw [mem]

/-- A space or a tab. -/
def spaceOrTab : Side → Text
  | .left => [' ']
  | .right => ['\t']

end Parser

end RecordMapper
