import RecordMapper.Proofs.Token.Mentions

/-!
How deep a tokenizer goes.

A run asks `inner` for nothing but texts that are shorter than what lies ahead
(`Separation.run_congr`). So the depth that is given to the nesting does not matter, once there is
more of it than the text has characters (`Separation.tokenizeWithin_eq`), and the tokens of two texts
can be compared at one depth, level by level (`Token.Pairs`).
-/

namespace RecordMapper

/-- Tokens that nest alike and whose texts are paired. -/
inductive Token.Pairs (pair : Text → Text → Prop) : Token → Token → Prop
  | text {x y : Text} (holds : pair x y) : Pairs pair (.text x) (.text y)
  | nested {tokens tokens' : List Token} (each : List.Forall₂ (Pairs pair) tokens tokens') :
    Pairs pair (.nested tokens) (.nested tokens')

namespace Separation

variable {s : Separation} {t : Tokenizer} (layout : t.symbols = s.symbols)
include layout

/-- **A run depends on the tokens of shorter texts only.** -/
theorem run_congr {inner inner' : Text → List Token} {ahead : Text}
    (same : ∀ contents : Text, contents.length < ahead.length → inner contents = inner' contents)
    (seen : Text) : t.run inner seen .read ahead = t.run inner' seen .read ahead := by
  induction size : ahead.length using Nat.strong_induction_on generalizing seen ahead with
  | h length ih =>
    subst size
    cases ahead with
    | nil => rw [Tokenizer.run, Tokenizer.run]
    | cons c rest =>
      have behind : ∀ {later : Text} (seen : Text), later.length ≤ rest.length →
          t.run inner seen .read later = t.run inner' seen .read later := by
        intro later seen le
        have shorter : later.length < (c :: rest).length := Nat.lt_succ_of_le le
        exact ih later.length shorter
          (fun contents less => same contents (Nat.lt_trans less shorter)) seen rfl
      rw [Tokenizer.run_read_cons, Tokenizer.run_read_cons]
      cases found : t.firstMatch? (c :: seen) rest with
      | none => exact behind _ (Nat.le_refl _)
      | some m =>
        cases step_of_firstMatch? layout found with
        | @drawn x later split _ =>
          subst split
          simp only [Tokenizer.run_draw]
          exact behind _ (List.length_append ▸ Nat.le_add_left _ _)
        | @grouped contents later _ _ split _ =>
          subst split
          have within : inner contents = inner' contents := by
            refine same contents ?_
            simp only [List.length_cons, List.length_append]
            omega
          have shorter : later.length ≤ (contents ++ ')' :: later).length := by
            simp only [List.length_cons, List.length_append]
            omega
          simp only [List.flatMap_cons, List.flatMap_nil, Tokenizer.ofPiece,
            Tokenizer.run_drop_closed, within]
          rw [behind [] shorter]
        | separated _ _ _ =>
          simp only [List.flatMap_cons, List.flatMap_nil, Tokenizer.ofPiece,
            Tokenizer.run_drop_zero]
          rw [behind [] (Nat.le_refl _)]

/-- **More depth than the text has characters makes no difference.** -/
theorem tokenizeWithin_eq {text : Text} {depth depth' : Nat} (enough : text.length < depth)
    (enough' : text.length < depth') :
    t.tokenizeWithin depth text = t.tokenizeWithin depth' text := by
  induction depth generalizing text depth' with
  | zero => cases enough
  | succ depth ih =>
    obtain ⟨depth', rfl⟩ := Nat.exists_eq_succ_of_ne_zero (Nat.ne_zero_of_lt enough')
    exact run_congr layout (fun contents less => ih (by omega) (by omega)) []

end Separation

end RecordMapper
