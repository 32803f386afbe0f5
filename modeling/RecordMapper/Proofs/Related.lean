import Mathlib.Data.Option.Defs
import Mathlib.Data.List.Forall2
import RecordMapper.Error

/-!
Computations that are run twice.

Two findings are related if nothing was found, or things that are (`Option.Rel`); two results are
`AlikeBy` if both are errors, or values that are related. What goes on from related values in the same
way gives related values again, so two runs are compared one step after the other.
-/

namespace RecordMapper

/-! ### Findings -/

variable {α β γ δ : Type}

/-- What goes on with related findings finds related things. -/
theorem rel_bind {r : α → β → Prop} {r' : γ → δ → Prop} {found : Option α}
    {found' : Option β} (rel : Option.Rel r found found') {next : α → Option γ}
    {next' : β → Option δ} (goesOn : ∀ a b, r a b → Option.Rel r' (next a) (next' b)) :
    Option.Rel r' (found.bind next) (found'.bind next') := by
  cases rel with
  | none => exact .none
  | some holds => exact goesOn _ _ holds

theorem exists_of_rel {r : α → β → Prop} {found : Option α} {found' : Option β}
    (rel : Option.Rel r found found') :
    found = none ∧ found' = none ∨ ∃ a b, r a b ∧ found = some a ∧ found' = some b := by
  cases rel with
  | none => exact .inl ⟨rfl, rfl⟩
  | some holds => exact .inr ⟨_, _, holds, rfl, rfl⟩

/-- What more is known of the findings relates them further. -/
theorem rel_imp {r r' : α → β → Prop} {found : Option α} {found' : Option β}
    (rel : Option.Rel r found found')
    (further : ∀ a b, found = some a → found' = some b → r a b → r' a b) :
    Option.Rel r' found found' := by
  cases rel with
  | none => exact .none
  | some holds => exact .some (further _ _ rfl rfl holds)

theorem rel_filter {r : α → β → Prop} {found : Option α} {found' : Option β}
    (rel : Option.Rel r found found') {p : α → Bool} {q : β → Bool}
    (same : ∀ a b, r a b → p a = q b) : Option.Rel r (found.filter p) (found'.filter q) := by
  cases rel with
  | none => exact .none
  | some holds =>
    rw [Option.filter_some, Option.filter_some, same _ _ holds]
    split
    · exact .some holds
    · exact .none

theorem rel_refl (found : Option α) : Option.Rel (· = ·) found found := by
  cases found with
  | none => exact .none
  | some a => exact .some rfl

theorem eq_of_rel {found found' : Option α} (rel : Option.Rel (· = ·) found found') :
    found = found' := by
  cases rel with
  | none => rfl
  | some same => rw [same]

theorem rel_or {r : α → β → Prop} {first next : Option α} {first' next' : Option β}
    (rel : Option.Rel r first first') (otherwise : Option.Rel r next next') :
    Option.Rel r (first.or next) (first'.or next') := by
  cases rel with
  | none => exact otherwise
  | some holds => exact .some holds

theorem rel_findSome? {r : β → γ → Prop} {l : List α} {f : α → Option β}
    {g : α → Option γ} (each : ∀ a ∈ l, Option.Rel r (f a) (g a)) :
    Option.Rel r (l.findSome? f) (l.findSome? g) := by
  induction l with
  | nil => exact .none
  | cons a l ih =>
    rw [List.findSome?_cons, List.findSome?_cons]
    rcases exists_of_rel (each a (List.mem_cons_self ..)) with
      ⟨missed, missed'⟩ | ⟨b, c, holds, found, found'⟩
    · rw [missed, missed']
      exact ih fun b mem => each b (List.mem_cons_of_mem a mem)
    · rw [found, found']
      exact .some holds

/-! ### Results -/

namespace Result

/-- Both results are errors, or both are values that are related. -/
inductive AlikeBy (rel : α → β → Prop) : Result α → Result β → Prop
  | ok {a : α} {b : β} (holds : rel a b) : AlikeBy rel (.ok a) (.ok b)
  | error (e e' : Error) : AlikeBy rel (.error e) (.error e')

variable {rel : α → β → Prop} {rel' : γ → δ → Prop} {result : Result α} {result' : Result β}

theorem alike_invalidExpression (fault fault' : QueryFault) :
    AlikeBy rel (Error.invalidExpression fault) (Error.invalidExpression fault') :=
  .error _ _

theorem alike_of_toOption (error : result.toOption = none) (error' : result'.toOption = none) :
    AlikeBy rel result result' := by
  cases result with
  | ok a => cases error
  | error e =>
    cases result' with
    | ok b => cases error'
    | error e' => exact .error e e'

theorem AlikeBy.bind (alike : AlikeBy rel result result') {next : α → Result γ}
    {next' : β → Result δ}
    (goesOn : ∀ a b, rel a b → AlikeBy rel' (next a) (next' b)) :
    AlikeBy rel' (result >>= next) (result' >>= next') := by
  cases alike with
  | ok holds => exact goesOn _ _ holds
  | error e e' => exact .error e e'

/-- What is found first is taken, and the search goes on otherwise. -/
theorem AlikeBy.firstOf {first : Result (Option α)} {first' : Result (Option β)}
    (alike : AlikeBy (Option.Rel rel) first first') {next : Option α → Result α}
    {next' : Option β → Result β} (found : ∀ a, next (some a) = .ok a)
    (found' : ∀ b, next' (some b) = .ok b) (otherwise : AlikeBy rel (next none) (next' none)) :
    AlikeBy rel (first >>= next) (first' >>= next') := by
  refine alike.bind fun a b holds => ?_
  cases holds with
  | none => exact otherwise
  | some holds =>
    rw [found, found']
    exact .ok holds

theorem AlikeBy.mapM {f : γ → Result α} {g : δ → Result β} {l : List γ} {l' : List δ}
    {pair : γ → δ → Prop} (each : List.Forall₂ pair l l')
    (alike : ∀ x y, pair x y → AlikeBy rel (f x) (g y)) :
    AlikeBy (List.Forall₂ rel) (l.mapM f) (l'.mapM g) := by
  induction each with
  | nil => exact .ok .nil
  | cons first _ ih =>
    rw [List.mapM_cons, List.mapM_cons]
    exact (alike _ _ first).bind fun a b holds => ih.bind fun _ _ others => .ok (.cons holds others)

theorem AlikeBy.within (alike : AlikeBy rel result result') (cause cause' : Cause) :
    AlikeBy rel (Error.within cause result) (Error.within cause' result') := by
  cases alike with
  | ok holds => exact .ok holds
  | error e e' => exact .error _ _

/-- Values of which there is one view. -/
theorem AlikeBy.map_toOption {view : α → γ} {view' : β → γ}
    (alike : AlikeBy (fun a b => view a = view' b) result result') :
    result.toOption.map view = result'.toOption.map view' := by
  cases alike with
  | ok same => exact congrArg some same
  | error e e' => rfl

end Result

end RecordMapper
