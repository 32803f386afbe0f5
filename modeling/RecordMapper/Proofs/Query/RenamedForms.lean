import RecordMapper.Proofs.Query.Parentheses
import RecordMapper.Proofs.Query.Placeholders
import RecordMapper.Proofs.Query.Simulation
import RecordMapper.Proofs.Query.SpacedTokens
import RecordMapper.Proofs.Token.Renaming

/-!
Forms of texts that differ in the names of their placeholders.

No form but the placeholder looks for a percent sign, and none reads over one without closing a
parenthesis. So a form is found in both texts or in none, with the same names and aliases, and what
it takes out to be read further is renamed.
-/

namespace RecordMapper

open Text

variable {names : Text → Text → Prop} {s t : Text}

namespace Form

/-- The same was read at the start of both texts, and renamed texts are left. -/
inductive ReadAlike {α : Type} (names : Text → Text → Prop) : α × Text → α × Text → Prop
  | read (a : α) {s t : Text} (behind : Renamed names s t) : ReadAlike names (a, s) (a, t)

/-! ### Words and aliases -/

theorem rel_afterBlanks? (renamed : Renamed names s t) :
    Option.Rel (Renamed names) (afterBlanks? s) (afterBlanks? t) := by
  cases renamed with
  | nil => exact .none
  | placeholder =>
    rw [afterBlanks?, afterBlanks?, if_neg (by decide), if_neg (by decide)]
    exact .none
  | char _ behind =>
    rw [afterBlanks?, afterBlanks?]
    split
    · exact .some behind.trimStart
    · exact .none

theorem rel_afterWord? (renamed : Renamed names s t) {word : Text}
    (foreign : (word.all fun a => fold a != '%') = true) :
    Option.Rel (Renamed names) (afterWord? word s) (afterWord? word t) := by
  refine renamed.rel_after isAfter_afterWord? fun a mem => decide_eq_false ?_
  simpa [fold] using List.all_eq_true.1 foreign a mem

theorem rel_word? (renamed : Renamed names s t) :
    Option.Rel (ReadAlike names) (word? s) (word? t) := by
  obtain ⟨same, behind⟩ := renamed.takeWhile_eq (p := isWord) rfl
  rw [word?, word?, same]
  split
  · exact .none
  · exact .some (.read _ behind)

/-- **Both texts end in the same alias, or none does.** -/
theorem ending?_eq_of_renamed (renamed : Renamed names s t) : ending? s = ending? t := by
  by_cases empty : s = []
  · rw [empty, (renamed.eq_iff List.not_mem_nil).1 empty]
  have nonempty := mt (renamed.eq_iff List.not_mem_nil).2 empty
  rw [ending?_of_ne_nil empty, ending?_of_ne_nil nonempty]
  refine eq_of_rel (rel_bind (rel_afterBlanks? renamed) fun _ _ renamed => ?_)
  refine rel_bind (rel_afterWord? renamed rfl) fun _ _ renamed => ?_
  refine rel_bind (rel_afterBlanks? renamed) fun _ _ renamed => ?_
  refine rel_bind (rel_word? renamed) ?_
  rintro _ _ ⟨name, behind⟩
  dsimp only
  rw [behind.isEmpty_eq]
  exact rel_refl _

theorem rel_reversedAlias? (renamed : Renamed names s t) :
    Option.Rel (ReadAlike names) (reversedAlias? s) (reversedAlias? t) := by
  refine rel_bind (rel_word? renamed) ?_
  rintro _ _ ⟨name, behind⟩
  dsimp only
  split
  swap
  · exact .none
  refine rel_bind (rel_afterBlanks? behind) fun _ _ renamed => ?_
  refine rel_bind (rel_afterWord? renamed rfl) fun _ _ renamed => ?_
  refine rel_bind (rel_afterBlanks? renamed) fun _ _ renamed => ?_
  rw [renamed.isEmpty_eq]
  split
  · exact .none
  · exact .some (.read name renamed)

/-- **The same alias is split off both texts, or none is.** -/
theorem renamed_splitAlias (renamed : Renamed names s t) :
    Renamed names (splitAlias s).1 (splitAlias t).1 ∧ (splitAlias s).2 = (splitAlias t).2 := by
  rw [splitAlias_eq, splitAlias_eq]
  rcases exists_of_rel (rel_reversedAlias? renamed.reverse) with
    ⟨missed, missed'⟩ | ⟨_, _, ⟨name, behind⟩, found, found'⟩
  · rw [missed, missed']
    exact ⟨renamed, rfl⟩
  · rw [found, found']
    exact ⟨backward_backward names ▸ behind.reverse, rfl⟩

/-! ### Fields and placeholders -/

/-- **Both texts are the same field reference, or none is one.** -/
theorem field?_eq_of_renamed (renamed : Renamed names s t) : field? s = field? t := by
  cases renamed with
  | nil => rfl
  | placeholder => rfl
  | @char c s t _ behind =>
    by_cases brace : c = '\x7b'
    swap
    · rw [field?_cons_eq_none brace, field?_cons_eq_none brace]
    rw [brace, field?_brace, field?_brace]
    refine eq_of_rel (rel_bind (rel_word? behind) ?_)
    rintro _ _ ⟨first, behind⟩
    cases behind with
    | nil => exact .none
    | placeholder => exact .none
    | @char c s t _ behind =>
      dsimp only
      split
      · rename_i same
        obtain ⟨rfl, rfl⟩ := List.cons.inj same
        rw [ending?_eq_of_renamed behind]
        exact rel_refl _
      · rename_i same
        obtain ⟨rfl, rfl⟩ := List.cons.inj same
        refine rel_bind (rel_word? behind) ?_
        rintro _ _ ⟨second, behind⟩
        cases behind with
        | nil => exact .none
        | placeholder => exact .none
        | @char c s t _ behind =>
          dsimp only
          split
          · rename_i same
            obtain ⟨rfl, rfl⟩ := List.cons.inj same
            rw [ending?_eq_of_renamed behind]
            exact rel_refl _
          · rename_i other
            split
            · rename_i same
              obtain ⟨rfl, -⟩ := List.cons.inj same
              exact absurd rfl (other s)
            · exact .none
      · rename_i close point
        split
        · rename_i same
          obtain ⟨rfl, -⟩ := List.cons.inj same
          exact absurd rfl (close s)
        · rename_i same
          obtain ⟨rfl, -⟩ := List.cons.inj same
          exact absurd rfl (point s)
        · exact .none

/-- **Both texts are a placeholder, with names that are paired, or none is one.** -/
theorem rel_placeholder? (renamed : Renamed names s t) :
    Option.Rel (fun n n' : String => names n.toList n'.toList) (placeholder? s) (placeholder? t) := by
  cases renamed with
  | nil => exact .none
  | char other =>
    rw [placeholder?_cons_eq_none other, placeholder?_cons_eq_none other]
    exact .none
  | @placeholder v w s t pair word word' behind =>
    rw [placeholder?_append word.isName, placeholder?_append word'.isName]
    simp only [behind.eq_iff List.not_mem_nil]
    split
    · exact .some (by simpa using pair)
    · exact .none

/-! ### Calls -/

/-- **Both texts are a call of the same function, or none is a call.** -/
theorem rel_call? (safe : AreSafe names) (renamed : Renamed names s t) :
    Option.Rel (Call.Pairs (Renamed names)) (call? s) (call? t) := by
  rw [call?_eq, call?_eq]
  refine rel_bind (rel_word? renamed) ?_
  rintro _ _ ⟨name, behind⟩
  refine rel_bind (rel_refl name.head?) ?_
  rintro first _ rfl
  dsimp only
  split
  swap
  · exact .none
  have trimmed := behind.trimStart
  generalize Text.trimStart _ = s at trimmed
  generalize Text.trimStart _ = t at trimmed
  cases trimmed with
  | nil => exact .none
  | placeholder => exact .none
  | @char c s t _ behind =>
    split
    swap
    · rename_i other
      split
      · rename_i same
        obtain ⟨rfl, -⟩ := List.cons.inj same
        exact absurd rfl (other s)
      · exact .none
    rename_i same
    obtain ⟨rfl, rfl⟩ := List.cons.inj same
    refine rel_bind (behind.rel_closing? safe) ?_
    rintro ⟨arguments, rest⟩ ⟨arguments', rest'⟩ ⟨inside, behind⟩
    dsimp only at inside behind ⊢
    rw [ending?_eq_of_renamed behind]
    refine rel_bind (rel_refl (ending? rest')) ?_
    rintro a _ rfl
    exact .some ⟨rfl, inside, rfl⟩

/-! ### Case distinctions -/

theorem behindEnding?_eq_of_renamed (renamed : Renamed names s t) :
    behindEnding? s = behindEnding? t := by
  have trimmed := renamed.trimStart
  rw [behindEnding?, behindEnding?, ending?_eq_of_renamed renamed]
  generalize Text.trimStart s = x at trimmed
  generalize Text.trimStart t = y at trimmed
  cases trimmed with
  | nil => rfl
  | placeholder => rfl
  | @char c x y _ behind =>
    by_cases closes : c = ')'
    · rw [closes]
      exact congrArg (Option.map _) (ending?_eq_of_renamed behind)
    · split
      · rename_i same
        cases same
      · rename_i same
        exact absurd (List.cons.inj same).1 closes
      · split
        · rename_i same
          cases same
        · rename_i same
          exact absurd (List.cons.inj same).1 closes
        · rfl

theorem caseEnding?_eq_of_renamed (renamed : Renamed names s t) :
    caseEnding? s = caseEnding? t := by
  cases renamed with
  | nil => rfl
  | placeholder =>
    rw [caseEnding?_visible (by decide), caseEnding?_visible (by decide)]
  | @char c s t _ behind =>
    by_cases blank : isBlank c = true
    · rw [caseEnding?_cons blank, caseEnding?_cons blank]
      refine eq_of_rel (rel_bind (rel_afterWord? behind rfl) fun _ _ behind => ?_)
      rw [behindEnding?_eq_of_renamed behind]
      exact rel_refl _
    · rw [Bool.not_eq_true] at blank
      rw [caseEnding?_visible blank, caseEnding?_visible blank]

/-- Renamed texts stand before the same ending. -/
inductive EndsAlike {α : Type} (names : Text → Text → Prop) : Text × α → Text × α → Prop
  | ending {s t : Text} (before : Renamed names s t) (a : α) : EndsAlike names (s, a) (t, a)

theorem rel_lastCaseEnding? (renamed : Renamed names s t) :
    Option.Rel (EndsAlike names) (lastCaseEnding? s) (lastCaseEnding? t) := by
  induction renamed with
  | nil => exact .none
  | @char c s t other behind ih =>
    rw [lastCaseEnding?, lastCaseEnding?]
    rcases exists_of_rel ih with ⟨missed, missed'⟩ | ⟨_, _, ⟨before, ending⟩, found, found'⟩
    · rw [missed, missed', caseEnding?_eq_of_renamed (.char other behind)]
      cases caseEnding? (c :: t) with
      | none => exact .none
      | some ending => exact .some (.ending .nil ending)
    · rw [found, found']
      exact .some (.ending (.char other before) ending)
  | @placeholder v w s t pair word word' _ ih =>
    have split : ∀ u r : Text, '%' :: (u ++ '%' :: r) = '%' :: (u ++ ['%']) ++ r := by simp
    rw [split v s, split w t]
    rcases exists_of_rel ih with ⟨missed, missed'⟩ | ⟨_, _, ⟨before, ending⟩, found, found'⟩
    · rw [lastCaseEnding?_visible (isBlank_of_mem_placeholder word) missed,
        lastCaseEnding?_visible (isBlank_of_mem_placeholder word') missed']
      exact .none
    · rw [lastCaseEnding?_later found, lastCaseEnding?_later found']
      exact .some (.ending (Renamed.append (.placeholder pair word word' .nil) before) ending)

theorem rel_caseBehind? (renamed : Renamed names s t) (opened : Bool) :
    Option.Rel (Case.Pairs (Renamed names)) (caseBehind? opened s) (caseBehind? opened t) := by
  refine rel_bind (rel_afterWord? renamed.trimStart rfl) fun s t renamed => ?_
  rcases exists_of_rel (rel_lastCaseEnding? renamed) with
    ⟨missed, missed'⟩ | ⟨_, _, @⟨front, front', before, ending⟩, found, found'⟩
  · rw [missed, missed']
    exact .none
  obtain ⟨tail, rfl, -⟩ := exists_of_lastCaseEnding? found
  obtain ⟨tail', rfl, -⟩ := exists_of_lastCaseEnding? found'
  have blanks := (renamed.takeWhile_eq (p := isBlank) (by decide)).1
  rw [found, found', Option.bind_some, Option.bind_some]
  dsimp only
  rw [drop_takeWhile_append, drop_takeWhile_append, blanks, before.isEmpty_eq]
  split
  · exact .none
  · exact .some ⟨rfl, before.trimStart, rfl, rfl⟩

/-- **Both texts are a case distinction or none is one.** -/
theorem rel_case? (renamed : Renamed names s t) :
    Option.Rel (Case.Pairs (Renamed names)) (case? s) (case? t) := by
  cases renamed with
  | nil => exact .none
  | @placeholder _ _ _ _ pair word word' behind =>
    have unopened : ∀ r : Text, case? ('%' :: r) = caseBehind? false ('%' :: r) := fun r =>
      case?_unopened fun _ same => by cases same
    rw [unopened, unopened]
    exact rel_caseBehind? (.placeholder pair word word' behind) false
  | @char c s t other behind =>
    by_cases opens : c = '('
    · rw [opens]
      exact rel_caseBehind? behind true
    · rw [case?_unopened fun _ same => opens (List.cons.inj same).1,
        case?_unopened fun _ same => opens (List.cons.inj same).1]
      exact rel_caseBehind? (.char other behind) false

end Form

/-! ### Comparisons -/

namespace CmpOp

theorem isForeign_of_mem {spelling : Text × CmpOp} (mem : spelling ∈ spellings) :
    IsForeign spelling.1 spelling.2.isWords := by
  have checked : ∀ spelling ∈ spellings, spelling.1 ≠ [] ∧ '%' ∉ spelling.1
      ∧ (spelling.2.isWords = false → spelling.1.head?.all (!isAsciiWord ·) = true) := by decide
  obtain ⟨nonempty, free, marks⟩ := checked spelling mem
  refine ⟨nonempty, free, fun symbol a first => ?_⟩
  simpa using (Option.all_eq_true _ _).1 (marks symbol) a first

/-- **The same operator divides both texts, or none does.** -/
theorem rel_split? (safe : AreSafe names) (renamed : Renamed names s t) :
    Option.Rel (Sides (Renamed names)) (split? s) (split? t) := by
  refine rel_findSome? fun spelling mem => ?_
  have divided := renamed.rel_splitAt? (isForeign_of_mem mem) safe
  obtain ⟨spelling, op⟩ := spelling
  rcases exists_of_rel divided with ⟨missed, missed'⟩ | ⟨found, found', parts, read, read'⟩
  · simp only [missed, missed']
    exact .none
  · simp only [read, read']
    exact .some (.sides op parts.1 parts.2)

end CmpOp

/-! ### What is read further -/

variable {pair : Text → Text → Prop}

theorem Token.Pairs.print {tokens tokens' : List Token}
    (pairs : List.Forall₂ (Token.Pairs pair) tokens tokens')
    (texts : ∀ token ∈ tokens, ∃ u, token = .text u) :
    List.Forall₂ pair (tokens.map Token.print) (tokens'.map Token.print) := by
  induction pairs with
  | nil => exact .nil
  | cons first _ ih =>
    obtain ⟨u, rfl⟩ := texts _ (List.mem_cons_self ..)
    cases first with
    | text holds => exact .cons holds (ih fun token mem => texts token (List.mem_cons_of_mem _ mem))

section Parts

variable (similarity : Similarity names pair) (safe : AreSafe names) (holds : pair s t)
include similarity safe holds

theorem Connected.pairs_tokens : List.Forall₂ (Token.Pairs pair) (tokens s) (tokens t) :=
  Separation.pairs_tokenize similarity safe symbols_eq rfl rfl holds

theorem CaseBody.pairs_texts :
    List.Forall₂ pair ((tokens s).map Token.print) ((tokens t).map Token.print) := by
  refine Token.Pairs.print (Separation.pairs_tokenize similarity safe symbols_eq rfl rfl
    (similarity.flattened holds)) ?_
  exact Separation.Divided.exists_text (Separation.divided_tokenizeWithin symbols_eq rfl _ _) rfl

theorem Chain.pairs_tokens : List.Forall₂ (Token.Pairs pair) (tokens s) (tokens t) := by
  have within : ∀ {depth : Nat} {s t : Text}, pair s t → List.Forall₂ (Token.Pairs pair)
      (tokensWithin tokenizer depth s) (tokensWithin tokenizer depth t) := by
    intro depth
    induction depth with
    | zero => exact fun holds => Separation.pairs_tokenize similarity safe symbols_eq rfl rfl holds
    | succ depth ih =>
      intro s t holds
      have pieces := Separation.pairs_tokenize similarity safe symbols_eq rfl rfl holds
      rw [tokensWithin, tokensWithin]
      generalize tokenizer.tokenize s = tokens at pieces ⊢
      generalize tokenizer.tokenize t = tokens' at pieces ⊢
      rcases pieces with _ | ⟨first, _ | ⟨second, others⟩⟩
      case nil => exact .nil
      case cons.cons =>
        cases first with
        | text holds => exact .cons (.text holds) (.cons second others)
        | nested each => exact .cons (.nested each) (.cons second others)
      case cons.nil =>
        cases first with
        | nested each => exact .cons (.nested each) .nil
        | @text one one' holds =>
          have trimmed := similarity.trim holds
          dsimp only
          rcases exists_of_rel ((similarity.renamed trimmed).rel_unwrapped? safe) with
            ⟨missed, missed'⟩ | ⟨inner, inner', inside, found, found'⟩
          · rw [missed, missed']
            exact .cons (.text holds) .nil
          · rw [found, found']
            exact ih (similarity.part trimmed (isInfix_of_unwrapped? found)
              (isInfix_of_unwrapped? found') inside)
  have left : s.length ≤ s.length + t.length := Nat.le_add_right _ _
  have right : t.length ≤ s.length + t.length := Nat.le_add_left _ _
  rw [← tokensWithin_eq left, ← tokensWithin_eq right]
  exact within holds

theorem FieldList.pairs_items : List.Forall₂ pair (items s) (items t) := by
  obtain ⟨depth, divided⟩ :=
    Separation.dividedAlike_tokenize similarity safe symbols_eq rfl rfl holds
  have pairs : PairsItems pair :=
    ⟨similarity.trim, fun holds => (similarity.renamed holds).isEmpty_eq,
      fun holds => (similarity.renamed holds).eq_iff (by decide)⟩
  rw [items, items]
  generalize tokenizer.tokenize s = tokens at divided ⊢
  generalize tokenizer.tokenize t = tokens' at divided ⊢
  have comma : tokenizer.flat separator = [.text separator] := rfl
  -- between two separators stands one token, or none if nothing but blanks does
  have flat : ∀ {x x' : Text}, pair x x' →
      tokenizer.flat x = [] ∧ tokenizer.flat x' = []
        ∨ tokenizer.flat x = [.text x.trim] ∧ tokenizer.flat x' = [.text x'.trim] := by
    intro x x' holds
    have empty := pairs.isEmpty_eq (similarity.trim holds)
    cases none : x.trim.isEmpty with
    | true => exact .inl ⟨if_pos none, if_pos (empty ▸ none)⟩
    | false =>
      rw [none] at empty
      exact .inr ⟨if_neg (ne_true_of_eq_false none), if_neg (ne_true_of_eq_false empty.symm)⟩
  induction divided with
  | last holds =>
    rcases flat holds with ⟨none, none'⟩ | ⟨one, one'⟩
    · rw [none, none']
      exact .nil
    · rw [one, one']
      exact pairs.itemsFrom (similarity.trim holds) (.inl ⟨rfl, rfl⟩)
  | separated holds mem _ _ ih =>
    obtain rfl := List.mem_singleton.1 mem
    rw [comma]
    rcases flat holds with ⟨none, none'⟩ | ⟨one, one'⟩
    · rw [none, none']
      exact ih
    · rw [one, one']
      exact pairs.itemsFrom (similarity.trim holds) (.inr ⟨_, _, rfl, rfl, ih⟩)
  | grouped _ groups _ _ _ => cases groups

theorem CmpOp.pairs_split? : Option.Rel (Sides pair) (split? s) (split? t) := by
  refine rel_imp (rel_split? safe (similarity.renamed holds)) ?_
  rintro _ _ found found' ⟨op, before, behind⟩
  obtain ⟨left, right⟩ := isInfix_of_split? found
  obtain ⟨left', right'⟩ := isInfix_of_split? found'
  exact .sides op (similarity.part holds left left' before)
    (similarity.part holds right right' behind)

theorem Form.pairs_call? : Option.Rel (Call.Pairs pair) (call? s) (call? t) := by
  refine rel_imp (rel_call? safe (similarity.renamed holds)) fun c c' found found' calls => ?_
  have arguments := similarity.part holds (isInfix_of_call? found) (isInfix_of_call? found')
    calls.arguments
  exact ⟨calls.name, arguments, calls.aliasName⟩

theorem Form.pairs_case? : Option.Rel (Case.Pairs fun body body' => List.Forall₂ pair
    ((CaseBody.tokens body).map Token.print) ((CaseBody.tokens body').map Token.print))
      (case? s) (case? t) := by
  refine rel_imp (rel_case? (similarity.renamed holds)) fun c c' found found' forms => ?_
  have bodies := similarity.part holds (isInfix_of_case? found) (isInfix_of_case? found') forms.body
  exact ⟨forms.opened, CaseBody.pairs_texts similarity safe bodies, forms.closed, forms.aliasName⟩

/-- Names that are paired one to one make a piece of a chain the whole chain on both sides or on
none. -/
theorem Chain.pairs_splitAlias (unique : ∀ v w w', names v w → names v w' → w = w')
    (unique' : ∀ v v' w, names v w → names v' w → v = v') :
    Chain.Pairs pair (Form.splitAlias s) (Form.splitAlias t) := by
  obtain ⟨body, aliasName⟩ := Form.renamed_splitAlias (similarity.renamed holds)
  have chains := similarity.part holds (Form.isPrefix_splitAlias s).isInfix
    (Form.isPrefix_splitAlias t).isInfix body
  have each := Chain.pairs_tokens similarity safe chains
  refine ⟨each, fun inner inner' one one' => ?_, aliasName⟩
  rw [one, one'] at each
  cases (List.forall₂_cons.1 each).1 with
  | text piece => exact (similarity.renamed piece).eq_iff_eq unique unique' body

omit safe in
theorem Grammar.pairs_distinct :
    Option.Rel (fun rest rest' : Text => pair rest.trimStart rest'.trimStart)
      (after? true distinctKeyword s) (after? true distinctKeyword t) := by
  have part : ∀ {s rest : Text}, after? true distinctKeyword s = some rest →
      rest.trimStart <:+: s := by
    intro s rest found
    obtain ⟨word, -, rfl⟩ := after?_eq_some_iff.1 found
    exact (List.dropWhile_suffix isBlank).isInfix.trans (List.suffix_append word rest).isInfix
  have free : '%' ∉ distinctKeyword := by decide
  exact rel_imp ((similarity.renamed holds).rel_after? true free) fun rest rest' found found'
    behind => similarity.part holds (part found) (part found') behind.trimStart

end Parts

end RecordMapper
