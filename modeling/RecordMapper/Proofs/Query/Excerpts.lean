import RecordMapper.Proofs.Query.Mentions

/-!
What is taken out of a query text stands in it.

The tokenizers cut a text and trim the pieces, and the forms take out what stands between their
marks. So a flat token is an excerpt of the text or a separator as it is registered
(`Separation.each_isPiece`), and **the items of a list, the operands of a chain, the arguments of a
call, the body of a case distinction and the sides of a comparison are excerpts**. Only the body of
a case distinction is changed before it is cut: its line breaks and tabs become spaces.
-/

namespace RecordMapper

open Text

variable {t : Text}

/-! ### Tokens -/

/-- Every flat token, at any depth of nesting, satisfies the predicate. -/
inductive Token.Each (p : Text → Prop) : Token → Prop
  | text {t : Text} (holds : p t) : Each p (.text t)
  | nested {tokens : List Token} (each : ∀ token ∈ tokens, Each p token) : Each p (.nested tokens)

theorem Token.Each.imp {p q : Text → Prop} {token : Token} (each : token.Each p)
    (weaker : ∀ t, p t → q t) : token.Each q := by
  induction each with
  | text holds => exact .text (weaker _ holds)
  | nested _ ih => exact .nested ih

/-- A text gives one flat token, which is an excerpt of it, or none. -/
theorem Tokenizer.flat_cases (t : Tokenizer) (x : Text) :
    t.flat x = [] ∨ ∃ y, t.flat x = [.text y] ∧ y <:+: x ∧ y ≠ []
      ∧ (t.trim = true → IsTrimmed y) := by
  have part : (if t.trim then x.trim else x) <:+: x := by
    split
    · exact isInfix_trim x
    · exact List.infix_rfl
  have trimmed : t.trim = true → (if t.trim then x.trim else x) ≠ [] →
      IsTrimmed (if t.trim then x.trim else x) := by
    intro trims nonempty
    rw [if_pos trims] at nonempty ⊢
    exact isTrimmed_trim nonempty
  unfold flat
  extract_lets y
  change y <:+: x at part
  change t.trim = true → y ≠ [] → IsTrimmed y at trimmed
  clear_value y
  cases empty : y.isEmpty with
  | true => exact .inl (by simp)
  | false =>
    have nonempty : y ≠ [] := by simpa using empty
    exact .inr ⟨y, by simp, part, nonempty, fun trims => trimmed trims nonempty⟩

theorem Tokenizer.of_mem_flat {t : Tokenizer} {x y : Text} (mem : Token.text y ∈ t.flat x) :
    y <:+: x ∧ y ≠ [] ∧ (t.trim = true → IsTrimmed y) := by
  rcases t.flat_cases x with none | ⟨y, one, holds⟩
  · rw [none] at mem
    cases mem
  · rw [one, List.mem_singleton] at mem
    cases mem
    exact holds

namespace Separation

variable {s : Separation} {t : Tokenizer} {inner : Text → List Token} {whole x y : Text}
  {tokens : List Token}

/-- The text is an excerpt of the whole, or a separator that stands there, as it is registered. -/
def IsExcerpt (s : Separation) (whole x : Text) : Prop :=
  x <:+: whole ∨ x ∈ s.separators
    ∧ ∃ word, List.Forall₂ (fun a b => agree s.ignoreCase a b = true) x word ∧ word <:+: whole

theorem IsExcerpt.of_isInfix {part : Text} (excerpt : s.IsExcerpt part x)
    (inside : part <:+: whole) : s.IsExcerpt whole x := by
  rcases excerpt with here | ⟨mem, word, agrees, here⟩
  · exact .inl (here.trans inside)
  · exact .inr ⟨mem, word, agrees, here.trans inside⟩

/-- A separator in its own spelling is an excerpt too. -/
theorem IsExcerpt.isInfix (excerpt : s.IsExcerpt whole x) (exact : s.ignoreCase = false) :
    x <:+: whole := by
  rcases excerpt with here | ⟨-, word, agrees, here⟩
  · exact here
  · rw [exact] at agrees
    obtain rfl := eq_of_forall₂_agree agrees
    exact here

/-- The text is a flat token of an excerpt of the whole. -/
def IsPiece (s : Separation) (t : Tokenizer) (whole y : Text) : Prop :=
  ∃ x, s.IsExcerpt whole x ∧ Token.text y ∈ t.flat x

theorem IsPiece.of_isInfix {part : Text} (piece : s.IsPiece t part y) (inside : part <:+: whole) :
    s.IsPiece t whole y := by
  obtain ⟨x, excerpt, mem⟩ := piece
  exact ⟨x, excerpt.of_isInfix inside, mem⟩

theorem IsPiece.isTrimmed (piece : s.IsPiece t whole y) (trims : t.trim = true) : IsTrimmed y := by
  obtain ⟨x, -, mem⟩ := piece
  exact (Tokenizer.of_mem_flat mem).2.2 trims

theorem IsPiece.isInfix (piece : s.IsPiece t whole y) (exact : s.ignoreCase = false) :
    y <:+: whole := by
  obtain ⟨x, excerpt, mem⟩ := piece
  exact (Tokenizer.of_mem_flat mem).1.trans (excerpt.isInfix exact)

theorem isPiece_of_mem_flat (excerpt : s.IsExcerpt whole x) :
    ∀ token ∈ t.flat x, token.Each (s.IsPiece t whole) := by
  intro token mem
  rcases t.flat_cases x with none | ⟨y, one, -⟩
  · rw [none] at mem
    cases mem
  · obtain rfl := List.mem_singleton.1 (one ▸ mem)
    exact .text ⟨x, excerpt, mem⟩

/-- What a text is divided into are pieces of it, if the tokens of a group are. -/
theorem Divided.each_isPiece (divided : Divided s t inner whole tokens)
    (inside : ∀ contents, ∀ token ∈ inner contents, token.Each (s.IsPiece t contents)) :
    ∀ token ∈ tokens, token.Each (s.IsPiece t whole) := by
  have within : ∀ {part whole : Text} {tokens : List Token}, part <:+: whole →
      (∀ token ∈ tokens, token.Each (s.IsPiece t part)) →
        ∀ token ∈ tokens, token.Each (s.IsPiece t whole) :=
    fun part each token mem => (each token mem).imp fun _ piece => piece.of_isInfix part
  induction divided with
  | last x => exact isPiece_of_mem_flat (.inl List.infix_rfl)
  | @separated x separator word rest tokens mem agrees _ _ ih =>
    have behind : rest <:+: x ++ (word ++ rest) := ⟨x ++ word, [], by simp⟩
    have here : word <:+: x ++ (word ++ rest) := ⟨x, rest, by simp⟩
    refine List.forall_mem_append.2 ⟨List.forall_mem_append.2 ⟨?_, ?_⟩, within behind ih⟩
    · exact isPiece_of_mem_flat (.inl (List.prefix_append _ _).isInfix)
    · exact isPiece_of_mem_flat (.inr ⟨mem, word, agrees, here⟩)
  | @grouped x contents rest tokens _ _ _ _ ih =>
    have behind : rest <:+: x ++ '(' :: (contents ++ ')' :: rest) :=
      ⟨x ++ '(' :: (contents ++ [')']), [], by simp⟩
    have grouped : contents <:+: x ++ '(' :: (contents ++ ')' :: rest) :=
      ⟨x ++ ['('], ')' :: rest, by simp⟩
    refine List.forall_mem_append.2 ⟨List.forall_mem_append.2 ⟨?_, ?_⟩, within behind ih⟩
    · exact isPiece_of_mem_flat (.inl (List.prefix_append _ _).isInfix)
    · exact List.forall_mem_singleton.2 (.nested (within grouped (inside contents)))

/-- **A flat token is a piece of the text.** -/
theorem each_isPiece (layout : t.symbols = s.symbols) (foreign : s.foreign = true) (depth : Nat)
    (text : Text) : ∀ token ∈ t.tokenizeWithin depth text, token.Each (s.IsPiece t text) := by
  induction depth generalizing text with
  | zero => exact List.forall_mem_nil _
  | succ depth ih => exact (divided_tokenizeWithin layout foreign depth text).each_isPiece ih

end Separation

/-! ### Lists -/

namespace FieldList

theorem isTrimmed_of_mem_itemsFrom {parts : List Text} {tokens : List Token} {i : Text}
    (mem : i ∈ itemsFrom parts tokens) : IsTrimmed i := by
  have isTrimmed : ∀ {parts : List Text}, i ∈ item parts → IsTrimmed i := by
    intro parts mem
    rw [item] at mem
    split at mem
    · cases mem
    · rename_i nonempty
      rw [List.mem_singleton.1 mem]
      exact isTrimmed_trim (by simpa using nonempty)
  induction tokens generalizing parts with
  | nil => exact isTrimmed mem
  | cons token rest ih =>
    rw [itemsFrom] at mem
    split at mem
    · exact (List.mem_append.1 mem).elim isTrimmed ih
    · exact ih mem

/-- The items of a list are trimmed and not empty. -/
theorem isTrimmed_of_mem_items {i : Text} (mem : i ∈ items t) : IsTrimmed i :=
  isTrimmed_of_mem_itemsFrom mem

theorem isInfix_of_mem_itemsFrom {inner : Text → List Token} {tokens : List Token}
    (divided : Separation.Divided separation tokenizer inner t tokens) :
    ∀ i ∈ itemsFrom [] tokens, i <:+: t := by
  have ungrouped : separation.groups = false := rfl
  have trimmed : ∀ x : Text, x.trim.trim <:+: x := fun x =>
    (isInfix_trim x.trim).trans (isInfix_trim x)
  induction divided with
  | last x =>
    intro i mem
    rcases flat_eq x with none | one
    · rw [none] at mem
      cases mem
    · rw [one, itemsFrom] at mem
      split at mem
      · cases mem
      · rw [eq_trim_of_mem_item mem]
        exact trimmed x
  | @separated x k word rest tokens mem _ _ _ ih =>
    obtain rfl : k = separator := List.mem_singleton.1 mem
    obtain ⟨front, same, parts⟩ := exists_itemsFrom_separated x tokens
    rw [same]
    refine List.forall_mem_append.2 ⟨fun i mem => ?_, fun i mem => ?_⟩
    · rw [parts i mem]
      exact (trimmed x).trans (List.prefix_append _ _).isInfix
    · exact (ih i mem).trans ⟨x ++ word, [], by simp⟩
  | grouped groups =>
    rw [ungrouped] at groups
    cases groups

/-- **An item is an excerpt of the list.** -/
theorem isInfix_of_mem_items {i : Text} (mem : i ∈ items t) : i <:+: t :=
  isInfix_of_mem_itemsFrom (Separation.divided_tokenizeWithin symbols_eq foreign t.length t) i mem

end FieldList

/-! ### Chains -/

namespace Chain

theorem each_tokensWithin (depth : Nat) (t : Text) :
    ∀ token ∈ tokensWithin tokenizer depth t, token.Each fun u => u <:+: t ∧ IsTrimmed u := by
  have pieces : ∀ t : Text, ∀ token ∈ tokenizer.tokenize t,
      token.Each fun u => u <:+: t ∧ IsTrimmed u := by
    intro t token mem
    refine (Separation.each_isPiece symbols_eq foreign (t.length + 1) t token mem).imp ?_
    exact fun u piece => ⟨piece.isInfix rfl, piece.isTrimmed rfl⟩
  induction depth generalizing t with
  | zero => exact pieces t
  | succ depth ih =>
    intro token mem
    rw [tokensWithin] at mem
    split at mem
    · rename_i one single
      have piece := pieces t (.text one) (single ▸ List.mem_singleton_self _)
      split at mem
      · rename_i inner unwrapped
        cases piece with
        | text holds =>
          have inside : inner <:+: t :=
            (isInfix_of_unwrapped? unwrapped).trans ((isInfix_trim one).trans holds.1)
          exact (ih inner token mem).imp fun u part => ⟨part.1.trans inside, part.2⟩
      · rwa [List.mem_singleton.1 mem]
    · exact pieces t token mem

/-- **A token of a chain is an excerpt of it**, trimmed. -/
theorem each_tokens (t : Text) :
    ∀ token ∈ tokens t, token.Each fun u => u <:+: t ∧ IsTrimmed u :=
  each_tokensWithin t.length t

end Chain

/-! ### Forms -/

namespace Form

theorem isPrefix_splitAlias (t : Text) : (splitAlias t).1 <+: t := by
  rcases split : splitAlias t with ⟨body, a⟩
  cases a with
  | none => exact splitAlias_eq_of_none split ▸ List.prefix_rfl
  | some name =>
    obtain ⟨-, -, -, naming, -, rfl⟩ := exists_of_splitAlias split
    exact List.prefix_append body naming

/-- **The arguments of a call are an excerpt of it.** -/
theorem isInfix_of_call? {c : Call} (found : call? t = some c) : c.arguments <:+: t := by
  obtain ⟨name, gap, behind, tail, rfl, -, -, -, closed, -⟩ := exists_of_call? found
  rw [(exists_of_closingFrom? closed).1]
  exact ⟨name ++ (gap ++ ['(']), ')' :: tail, by simp⟩

/-- **The body of a case distinction is an excerpt of it.** -/
theorem isInfix_of_case? {c : Case} (found : case? t = some c) : c.body <:+: t := by
  obtain ⟨lead, word, gap, tail, rfl, -⟩ := exists_of_case? found
  exact ⟨(if c.opened then ['('] else []) ++ (lead ++ (word ++ gap)), tail, by
    simp only [List.append_assoc]⟩

end Form

/-- **The sides of a comparison are excerpts of it.** -/
theorem CmpOp.isInfix_of_split? {left right : Text} {op : CmpOp}
    (found : split? t = some (left, op, right)) : left <:+: t ∧ right <:+: t := by
  obtain ⟨spelling, mem, split⟩ := List.exists_of_findSome?_eq_some found
  obtain ⟨⟨left', right'⟩, split, same⟩ := Option.map_eq_some_iff.1 split
  cases same
  obtain ⟨rest, rfl, -, after⟩ := exists_of_splitFrom? split
  obtain ⟨word, -, rfl, -⟩ := exists_of_afterOperator? after
  exact ⟨(List.prefix_append _ _).isInfix,
    ((List.suffix_append _ _).trans (List.suffix_append _ _)).isInfix⟩

end RecordMapper
