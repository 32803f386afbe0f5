import RecordMapper.Proofs.Query.Excerpts

/-!
Weights of query texts and of their parts.

A `Weight` gives every character at least one and an ASCII character just that: the number of
characters of a text is a weight, and so is the number of its bytes. The tokenizers trim, leave
parentheses out, spell keywords as they are registered and write blanks as spaces, and none of that
adds weight. So **the parts of a text are no heavier than the text**, and lighter where something
between them was left out: an operand of a chain (`Chain.lt_of_operand`), what is left of a chain
once parentheses are unwrapped (`Chain.lt_of_unwrapped`), the arguments of a call, the parts of a
case distinction, and the sides of a comparison.
-/

namespace RecordMapper

open Text

/-! ### Weights -/

/-- A weight of characters. -/
structure Weight where
  ofChar : Char → Nat
  pos : ∀ c, 0 < ofChar c
  ascii : ∀ c, Text.IsAscii c → ofChar c = 1

namespace Weight

/-- The number of characters. -/
def chars : Weight where
  ofChar _ := 1
  pos _ := Nat.one_pos
  ascii _ _ := rfl

/-- The number of bytes. -/
def bytes : Weight where
  ofChar := Char.utf8Size
  pos c := c.utf8Size_pos
  ascii c ascii := by
    have small : c.toNat < 128 := ascii
    exact Char.utf8Size_eq_one_iff.2 (UInt32.le_iff_toNat_le.2 (Nat.le_of_lt_succ small))

variable (w : Weight) {x y t : Text}

/-- The weight of a text. -/
def of : Text → Nat
  | [] => 0
  | c :: t => w.ofChar c + of t

@[simp] theorem of_cons (c : Char) (t : Text) : w.of (c :: t) = w.ofChar c + w.of t :=
  rfl

@[simp] theorem of_append (x y : Text) : w.of (x ++ y) = w.of x + w.of y := by
  induction x with
  | nil => exact (Nat.zero_add _).symm
  | cons c x ih => rw [List.cons_append, of_cons, ih, of_cons, Nat.add_assoc]

theorem of_chars (t : Text) : chars.of t = t.length := by
  induction t with
  | nil => rfl
  | cons c t ih => rw [of_cons, ih, List.length_cons, Nat.add_comm]; rfl

theorem of_bytes (t : Text) : bytes.of t = t.bytes.length := by
  induction t with
  | nil => rfl
  | cons c t ih => rw [of_cons, ih, length_bytes_cons]; rfl

theorem length_le (t : Text) : t.length ≤ w.of t := by
  induction t with
  | nil => exact Nat.le_refl 0
  | cons c t ih =>
    have pos := w.pos c
    rw [of_cons, List.length_cons]
    omega

theorem of_pos (nonempty : t ≠ []) : 0 < w.of t :=
  Nat.lt_of_lt_of_le (List.length_pos_iff.2 nonempty) (w.length_le t)

theorem le_of_sublist (sub : List.Sublist x y) : w.of x ≤ w.of y := by
  induction sub with
  | slnil => exact Nat.le_refl 0
  | cons c _ ih => exact Nat.le_trans ih (Nat.le_add_left ..)
  | cons_cons c _ ih => exact Nat.add_le_add_left ih _

/-- What is left out weighs something. -/
theorem lt_of_sublist (sub : List.Sublist x y) (other : x ≠ y) : w.of x < w.of y := by
  induction sub with
  | slnil => exact absurd rfl other
  | cons c sub _ =>
    have rest := w.le_of_sublist sub
    have pos := w.pos c
    rw [of_cons]
    omega
  | cons_cons c _ ih =>
    have rest := ih fun same => other (congrArg (c :: ·) same)
    rw [of_cons, of_cons]
    omega

/-- A word weighs as much in any case. -/
theorem of_agree {ignoreCase : Bool} (ascii : ∀ a ∈ x, Text.IsAscii a)
    (agrees : List.Forall₂ (fun a b => agree ignoreCase a b = true) x y) : w.of y = w.of x := by
  induction agrees with
  | nil => rfl
  | @cons a b x y same _ ih =>
    obtain ⟨first, others⟩ := List.forall_mem_cons.1 ascii
    rw [of_cons, of_cons, ih others, w.ascii a first, w.ascii b (isAscii_of_agree first same)]

end Weight

/-! ### Scans -/

namespace Text

variable (w : Weight) (t : Text)

theorem trim_le : w.of t.trim ≤ w.of t :=
  w.le_of_sublist (isInfix_trim t).sublist

theorem flattenBlanksFrom_le (m : Mode) : w.of (flattenBlanksFrom m t) ≤ w.of t := by
  induction t generalizing m with
  | nil => exact Nat.le_refl 0
  | cons c t ih =>
    have rest := ih (m.after c)
    have space : w.ofChar ' ' = 1 := w.ascii ' ' (by decide)
    have pos := w.pos c
    rw [flattenBlanksFrom]
    split
    · rw [Weight.of_cons, Weight.of_cons]
      omega
    · exact Nat.add_le_add_left rest _

end Text

/-! ### Tokens -/

/-- A flat token is a part of the text that it stands for. -/
theorem Tokenizer.exists_flat_sublist (t : Tokenizer) (x : Text) :
    ∃ texts : List Text, t.flat x = texts.map Token.text ∧ List.Sublist texts.flatten x
      ∧ ∀ u ∈ texts, u ≠ [] := by
  rcases t.flat_cases x with none | ⟨y, one, part, nonempty, -⟩
  · exact ⟨[], none, List.nil_sublist x, nofun⟩
  · exact ⟨[y], one, by simpa using part.sublist, by simpa using nonempty⟩

namespace Separation

variable {s : Separation} {t : Tokenizer} {inner : Text → List Token} {whole : Text}
  {tokens : List Token}

/-- Every separator is ASCII. -/
def plain (s : Separation) : Bool :=
  s.separators.all fun separator => separator.all fun c => decide (Text.IsAscii c)

/-- **The tokens of a text are parts of it**, if there are no groups and separators are recognized
in their own spelling only. -/
theorem Divided.exists_texts (divided : Divided s t inner whole tokens)
    (ungrouped : s.groups = false) (exact : s.ignoreCase = false) :
    ∃ texts : List Text, tokens = texts.map Token.text ∧ List.Sublist texts.flatten whole
      ∧ ∀ u ∈ texts, u ≠ [] := by
  induction divided with
  | last x => exact t.exists_flat_sublist x
  | @separated x separator word rest tokens mem agrees _ _ ih =>
    obtain ⟨front, first, front_sub, front_nonempty⟩ := t.exists_flat_sublist x
    obtain ⟨mark, second, mark_sub, mark_nonempty⟩ := t.exists_flat_sublist separator
    obtain ⟨texts, rfl, sub, nonempty⟩ := ih
    rw [exact] at agrees
    obtain rfl := eq_of_forall₂_agree agrees
    refine ⟨front ++ mark ++ texts, by simp [first, second], ?_, ?_⟩
    · rw [List.flatten_append, List.flatten_append, List.append_assoc]
      exact front_sub.append (mark_sub.append sub)
    · intro u mem
      rcases List.mem_append.1 mem with mem | mem
      · rcases List.mem_append.1 mem with mem | mem
        · exact front_nonempty u mem
        · exact mark_nonempty u mem
      · exact nonempty u mem
  | grouped groups =>
    rw [ungrouped] at groups
    cases groups

/-- Without groups every token is flat. -/
theorem Divided.exists_text (divided : Divided s t inner whole tokens)
    (ungrouped : s.groups = false) : ∀ token ∈ tokens, ∃ u, token = .text u := by
  have flat : ∀ x, ∀ token ∈ t.flat x, ∃ u, token = .text u := by
    intro x token mem
    obtain ⟨texts, same, -⟩ := t.exists_flat_sublist x
    rw [same] at mem
    obtain ⟨u, -, rfl⟩ := List.mem_map.1 mem
    exact ⟨u, rfl⟩
  induction divided with
  | last x => exact flat x
  | separated _ _ _ _ ih =>
    exact List.forall_mem_append.2 ⟨List.forall_mem_append.2 ⟨flat _, flat _⟩, ih⟩
  | grouped groups =>
    rw [ungrouped] at groups
    cases groups

variable (w : Weight)

/-- A piece is no heavier than the text. -/
theorem le_of_isPiece (plain : s.plain = true) {whole u : Text} (piece : s.IsPiece t whole u) :
    w.of u ≤ w.of whole := by
  obtain ⟨x, excerpt, mem⟩ := piece
  refine Nat.le_trans (w.le_of_sublist (Tokenizer.of_mem_flat mem).1.sublist) ?_
  rcases excerpt with here | ⟨member, word, agrees, here⟩
  · exact w.le_of_sublist here.sublist
  · have ascii : ∀ a ∈ x, Text.IsAscii a := fun a letter => of_decide_eq_true
      (List.all_eq_true.1 (List.all_eq_true.1 plain x member) a letter)
    rw [← w.of_agree ascii agrees]
    exact w.le_of_sublist here.sublist

/-- **A flat token is no heavier than the text.** -/
theorem each_tokenizeWithin (layout : t.symbols = s.symbols) (foreign : s.foreign = true)
    (plain : s.plain = true) (depth : Nat) (text : Text) :
    ∀ token ∈ t.tokenizeWithin depth text, token.Each (w.of · ≤ w.of text) := fun token mem =>
  (each_isPiece layout foreign depth text token mem).imp fun _ => le_of_isPiece w plain

end Separation

variable (w : Weight)

/-- **An item is no heavier than the list.** -/
theorem FieldList.le_of_mem_items {t i : Text} (mem : i ∈ items t) : w.of i ≤ w.of t :=
  w.le_of_sublist (isInfix_of_mem_items mem).sublist

/-! ### Chains -/

namespace Chain

/-- The tokens of a chain are parts of it. -/
theorem exists_texts (t : Text) : ∃ texts : List Text, tokens t = texts.map Token.text
    ∧ List.Sublist texts.flatten t ∧ ∀ u ∈ texts, u ≠ [] := by
  rw [tokens, tokensBy]
  generalize t.length = depth
  induction depth generalizing t with
  | zero =>
    exact (Separation.divided_tokenizeWithin symbols_eq foreign t.length t).exists_texts rfl rfl
  | succ depth ih =>
    have divided := Separation.divided_tokenizeWithin symbols_eq foreign t.length t
    obtain ⟨texts, found, sub, nonempty⟩ := divided.exists_texts rfl rfl
    rw [tokensWithin]
    split
    · rename_i one single
      split
      · rename_i inner unwrapped
        obtain ⟨texts', same, sub', nonempty'⟩ := ih inner
        refine ⟨texts', same, sub'.trans ?_, nonempty'⟩
        have wrapped := ((isInfix_of_unwrapped? unwrapped).trans (isInfix_trim one)).sublist
        have whole : tokenizer.tokenize t = texts.map Token.text := found
        rw [single] at whole
        have length := congrArg List.length whole
        rw [List.length_map, List.length_singleton] at length
        obtain ⟨u, rfl⟩ := List.length_eq_one_iff.1 length.symm
        cases whole
        rw [List.flatten_singleton] at sub
        exact wrapped.trans sub
      · exact ⟨texts, single ▸ found, sub, nonempty⟩
    · exact ⟨texts, found, sub, nonempty⟩

/-- **An operand is lighter than the chain.** -/
theorem lt_of_operand {t : Text} {texts : List Text} (found : tokens t = texts.map Token.text)
    (several : 2 ≤ texts.length) {u : Text} (mem : u ∈ texts) : w.of u < w.of t := by
  obtain ⟨texts', same, sub, nonempty⟩ := exists_texts t
  obtain rfl : texts' = texts :=
    List.map_injective_iff.2 (fun _ _ same => Token.text.inj same) (same.symm.trans found)
  obtain ⟨front, back, rfl⟩ := List.append_of_mem mem
  have whole := w.le_of_sublist sub
  have heavy : ∀ part ⊆ front ++ u :: back, part ≠ [] → 0 < w.of part.flatten := by
    intro part among some
    obtain ⟨v, member⟩ := List.exists_mem_of_ne_nil part some
    exact Nat.lt_of_lt_of_le (w.of_pos (nonempty v (among member)))
      (w.le_of_sublist (List.sublist_flatten_of_mem member))
  simp only [List.flatten_append, List.flatten_cons, Weight.of_append] at whole
  rcases List.eq_nil_or_concat front with rfl | ⟨front, last, rfl⟩
  · have other : back ≠ [] := by
      rintro rfl
      simp at several
    have behind := heavy back (by simp) other
    omega
  · have before := heavy (front.concat last) (by simp) (by simp)
    omega

/-- **What is left of a chain that was unwrapped is lighter**: something was left out. -/
theorem lt_of_unwrapped {t inner : Text} (single : tokens t = [.text inner]) (other : inner ≠ t) :
    w.of inner < w.of t := by
  obtain ⟨texts, same, sub, -⟩ := exists_texts t
  obtain rfl : texts = [inner] :=
    List.map_injective_iff.2 (fun _ _ same => Token.text.inj same) (same.symm.trans single)
  rw [List.flatten_singleton] at sub
  exact w.lt_of_sublist sub other

end Chain

/-! ### Conditions -/

/-- **A comparison is no heavier than the condition.** -/
theorem Connected.each_tokens (t : Text) :
    ∀ token ∈ tokens t, token.Each (w.of · ≤ w.of t) :=
  Separation.each_tokenizeWithin w symbols_eq rfl rfl (t.length + 1) t

/-- **A side of a comparison is lighter than it.** -/
theorem CmpOp.lt_of_split? {t left right : Text} {op : CmpOp}
    (found : split? t = some (left, op, right)) : w.of left < w.of t ∧ w.of right < w.of t := by
  obtain ⟨spelling, mem, split⟩ := List.exists_of_findSome?_eq_some found
  obtain ⟨⟨left', right'⟩, split, same⟩ := Option.map_eq_some_iff.1 split
  cases same
  have nonempty : ∀ spelling ∈ spellings, spelling.1 ≠ [] := by decide
  obtain ⟨rest, rfl, -, after⟩ := exists_of_splitFrom? split
  obtain ⟨word, agrees, rfl, -⟩ := exists_of_afterOperator? after
  have length := List.length_pos_iff.2 (nonempty spelling mem)
  rw [agrees.length_eq] at length
  have pos := w.of_pos (List.length_pos_iff.1 length)
  rw [Weight.of_append, Weight.of_append]
  constructor <;> omega

/-! ### Forms -/

namespace Form

theorem le_of_splitAlias (t : Text) : w.of (splitAlias t).1 ≤ w.of t :=
  w.le_of_sublist (isPrefix_splitAlias t).sublist

/-- **The arguments of a call are lighter than it.** -/
theorem lt_of_call? {t : Text} {call : Call} (found : call? t = some call) :
    w.of call.arguments < w.of t := by
  obtain ⟨name, gap, behind, tail, rfl, isName, -, -, closed, -⟩ := exists_of_call? found
  have named := w.of_pos isName.isName.1
  rw [(exists_of_closingFrom? closed).1]
  simp only [Weight.of_append, Weight.of_cons]
  omega

/-- **The body of a case distinction is lighter than it**, by the word `CASE` at least. -/
theorem lt_of_case? {t : Text} {c : Case} (found : case? t = some c) :
    w.of c.body + 4 ≤ w.of t := by
  obtain ⟨lead, word, gap, tail, rfl, -, written, -⟩ := exists_of_case? found
  have opening := w.length_le word
  rw [written.length_eq, caseKeyword] at opening
  simp only [List.length_cons, List.length_nil] at opening
  simp only [Weight.of_append]
  omega

end Form

/-! ### Case distinctions -/

/-- **A part of a case distinction is lighter than it.** -/
theorem CaseBody.lt_of_mem_tokens {t : Text} {c : Form.Case} (found : Form.case? t = some c)
    {token : Token} (mem : token ∈ tokens c.body) : w.of token.print < w.of t := by
  have body := Form.lt_of_case? w found
  have flattened := flattenBlanksFrom_le w c.body .plain
  have space : w.ofChar ' ' = 1 := w.ascii ' ' (by decide)
  have divided := Separation.divided_tokenizeWithin symbols_eq rfl
    (' ' :: flattenBlanks c.body).length (' ' :: flattenBlanks c.body)
  have each := Separation.each_tokenizeWithin w symbols_eq rfl rfl
    ((' ' :: flattenBlanks c.body).length + 1) (' ' :: flattenBlanks c.body) token mem
  obtain ⟨u, rfl⟩ := divided.exists_text rfl token mem
  cases each with
  | text le =>
    rw [Weight.of_cons, flattenBlanks] at le
    rw [Token.print]
    omega

end RecordMapper
