import RecordMapper.Proofs.Query.Composition
import RecordMapper.Proofs.Query.NestedChain
import RecordMapper.Proofs.Query.Retention
import RecordMapper.Proofs.Query.SpacedForm

/-!
Redundant parentheses.

A condition in parentheses is one group of tokens, which is read as the tokens in it
(`Grammar.condition_parenthesized`). For an expression it is the rule for chains that takes them
off, whatever rule reads the text without them:

* The tokens of a text in parentheses are those of the text (`Chain.tokens_parenthesized`).
* A text that no operator divides is the only token then, which is read by itself.
* A text that one divides has at least three tokens (`Chain.three_le_length_tokens`). No other rule
  reads it, so it is a chain without parentheses as well (`Grammar.chain?_of_division`), if its alias
  is not split off: in parentheses that would go to the last operand.
* A text in parentheses of its own is neither a call nor a case distinction
  (`Grammar.chain?_of_unwrapped`): what is in them would be a case distinction alone, which the rule
  for chains, tried before, reads as well.

So **redundant parentheses change nothing** (`Parser.reads_parenthesized`).
-/

namespace RecordMapper

open Text

/-! ### Texts in parentheses -/

namespace Text

/-- The text in so many pairs of parentheses. -/
def parenthesize : (pairs : Nat) → Text → Text
  | 0, t => t
  | pairs + 1, t => '(' :: (parenthesize pairs t ++ [')'])

variable {t : Text}

theorem isTrimmed_parenthesized (t : Text) : IsTrimmed ('(' :: (t ++ [')'])) := by
  refine ⟨List.cons_ne_nil _ _, ?_, ?_⟩
  · rintro c ⟨⟩
    rfl
  · rw [← List.cons_append, List.getLast?_concat]
    rintro c ⟨⟩
    rfl

/-- A text that starts and ends with a word is trimmed. -/
theorem isTrimmed_of_words {x : Text} (start : ∃ d y, x = d :: y ∧ isWord d = true)
    (stop : ∃ y d, x = y ++ [d] ∧ isWord d = true) : IsTrimmed x := by
  have solid : ∀ {c : Char}, isWord c = true → isBlank c = false := by
    intro c word
    rw [← Bool.not_eq_true]
    intro blank
    rw [isWord_of_isBlank blank] at word
    cases word
  obtain ⟨d, y, rfl, first⟩ := start
  obtain ⟨z, e, same, last⟩ := stop
  refine ⟨List.cons_ne_nil d y, fun c mem => ?_, fun c mem => ?_⟩
  · cases mem
    exact solid first
  · rw [same, List.getLast?_concat] at mem
    cases mem
    exact solid last

/-- What does not end in a blank is not blank behind any space. -/
theorem not_forall_isBlank (front : Text) {x : Text}
    (stop : ∀ c ∈ (front ++ ' ' :: x).getLast?, isBlank c = false) :
    ¬ ∀ c ∈ x, isBlank c = true := by
  intro blank
  have all : ∀ c ∈ ' ' :: x, isBlank c = true := List.forall_mem_cons.2 ⟨rfl, blank⟩
  rw [List.getLast?_append_of_ne_nil _ (List.cons_ne_nil _ _)] at stop
  have last := stop _ (List.getLast?_eq_some_getLast (List.cons_ne_nil ' ' x))
  rw [all _ (List.getLast_mem _)] at last
  cases last

/-- What is well nested is so in front of a parenthesis that closes it. -/
theorem Nested.enclosed (nested : Nested [] none t []) : Nested [] none t [')'] :=
  Nested.of_stop (x := []) nested isStop_nil (isStop_cons rfl (by decide) []) nofun

theorem nested_parenthesized (nested : Nested [] none t []) :
    Nested [] none ('(' :: (t ++ [')'])) [] :=
  .group nested.enclosed .nil

theorem nested_parenthesize (nested : Nested [] none t []) (pairs : Nat) :
    Nested [] none (parenthesize pairs t) [] := by
  induction pairs with
  | zero => exact nested
  | succ pairs ih => exact nested_parenthesized ih

/-- What parentheses around a well-nested text are taken off is well nested. -/
theorem Nested.of_unwrapped {inner : Text} (nested : Nested [] none t [])
    (found : unwrapped? t = some inner) : Nested [] none inner [] := by
  obtain ⟨whole, closed⟩ := exists_of_unwrapped? found
  cases nested with
  | nil => cases whole
  | char loose _ _ _ _ => exact absurd (List.cons.inj whole).1 loose.2.1
  | literal _ _ => cases (List.cons.inj whole).1
  | field _ _ => cases (List.cons.inj whole).1
  | @group _ _ contents back _ enclosed _ =>
    have same : contents ++ ')' :: back = inner ++ [')'] := (List.cons.inj whole).2
    have closes := closing?_nested enclosed
    rw [List.append_nil, same, closed] at closes
    cases closes
    exact Nested.of_stop (x := []) enclosed (isStop_cons rfl (by decide) _) isStop_nil nofun
  | case opens _ _ _ _ _ =>
    obtain ⟨c, opening, rfl, first⟩ := exists_cons_of_sameLetters opens
    obtain ⟨rfl, -⟩ := List.cons.inj whole
    cases first

end Text

/-! ### Tokens -/

/-- **Parentheses around a condition make its tokens a group.** -/
theorem Connected.tokens_parenthesized {t : Text} (nested : Nested [] none t []) :
    tokens ('(' :: (t ++ [')'])) = [.nested (tokens t)] := by
  have encloses : Span.Encloses t [] := fun p => p.close?_nested nested.enclosed
  have taken := run_group (tokenizer.tokenizeWithin ('(' :: (t ++ [')'])).length) encloses rfl
  rw [List.append_nil] at taken
  have enough : t.length < ('(' :: (t ++ [')'])).length := by
    simp only [List.length_cons, List.length_append]
    omega
  rw [tokens, Tokenizer.tokenize, Tokenizer.tokenizeWithin, taken,
    Separation.tokenizeWithin_eq symbols_eq enough (Nat.lt_succ_self _)]
  rfl

namespace Chain

variable {t x y : Text} {op : MathOp}

/-- More depth than a text has characters changes nothing. -/
theorem tokensWithin_succ {depth : Nat} (enough : t.length ≤ depth) :
    tokensWithin tokenizer (depth + 1) t = tokensWithin tokenizer depth t := by
  induction depth generalizing t with
  | zero =>
    obtain rfl := List.length_eq_zero_iff.1 (Nat.le_zero.1 enough)
    rfl
  | succ depth ih =>
    rw [tokensWithin, tokensWithin]
    split
    · rename_i one single
      split
      · rename_i inner unwrapped
        have each := Separation.each_tokenizeWithin .chars symbols_eq foreign rfl (t.length + 1) t
        have whole : tokenizer.tokenizeWithin (t.length + 1) t = [.text one] := single
        rw [whole] at each
        obtain ⟨le⟩ := each _ (List.mem_singleton_self _)
        have trimmed := (isInfix_trim one).length_le
        rw [(exists_of_unwrapped? unwrapped).1, List.length_cons, List.length_append] at trimmed
        rw [Weight.of_chars, Weight.of_chars] at le
        exact ih (by omega)
      · rfl
    · rfl

theorem tokensWithin_eq {depth : Nat} (enough : t.length ≤ depth) :
    tokensWithin tokenizer depth t = tokens t := by
  induction depth, enough using Nat.le_induction with
  | base => rfl
  | succ depth le ih => rw [tokensWithin_succ le, ih]

/-- Text in which no operator has a space on both sides is one token. -/
theorem tokenize_undivided (nested : NestedWith Undivided none t []) :
    tokenizer.tokenize t = tokenizer.flat t :=
  Tokenizer.run_last (passes_undivided nested).1

/-- **The tokens of a text in parentheses are those of the text.** -/
theorem tokens_parenthesized (nested : Nested [] none t []) :
    tokens ('(' :: (t ++ [')'])) = tokens t := by
  have whole : tokenizer.tokenize ('(' :: (t ++ [')'])) = [.text ('(' :: (t ++ [')']))] := by
    rw [tokenize_undivided (.group nested.enclosed .nil)]
    exact Tokenizer.flat_trimmed rfl (isTrimmed_parenthesized t)
  have enough : t.length ≤ (t ++ [')']).length := by simp
  rw [tokens, tokensBy, List.length_cons, tokensWithin, whole]
  simp only [(isTrimmed_parenthesized t).trim_eq, unwrapped?_nested nested.enclosed]
  exact tokensWithin_eq enough

/-! ### Divisions -/

/-- The text in front of an operator between two spaces is the first token of a chain. -/
def Divides (op : MathOp) (x y : Text) : Prop :=
  NestedWith Undivided none (x ++ [' ']) (op.symbol :: ' ' :: y)

/-- **A well-nested text is one token or it is divided at an operator.** -/
theorem exists_division (nested : Nested [] none t []) :
    NestedWith Undivided none t [] ∨ ∃ x, ∃ op : MathOp, ∃ y,
      t = x ++ ' ' :: op.symbol :: ' ' :: y ∧ Divides op x y
        ∧ Nested [] (some op.symbol) (' ' :: y) [] := by
  rcases nestedWith_or_exists Undivided nested with all | ⟨x, c, y, rfl, front, stop, back⟩
  · exact .inl all
  · simp only [Undivided, not_forall, not_not] at stop
    obtain ⟨op, space, same, behind⟩ := stop
    rw [List.append_nil] at front same behind
    obtain rfl : c = op.symbol := Option.some.inj same
    obtain ⟨y, rfl⟩ := List.head?_eq_some_iff.1 behind
    cases x using List.reverseRec with
    | nil => cases space
    | append_singleton x d _ =>
      rw [lastFrom_concat] at space
      cases space
      exact .inr ⟨x, op, y, by simp, front, back⟩

/-- What is behind the operator does not matter. -/
theorem Divides.change (divides : Divides op x y) (z : Text) : Divides op x z := by
  have stop : ∀ y, IsStop (op.symbol :: ' ' :: y) :=
    fun y => isStop_cons op.symbol_other.1 (by cases op <;> decide) _
  refine divides.of_stop (stop y) (stop z) fun {before c t} free _ => ?_
  cases t with
  | nil => exact free
  | cons d t => exact free

/-- **At a division the current token ends.** -/
theorem run_division {inner : Text → List Token} (divides : Divides op x y) :
    tokenizer.run inner [] .read (x ++ ' ' :: op.symbol :: ' ' :: y)
      = tokenizer.flat x ++ .text [op.symbol] :: tokenizer.run inner [] .read y := by
  have passes : tokenizer.Passes inner [] (x ++ [' ']) _ := (passes_undivided divides).1
  have split : x ++ ' ' :: op.symbol :: ' ' :: y = x ++ [' '] ++ op.symbol :: ' ' :: y := by simp
  have reversed : (x ++ [' ']).reverse ++ [] = ' ' :: x.reverse := by simp
  rw [split, passes, reversed, run_sign, List.reverse_reverse]

/-- There is a token, if there is something else than blanks. -/
theorem run_ne_nil {depth : Nat} (enough : y.length ≤ depth) {c : Char} (mem : c ∈ y)
    (solid : isBlank c = false) :
    tokenizer.run (tokenizer.tokenizeWithin depth) [] .read y ≠ [] := by
  intro none
  -- the tokens keep all characters that are not blank
  have kept := Separation.squashAll_tokenizeWithin symbols_eq foreign (t := tokenizer) rfl
    (Nat.lt_succ_of_le enough)
  rw [Tokenizer.tokenizeWithin, none] at kept
  have lost : c.toUpper ∈ squash y :=
    List.mem_map_of_mem (List.mem_filter.2 ⟨mem, by simp [solid]⟩)
  rw [← kept] at lost
  cases lost

/-- **A chain is more than two tokens**, if there is something on both sides of the operator. -/
theorem three_le_length_tokens (divides : Divides op x y) (front : ¬ ∀ c ∈ x, isBlank c = true)
    (back : ¬ ∀ c ∈ y, isBlank c = true) :
    3 ≤ (tokens (x ++ ' ' :: op.symbol :: ' ' :: y)).length := by
  simp only [not_forall, Bool.not_eq_true] at front back
  obtain ⟨c, mem, solid⟩ := front
  obtain ⟨c', mem', solid'⟩ := back
  have first := List.length_pos_iff.2
    (Tokenizer.flat_ne_nil_of_mem (t := tokenizer) rfl mem solid)
  have last : ∀ depth, y.length ≤ depth →
      0 < (tokenizer.run (tokenizer.tokenizeWithin depth) [] .read y).length :=
    fun depth enough => List.length_pos_iff.2 (run_ne_nil enough mem' solid')
  have divided : tokenizer.tokenize (x ++ ' ' :: op.symbol :: ' ' :: y) = _ := run_division divides
  have enough := last (x ++ ' ' :: op.symbol :: ' ' :: y).length (by
    simp only [List.length_append, List.length_cons]
    omega)
  have lengths := congrArg List.length divided
  rw [List.length_append, List.length_cons] at lengths
  rw [tokens_eq_tokenize fun one single => ?_]
  · omega
  · rw [single, List.length_singleton] at lengths
    omega

/-- **Between words, a well-nested text is one token or more than two.** -/
theorem tokens_between_words (nested : Nested [] none t []) {lead trail : Text}
    (whole : t = lead ++ (x ++ trail)) (blank : ∀ d ∈ lead, isBlank d = true)
    (blank' : ∀ d ∈ trail, isBlank d = true) (start : ∃ d y, x = d :: y ∧ isWord d = true)
    (stop : ∃ y d, x = y ++ [d] ∧ isWord d = true) :
    tokens t = [.text x] ∨ 3 ≤ (tokens t).length := by
  have trimmed := isTrimmed_of_words start stop
  obtain ⟨d, x', here, first⟩ := start
  obtain ⟨x'', e, here', last⟩ := stop
  rcases exists_division nested with undivided | ⟨y, op, z, split, divides, -⟩
  · have single : tokenizer.tokenize t = [.text x] := by
      rw [tokenize_undivided undivided, whole]
      exact Tokenizer.flat_of_blanks rfl trimmed blank blank'
    left
    rw [← single]
    apply tokens_eq_tokenize
    intro one same
    rw [single] at same
    cases same
    rw [trimmed.trim_eq, here]
    refine unwrapped?_cons_eq_none ?_ x'
    rintro rfl
    cases first
  · obtain ⟨other, visible, -, -⟩ := op.symbol_other
    right
    rw [split]
    rw [split] at whole
    apply three_le_length_tokens divides
    · -- otherwise the text would start with the operator
      intro blanks
      have front : ∀ c ∈ y ++ [' '], isBlank c = true :=
        List.forall_mem_append.2 ⟨blanks, List.forall_mem_singleton.2 rfl⟩
      have left : trimStart (y ++ ' ' :: op.symbol :: ' ' :: z) = op.symbol :: ' ' :: z := by
        have split : y ++ ' ' :: op.symbol :: ' ' :: z = y ++ [' '] ++ op.symbol :: ' ' :: z := by
          simp
        rw [split]
        refine dropWhile_isBlank_append front fun c mem => ?_
        cases mem
        exact visible
      rw [whole, trimmed.trimStart_append blank, here] at left
      obtain ⟨rfl, -⟩ := List.cons.inj left
      rw [first] at other
      cases other
    · -- otherwise the operator would stand behind the last word
      intro blanks
      have outside : e ∉ op.symbol :: ' ' :: z := by
        simp only [List.mem_cons, not_or]
        refine ⟨?_, ?_, fun mem => ?_⟩
        · rintro rfl
          rw [last] at other
          cases other
        · rintro rfl
          cases last
        · rw [isWord_of_isBlank (blanks e mem)] at last
          cases last
      have same : lead ++ x'' ++ e :: trail = y ++ [' '] ++ op.symbol :: ' ' :: z := by
        simp [whole, here']
      obtain ⟨w, -, behind⟩ := exists_of_not_mem same outside
      rw [blank' op.symbol (by simp [behind])] at visible
      cases visible

end Chain

/-! ### Case distinctions -/

namespace Form

/-- **What is made like a case distinction is read as one**, if nothing behind the body ends one
later. -/
theorem case?_of_parts {word gap body tail : Text} (written : IsWritten caseKeyword word)
    (blanks : IsBlanks gap) (start : ∀ d ∈ body.head?, isBlank d = false) {closed : Bool}
    {a : Option String} (last : lastCaseEnding? tail = some ([], closed, a)) :
    case? (word ++ (gap ++ (body ++ tail))) = some ⟨false, body, closed, a⟩ := by
  obtain ⟨⟨d, w, rfl, isWord⟩, -⟩ :=
    written.exists_ends letters_caseKeyword (List.cons_ne_nil _ _)
  have unopened : ∀ rest, d :: w ++ (gap ++ (body ++ tail)) ≠ '(' :: rest := by
    rintro rest same
    obtain ⟨rfl, -⟩ := List.cons.inj same
    cases isWord
  have trimmed : Text.trimStart (d :: w ++ (gap ++ (body ++ tail)))
      = d :: w ++ (gap ++ (body ++ tail)) := by
    refine trimStart_of_start fun c mem => ?_
    cases mem
    exact written.isBlank letters_caseKeyword d (List.mem_cons_self ..)
  have found := lastCaseEnding?_later last (gap ++ body)
  rw [List.append_nil, List.append_assoc] at found
  have inside : trimStart (gap ++ body) = body := dropWhile_isBlank_append blanks.2 start
  have taken := drop_takeWhile_append (gap ++ body) tail
  rw [inside, List.append_assoc] at taken
  rw [case?_unopened unopened, caseBehind?, trimmed, afterWord?_of_written written,
    Option.bind_some, found, Option.bind_some]
  simp only [taken]
  obtain ⟨c, gap, rfl⟩ := List.exists_cons_of_ne_nil blanks.1
  simp [blanks.2 c (List.mem_cons_self ..)]

/-- `END` behind a blank ends a case distinction, and nothing behind the blank does. -/
theorem lastCaseEnding?_written {c : Char} (blank : isBlank c = true) {word : Text}
    (written : IsWritten endKeyword word) :
    lastCaseEnding? (c :: word) = some ([], false, none) := by
  have later : lastCaseEnding? (word ++ []) = none :=
    lastCaseEnding?_visible (written.isBlank letters_endKeyword) rfl
  have here : caseEnding? (c :: word) = some (false, none) := by
    have read := afterWord?_of_written written []
    rw [List.append_nil] at read
    rw [caseEnding?_cons blank, read]
    rfl
  rw [List.append_nil] at later
  rw [lastCaseEnding?, later, here]
  rfl

/-- **A case distinction that parentheses wrap is one without them**, and it starts and ends with a
word. -/
theorem exists_of_case?_parenthesized {t : Text} {c : Case}
    (found : case? ('(' :: (t ++ [')'])) = some c) (both : c.opened = c.closed) :
    ∃ lead x trail, t = lead ++ (x ++ trail) ∧ (∀ d ∈ lead, isBlank d = true)
      ∧ (∀ d ∈ trail, isBlank d = true)
      ∧ (∃ d y, x = d :: y ∧ isWord d = true) ∧ (∃ y d, x = y ++ [d] ∧ isWord d = true)
      ∧ case? x = some ⟨false, c.body, false, none⟩ := by
  obtain ⟨lead, word, gap, tail, whole, blank, written, blanks, start, ending⟩ :=
    exists_of_case? found
  obtain ⟨b, word', rest, rfl, blank', written', form⟩ := exists_of_caseEnding? ending
  obtain ⟨⟨d, w, rfl, first⟩, -⟩ :=
    written.exists_ends letters_caseKeyword (List.cons_ne_nil _ _)
  obtain ⟨-, y, e, rfl, last⟩ := written'.exists_ends letters_endKeyword (List.cons_ne_nil _ _)
  have opened : c.opened = true := by
    cases opened : c.opened with
    | true => rfl
    | false =>
      rw [opened] at whole
      cases lead with
      | nil =>
        obtain ⟨rfl, -⟩ := List.cons.inj whole
        cases first
      | cons d lead =>
        obtain ⟨rfl, -⟩ := List.cons.inj whole
        cases blank '(' (List.mem_cons_self ..)
  rw [opened] at whole both
  rw [← both] at form
  obtain ⟨unclosed, -⟩ | ⟨-, trail, behind, rfl, blank'', named⟩ := form
  · cases unclosed
  -- nothing stands behind the parenthesis that closes it, since an alias holds none
  have split : t ++ ')' :: [] = lead ++ (d :: w ++ (gap ++ (c.body ++ b :: (y ++ [e] ++ trail))))
      ++ [')'] ++ behind := by
    have inside := (List.cons.inj whole).2
    rw [inside]
    simp
  have outside : ')' ∉ behind := by
    intro mem
    rcases mem_of_ending? named _ mem with blank | word
    · cases blank
    · cases word
  obtain ⟨z, same, nothing⟩ := exists_of_not_mem split outside
  obtain ⟨rfl, rfl⟩ := List.append_eq_nil_iff.1 nothing.symm
  refine ⟨lead, d :: w ++ (gap ++ (c.body ++ b :: (y ++ [e]))), trail, ?_, blank, blank'',
    ⟨d, _, rfl, first⟩, ⟨d :: w ++ (gap ++ (c.body ++ b :: y)), e, by simp, last⟩, ?_⟩
  · rw [← (List.append_inj' same rfl).1]
    simp
  · exact case?_of_parts written blanks start (lastCaseEnding?_written blank' written')

end Form

/-! ### Rules -/

namespace Grammar

variable {parse : Text → Result Expr} {t u : Text}

/-- **A condition in parentheses is read as the condition.** -/
theorem condition_parenthesized {bindings : Option Bindings} (nested : Nested [] none t []) :
    condition bindings parse ('(' :: (t ++ [')'])) = condition bindings parse t := by
  rw [condition, Connected.tokens_parenthesized nested, conditionOfTokens, conditionOfToken]
  rfl

theorem splitAlias_parenthesized (t : Text) :
    Form.splitAlias ('(' :: (t ++ [')'])) = ('(' :: (t ++ [')']), none) :=
  Form.splitAlias_of_mark (t := '(' :: t) rfl

/-- What an operand is read as does not depend on the chain. -/
theorem operand_eq_ok {whole whole' : Text} {e : Expr} (read : operand parse whole t = .ok e) :
    operand parse whole' t = .ok e := by
  rw [operand] at read ⊢
  split at read
  · cases read
  · rename_i other
    rwa [if_neg other]

theorem links_eq_ok {whole whole' : Text} {texts : List Text} {rest : List (Option MathOp × Expr)}
    (read : links parse whole texts = .ok rest) : links parse whole' texts = .ok rest := by
  induction texts using links.induct generalizing rest with
  | case1 sign t texts noSign =>
    rw [links, noSign] at read
    cases read
  | case2 sign t texts op isSign ih =>
    rw [links, isSign] at read ⊢
    obtain ⟨e, first, more⟩ := Result.exists_of_bind read
    obtain ⟨others, behind, last⟩ := Result.exists_of_bind more
    exact Result.bind_eq_ok_iff.2 ⟨e, operand_eq_ok first,
      Result.bind_eq_ok_iff.2 ⟨others, ih behind, last⟩⟩
  | case3 texts other =>
    rw [links.eq_2 _ _ _ other] at read ⊢
    exact read

/-- A text that is one token, without its parentheses. -/
theorem chain?_of_single {inner : Text} (split : Form.splitAlias t = (t, none))
    (tokens : Chain.tokens t = [.text inner]) (other : inner ≠ t) :
    chain? parse t = (do
      let e ← parse inner
      .ok (if e.isRaw then none else some e)) := by
  rw [chain?, split]
  simp only [tokens, if_neg other]
  rfl

/-- More than two tokens are the operands and operators of a chain, or they are not read. -/
theorem exists_operands_of_chain? {body : Text} {a : Option Text}
    (split : Form.splitAlias t = (body, a)) (several : 3 ≤ (Chain.tokens body).length)
    {found : Option Expr} (read : chain? parse t = .ok found) :
    ∃ x texts e others, Chain.tokens body = (x :: texts).map .text ∧ texts.length % 2 = 0
      ∧ operand parse t x = .ok e ∧ links parse t texts = .ok others
      ∧ found = some (.math ((none, e) :: others) (a.map String.ofList)) := by
  obtain ⟨_ | ⟨x, texts⟩, tokens, -⟩ := Chain.exists_texts body
  · rw [tokens] at several
    cases several
  rw [tokens, List.length_map, List.length_cons] at several
  rw [chain?, split] at read
  simp only [tokens, mapM_text?, List.length_map, List.length_cons] at read
  rw [if_neg (by omega)] at read
  split at read
  · cases read
  · obtain ⟨e, first, read⟩ := Result.exists_of_bind read
    obtain ⟨others, behind, read⟩ := Result.exists_of_bind read
    cases read
    exact ⟨x, texts, e, others, tokens, by omega, first, behind, rfl⟩

/-- More than two tokens are a chain or none at all. -/
theorem exists_of_chain? {body : Text} {a : Option Text} (split : Form.splitAlias t = (body, a))
    (several : 3 ≤ (Chain.tokens body).length) {found : Option Expr}
    (read : chain? parse t = .ok found) :
    ∃ operands, found = some (.math operands (a.map String.ofList)) := by
  obtain ⟨_, _, e, others, -, -, -, -, rfl⟩ := exists_operands_of_chain? split several read
  exact ⟨_, rfl⟩

/-- Fewer tokens are no chain, but a token from which parentheses were taken off. -/
theorem exists_of_short {body : Text} {a : Option Text} (split : Form.splitAlias t = (body, a))
    (short : (Chain.tokens body).length < 3) {e : Expr} (read : chain? parse t = .ok (some e)) :
    a = none ∧ ∃ inner, Chain.tokens body = [.text inner] ∧ parse inner = .ok e
      ∧ e.isRaw = false := by
  rw [chain?, split] at read
  simp only [if_pos short] at read
  split at read
  · rename_i inner single
    split at read
    · cases read
    obtain ⟨e', found, same⟩ := Result.exists_of_bind read
    cases raw : e'.isRaw with
    | true =>
      rw [raw, if_pos rfl] at same
      cases same
    | false =>
      rw [raw, if_neg Bool.false_ne_true] at same
      cases same
      exact ⟨rfl, inner, single, found, raw⟩
  · cases read

/-- Fewer tokens are no chain, if there is an alias. -/
theorem chain?_of_short {body name : Text} (split : Form.splitAlias t = (body, some name))
    (short : (Chain.tokens body).length < 3) : chain? parse t = .ok none := by
  rw [chain?, split]
  simp only [if_pos short]
  split
  · rename_i none
    cases none
  · rfl

/-- **What no rule applies to is raw**, and nothing else is. -/
theorem rules_of_raw {bindings : Option Bindings} {e : Expr}
    (read : expression bindings parse t = .ok e) (raw : e.isRaw = true) :
    chain? parse t.trim = .ok none ∧ call? parse t.trim = .ok none
      ∧ case? bindings parse t.trim = .ok none := by
  cases readBy_of_expression read with
  | field found => cases raw
  | bound found =>
    obtain ⟨_, _, rfl⟩ := exists_var_of_bound? found
    cases raw
  | scalar found =>
    obtain ⟨_, _, rfl⟩ := exists_value_of_scalar? found
    cases raw
  | chain found =>
    rcases split : Form.splitAlias t.trim with ⟨body, a⟩
    by_cases several : 3 ≤ (Chain.tokens body).length
    · obtain ⟨operands, same⟩ := exists_of_chain? split several found
      cases same
      cases raw
    · obtain ⟨-, inner, -, -, known⟩ := exists_of_short split (by omega) found
      rw [known] at raw
      cases raw
  | call _ found =>
    obtain ⟨_, _, _, _, rfl⟩ := exists_func_of_call? found
    cases raw
  | case _ _ found =>
    obtain ⟨_, _, _, -, -, rfl⟩ := exists_parts_of_case? found
    cases raw
  | raw noChain noCall noCase => exact ⟨noChain, noCall, noCase⟩

/-- **Chains with the same tokens are read alike**, if the one is no token of the other. -/
theorem chain?_of_tokens_eq (split : Form.splitAlias t = (t, none))
    (split' : Form.splitAlias u = (u, none)) (same : Chain.tokens u = Chain.tokens t)
    (longer : t.length < u.length) {e : Expr} (read : chain? parse t = .ok (some e)) :
    chain? parse u = .ok (some e) := by
  by_cases short : (Chain.tokens t).length < 3
  · obtain ⟨-, inner, single, found, known⟩ := exists_of_short split short read
    have other : inner ≠ u := by
      rintro rfl
      obtain ⟨texts, all, sub, -⟩ := Chain.exists_texts t
      obtain rfl : texts = [inner] :=
        List.map_injective_iff.2 (fun _ _ same => Token.text.inj same) (all.symm.trans single)
      have le := sub.length_le
      rw [List.flatten_singleton] at le
      omega
    rw [chain?_of_single split' (same.trans single) other, found]
    exact congrArg Except.ok (if_neg (Bool.not_eq_true _ ▸ known))
  · rw [chain?, split] at read
    rw [chain?, split']
    simp only [same, if_neg short] at read ⊢
    split at read
    · cases read
    rename_i odd
    rw [if_neg odd]
    split at read
    · obtain ⟨e, head, read⟩ := Result.exists_of_bind read
      obtain ⟨others, behind, last⟩ := Result.exists_of_bind read
      exact Result.bind_eq_ok_iff.2 ⟨e, operand_eq_ok head,
        Result.bind_eq_ok_iff.2 ⟨others, links_eq_ok behind, last⟩⟩
    · cases read

/-! ### Reading in parentheses -/

section Known

variable (trimmed : IsTrimmed t) {e : Expr} (read : expression none parse t = .ok e)
  (known : e.isRaw = false)
include trimmed read known

/-- A text that is no field reference and no literal is a chain, a call or a case distinction, if it
is not raw. -/
theorem rules_of_known (noField : Form.field? t = none) (noLiteral : Form.literal? t = none) :
    chain? parse t = .ok (some e) ∨ chain? parse t = .ok none
      ∧ (call? parse t = .ok (some e) ∨ case? none parse t = .ok (some e)) := by
  have rule := readBy_of_expression read
  rw [trimmed.trim_eq] at rule
  cases rule with
  | field found =>
    rw [noField] at found
    cases found
  | bound found => cases found
  | scalar found =>
    have none : scalar? none t = .ok none := scalar?_of_literal noLiteral
    rw [none] at found
    cases found
  | chain found => exact .inl found
  | call noChain found => exact .inr ⟨noChain, .inl found⟩
  | case noChain _ found => exact .inr ⟨noChain, .inr found⟩
  | raw _ _ _ => cases known

/-- Text that is divided at an operator is read by the rule for chains, unless it is a chain with an
alias. -/
theorem chain?_of_division (bare : ∀ operands a, e ≠ .math operands (some a)) {x y : Text}
    {op : MathOp} (split : t = x ++ ' ' :: op.symbol :: ' ' :: y) (divides : Chain.Divides op x y)
    (behind : Nested [] (some op.symbol) (' ' :: y) []) :
    Form.splitAlias t = (t, none) ∧ chain? parse t = .ok (some e) := by
  have apart : t = x ++ [' '] ++ op.symbol :: ' ' :: y := by simp [split]
  have front : ¬ ∀ c ∈ x, isBlank c = true := by
    intro blank
    have first : ∃ c ∈ t.head?, isBlank c = true := by
      rw [split]
      cases x with
      | nil => exact ⟨' ', rfl, rfl⟩
      | cons c x => exact ⟨c, rfl, blank c (List.mem_cons_self ..)⟩
    obtain ⟨c, head, blank⟩ := first
    rw [trimmed.start c head] at blank
    cases blank
  have noField : Form.field? t = none := Form.field?_eq_none_of_symbol op (by simp [split])
  have noLiteral : Form.literal? t = none := by
    rw [apart]
    exact Form.literal?_eq_none_of_symbol op divides (by simp)
  have rules := rules_of_known trimmed read known noField noLiteral
  rcases ends : Form.splitAlias t with ⟨body, _ | name⟩
  · obtain rfl := Form.splitAlias_eq_of_none ends
    have back : ¬ ∀ c ∈ y, isBlank c = true := by
      refine not_forall_isBlank (x ++ [' ', op.symbol]) fun c mem => trimmed.stop c ?_
      rw [split]
      simpa using mem
    have several := Chain.three_le_length_tokens divides front back
    rw [← split] at several
    rcases rules with found | ⟨noChain, -⟩
    · exact ⟨rfl, found⟩
    · obtain ⟨operands, same⟩ := exists_of_chain? ends several noChain
      cases same
  · exfalso
    have short : (Chain.tokens body).length < 3 := by
      by_contra several
      rcases rules with found | ⟨noChain, -⟩
      · obtain ⟨operands, same⟩ := exists_of_chain? ends (Nat.le_of_not_lt several) found
        exact bare operands _ (Option.some.inj same)
      · obtain ⟨operands, same⟩ := exists_of_chain? ends (Nat.le_of_not_lt several) noChain
        cases same
    obtain ⟨-, -, last, naming, named, whole⟩ := Form.exists_of_splitAlias ends
    rw [apart] at whole
    obtain ⟨z, rfl, rest⟩ := exists_of_not_mem whole (named.not_mem_symbol op)
    cases z with
    | nil =>
      -- nothing but the alias stands behind the operator, and no rule applies
      obtain rfl : ' ' :: y = naming := rest
      rcases rules with found | ⟨-, found | found⟩
      · rw [chain?_of_short ends short] at found
        cases found
      · rw [call?, apart, Form.call?_eq_none_of_symbol op named] at found
        cases found
      · rw [case?, apart, Form.case?_eq_none_of_symbol op named behind] at found
        cases found
    | cons d z =>
      -- in front of the alias stands a chain
      obtain ⟨rfl, rfl⟩ := List.cons.inj rest
      have back : ¬ ∀ c ∈ z, isBlank c = true :=
        not_forall_isBlank (x ++ [' ', op.symbol]) fun c mem => last c (by simpa using mem)
      have several := Chain.three_le_length_tokens (divides.change z) front back
      have body : x ++ [' '] ++ op.symbol :: ' ' :: z = x ++ ' ' :: op.symbol :: ' ' :: z := by simp
      rw [body] at short
      omega

variable (nested : Nested [] none t []) (closed : ∀ u, parse u = expression none parse u)
include nested closed

/-- So is text in parentheses. -/
theorem chain?_of_unwrapped {inner : Text} (found : unwrapped? t = some inner) :
    chain? parse t = .ok (some e) := by
  have enclosed := nested.of_unwrapped found
  obtain ⟨rfl, -⟩ := exists_of_unwrapped? found
  have split := splitAlias_parenthesized inner
  have noField : Form.field? ('(' :: (inner ++ [')'])) = none :=
    Form.field?_cons_eq_none (by decide) _
  have noLiteral : Form.literal? ('(' :: (inner ++ [')'])) = none :=
    Form.literal?_cons_eq_none (by decide) (by decide) rfl _
  rcases rules_of_known trimmed read known noField noLiteral with
    found | ⟨noChain, found | found⟩
  · exact found
  · rw [call?, Form.call?_eq, Form.word?_cons_eq_none rfl] at found
    cases found
  · exfalso
    rw [case?] at found
    split at found
    · cases found
    split at found
    · cases found
    rename_i c form both
    obtain ⟨lead, x, trail, whole, blank, blank', start, stop, form'⟩ :=
      Form.exists_of_case?_parenthesized form (not_not.1 both)
    rcases Chain.tokens_between_words enclosed whole blank blank' start stop with single | several
    · -- what is inside would be raw, but it is a case distinction
      have other : x ≠ '(' :: (inner ++ [')']) := by
        intro same
        have lengths := congrArg List.length whole
        simp only [same, List.length_append, List.length_cons] at lengths
        omega
      rw [chain?_of_single split ((Chain.tokens_parenthesized enclosed).trans single) other]
        at noChain
      obtain ⟨e', read', same⟩ := Result.exists_of_bind noChain
      have raw : e'.isRaw = true := by
        cases raw : e'.isRaw with
        | true => rfl
        | false =>
          rw [raw, if_neg Bool.false_ne_true] at same
          cases same
      rw [closed] at read'
      obtain ⟨-, -, noCase⟩ := rules_of_raw read' raw
      rw [(isTrimmed_of_words start stop).trim_eq, case?, form'] at noCase
      obtain ⟨parts, -, same⟩ := Result.exists_of_bind noCase
      cases same
    · rw [← Chain.tokens_parenthesized enclosed] at several
      obtain ⟨operands, same⟩ := exists_of_chain? split several noChain
      cases same

/-- **In parentheses, a text is read by the rule for chains**, as what it is without them. -/
theorem chain?_parenthesized (bare : ∀ operands a, e ≠ .math operands (some a)) :
    chain? parse ('(' :: (t ++ [')'])) = .ok (some e) := by
  have split' := splitAlias_parenthesized t
  have same := Chain.tokens_parenthesized nested
  have longer : t.length < ('(' :: (t ++ [')'])).length := by
    simp only [List.length_cons, List.length_append]
    omega
  rcases Chain.exists_division nested with undivided | ⟨x, op, y, whole, divides, behind⟩
  · cases found : unwrapped? t with
    | none =>
      have single : Chain.tokens t = [.text t] := by
        have one : Chain.tokenizer.tokenize t = [.text t] := by
          rw [Chain.tokenize_undivided undivided, Tokenizer.flat_trimmed rfl trimmed]
        rw [← one]
        apply Chain.tokens_eq_tokenize
        intro text same
        rw [one] at same
        cases same
        rw [trimmed.trim_eq, found]
      have other : t ≠ '(' :: (t ++ [')']) := fun whole => by
        rw [← whole] at longer
        exact absurd longer (Nat.lt_irrefl _)
      rw [chain?_of_single split' (same.trans single) other, closed, read]
      exact congrArg Except.ok (if_neg (Bool.not_eq_true _ ▸ known))
    | some inner =>
      have chained := chain?_of_unwrapped trimmed read known nested closed found
      have split : Form.splitAlias t = (t, none) := by
        rw [(exists_of_unwrapped? found).1]
        exact splitAlias_parenthesized inner
      exact chain?_of_tokens_eq split split' same longer chained
  · obtain ⟨split, chained⟩ :=
      chain?_of_division trimmed read known bare whole divides behind
    exact chain?_of_tokens_eq split split' same longer chained

end Known

end Grammar

namespace Parser

/-- **Redundant parentheses change nothing**, however many there are: neither how an expression is
read, unless it is raw or a chain with an alias, nor how a condition is. -/
theorem reads_parenthesized {t : Text} (trimmed : t.trim = t) (nested : Nested [] none t []) :
    (∀ e, expression t none = .ok e → e.isRaw = false →
      (∀ operands a, e ≠ .math operands (some a)) →
        ∀ pairs, expression (parenthesize pairs t) none = .ok e)
    ∧ ∀ c, condition t none = .ok c → ∀ pairs, condition (parenthesize pairs t) none = .ok c := by
  constructor
  · intro e read known bare pairs
    have nonempty : t ≠ [] := by
      rintro rfl
      cases read
    have isTrimmed : IsTrimmed t := trimmed ▸ isTrimmed_trim (trimmed.symm ▸ nonempty)
    induction pairs with
    | zero => exact read
    | succ pairs ih =>
      have enclosed : IsTrimmed (parenthesize pairs t) := by
        cases pairs with
        | zero => exact isTrimmed
        | succ pairs => exact isTrimmed_parenthesized _
      rw [expression_eq_grammar] at ih
      have found := Grammar.chain?_parenthesized enclosed ih known
        (nested_parenthesize nested pairs) (fun u => expression_eq_grammar u) bare
      have noField : Form.field? (parenthesize (pairs + 1) t) = none :=
        Form.field?_cons_eq_none (by decide) _
      have noLiteral : Form.literal? (parenthesize (pairs + 1) t) = none :=
        Form.literal?_cons_eq_none (by decide) (by decide) rfl _
      rw [expression_eq_grammar]
      exact Grammar.expression_of_chain (isTrimmed_parenthesized _) noField (Grammar.bound?_none _)
        noLiteral found
  · intro c read pairs
    rw [condition_eq_ok_iff, bareCondition_eq_grammar] at read ⊢
    induction pairs with
    | zero => exact read
    | succ pairs ih =>
      rw [parenthesize, Grammar.condition_parenthesized (nested_parenthesize nested pairs)]
      exact ih

/-! A sum behind the sign of a comparison, which is read both ways. -/

def comparedSum : Text := ['\x7b', 'a', '\x7d', ' ', '<', ' ', '1', ' ', '+', ' ', '2']

theorem nested_comparedSum : Nested [] none comparedSum [] := by
  refine @Nested.field _ _ ['a'] [' ', '<', ' ', '1', ' ', '+', ' ', '2'] []
    (isReference_singleton rfl) ?_
  iterate 8 refine .char (by decide) (by decide) (by decide) (by decide) ?_
  exact .nil

theorem reads_parenthesized_sum :
    comparedSum.trim = comparedSum ∧ Nested [] none comparedSum []
      ∧ expression (parenthesize 2 comparedSum) none
        = .ok (.math [(none, .raw "{a} < 1"), (some .add, .scalar (.int 2) none)] none)
      ∧ condition (parenthesize 2 comparedSum) none
        = .ok (.simple (.field ⟨none, "a", none⟩) .lt
          (.math [(none, .scalar (.int 1) none), (some .add, .scalar (.int 2) none)] none)) := by
  have trimmed : comparedSum.trim = comparedSum := rfl
  obtain ⟨alone, compared⟩ := reads_parenthesized trimmed nested_comparedSum
  refine ⟨trimmed, nested_comparedSum, ?_, compared _ rfl 2⟩
  apply alone _ rfl rfl
  rintro operands a ⟨⟩

/-- The alias of a chain goes to the last operand in parentheses. -/
example : expression ['(', '1', ' ', '+', ' ', '2', ' ', 'A', 'S', ' ', 'b', ')'] none
    = .ok (.math [(none, .scalar (.int 1) none), (some .add, .scalar (.int 2) (some "b"))] none) :=
  rfl

end Parser

end RecordMapper
