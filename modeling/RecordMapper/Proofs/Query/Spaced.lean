import RecordMapper.Proofs.Query.Form
import RecordMapper.Proofs.Query.Tokens
import RecordMapper.Proofs.Text.Keywords
import RecordMapper.Proofs.Token.Seek

/-!
Chains of plain operands, as they may be written.

An operand is a field reference, a number or a bound placeholder (`IsOperand`), and a spaced chain
joins operands with operators that have a space on both sides, and perhaps more blanks
(`SpacedChain`). **The tokens of a spaced chain are its operands and operators**
(`SpacedChain.tokens_body`): no operator can be read across an operand, and no operand holds a quote
or a parenthesis. Only the keywords of a case distinction can hide operators, if `CASE` stands on
its own in one operand and `END` in a later one (`Chain.NoCaseAcross`).
-/

namespace RecordMapper

open Text

/-! ### Operands -/

/-- A number without a sign: digits with an optional fraction. -/
inductive IsUnsigned : Text → Prop
  | whole {w : Text} (digits : IsDigits w) : IsUnsigned w
  | fraction {w f : Text} (digits : IsDigits w) (digits' : IsDigits f) : IsUnsigned (w ++ '.' :: f)

/-- A field reference, a number or a bound placeholder. -/
inductive IsOperand (bound : String → Bool) : Text → Prop
  | field {name : Text} (word : IsName name) : IsOperand bound ('\x7b' :: (name ++ ['\x7d']))
  | qualified {table name : Text} (table_word : IsName table) (word : IsName name) :
    IsOperand bound ('\x7b' :: (table ++ '.' :: name ++ ['\x7d']))
  | number {t : Text} (unsigned : IsUnsigned t) : IsOperand bound t
  | negative {t : Text} (unsigned : IsUnsigned t) : IsOperand bound ('-' :: t)
  | placeholder {name : Text} (word : IsName name)
    (isBound : bound (String.ofList name) = true) : IsOperand bound ('%' :: (name ++ ['%']))

/-- Any character of an operand: none that a tokenizer of chains stops at. -/
def IsOperandChar (c : Char) : Prop :=
  isWord c = true ∨ c ∈ ['\x7b', '\x7d', '.', '-', '%']

theorem IsOperandChar.isPlain {c : Char} (char : IsOperandChar c) : Separation.IsPlain c := by
  refine ⟨?_, ?_, ?_, ?_⟩
  all_goals
    rintro rfl
    rcases char with word | mark
    · cases word
    · simp at mark

theorem IsUnsigned.chars {t : Text} (unsigned : IsUnsigned t) :
    ∀ c ∈ t, c.isDigit = true ∨ c = '.' := by
  intro c mem
  cases unsigned with
  | whole digits => exact .inl (digits.2 c mem)
  | fraction digits digits' =>
    simp only [List.mem_append, List.mem_cons] at mem
    rcases mem with mem | rfl | mem
    · exact .inl (digits.2 c mem)
    · exact .inr rfl
    · exact .inl (digits'.2 c mem)

/-- A number starts with a digit. -/
theorem IsUnsigned.start {t : Text} (unsigned : IsUnsigned t) :
    ∃ c rest, t = c :: rest ∧ c.isDigit = true := by
  cases unsigned with
  | whole digits =>
    obtain ⟨c, rest, rfl⟩ := List.exists_cons_of_ne_nil digits.1
    exact ⟨c, rest, rfl, digits.2 c (List.mem_cons_self ..)⟩
  | @fraction w f digits _ =>
    obtain ⟨c, rest, rfl⟩ := List.exists_cons_of_ne_nil digits.1
    exact ⟨c, rest ++ '.' :: f, rfl, digits.2 c (List.mem_cons_self ..)⟩

/-- A number ends with digits, and what stands before them is no part of a word. -/
theorem IsUnsigned.stop {t : Text} (unsigned : IsUnsigned t) :
    ∃ front w, t = front ++ w ∧ IsDigits w ∧ (front = [] ∨ ∃ rest, front = rest ++ ['.']) := by
  cases unsigned with
  | whole digits => exact ⟨[], t, rfl, digits, .inl rfl⟩
  | @fraction w f digits digits' =>
    exact ⟨w ++ ['.'], f, by simp, digits', .inr ⟨w, rfl⟩⟩

section Operands

variable {bound : String → Bool} {x : Text} (operand : IsOperand bound x)
include operand

theorem IsOperand.chars : ∀ c ∈ x, IsOperandChar c := by
  have unsigned_char : ∀ {t : Text}, IsUnsigned t → ∀ c ∈ t, IsOperandChar c := by
    intro t unsigned c mem
    rcases unsigned.chars c mem with digit | rfl
    · exact .inl (isWord_of_isAsciiWord (isAsciiWord_of_isDigit digit))
    · exact .inr (by simp)
  intro c mem
  cases operand with
  | field word =>
    simp only [List.mem_cons, List.mem_append, List.not_mem_nil, or_false] at mem
    rcases mem with rfl | mem | rfl
    · exact .inr (by simp)
    · exact .inl (word.2 c mem)
    · exact .inr (by simp)
  | qualified table_word word =>
    simp only [List.mem_cons, List.mem_append, List.not_mem_nil, or_false] at mem
    rcases mem with rfl | (mem | rfl | mem) | rfl
    · exact .inr (by simp)
    · exact .inl (table_word.2 c mem)
    · exact .inr (by simp)
    · exact .inl (word.2 c mem)
    · exact .inr (by simp)
  | number unsigned => exact unsigned_char unsigned c mem
  | negative unsigned =>
    rcases List.mem_cons.1 mem with rfl | mem
    · exact .inr (by simp)
    · exact unsigned_char unsigned c mem
  | placeholder word _ =>
    simp only [List.mem_cons, List.mem_append, List.not_mem_nil, or_false] at mem
    rcases mem with rfl | mem | rfl
    · exact .inr (by simp)
    · exact .inl (word.2 c mem)
    · exact .inr (by simp)

/-- An operand starts with a mark or a digit. -/
theorem IsOperand.start : ∃ c rest, x = c :: rest ∧ c.isAlpha = false ∧ isBlank c = false := by
  have unsigned_start : ∀ {t : Text}, IsUnsigned t →
      ∃ c rest, t = c :: rest ∧ c.isAlpha = false ∧ isBlank c = false := by
    intro t unsigned
    obtain ⟨c, rest, rfl, digit⟩ := unsigned.start
    exact ⟨c, rest, rfl, not_isAlpha_of_isDigit digit,
      isBlank_of_isAsciiWord (isAsciiWord_of_isDigit digit)⟩
  cases operand with
  | field _ => exact ⟨_, _, rfl, rfl, rfl⟩
  | qualified _ _ => exact ⟨_, _, rfl, rfl, rfl⟩
  | number unsigned => exact unsigned_start unsigned
  | negative _ => exact ⟨_, _, rfl, rfl, rfl⟩
  | placeholder _ _ => exact ⟨_, _, rfl, rfl, rfl⟩

/-- An operand ends in a brace, a digit or the second mark of a placeholder. -/
theorem IsOperand.stop : (∃ front c, x = front ++ [c] ∧ (c = '\x7d' ∨ c.isDigit = true))
    ∨ ∃ front c, x = front ++ [c, '%'] ∧ isWord c = true := by
  have unsigned_stop : ∀ {t : Text}, IsUnsigned t →
      ∃ front c, t = front ++ [c] ∧ (c = '\x7d' ∨ c.isDigit = true) := by
    intro t unsigned
    obtain ⟨front, w, rfl, digits, -⟩ := unsigned.stop
    obtain ⟨w, c, rfl⟩ := (List.eq_nil_or_concat w).resolve_left digits.1
    exact ⟨front ++ w, c, by simp, .inr (digits.2 c (by simp))⟩
  cases operand with
  | @field name _ => exact .inl ⟨'\x7b' :: name, '\x7d', rfl, .inl rfl⟩
  | @qualified table name _ _ =>
    exact .inl ⟨'\x7b' :: (table ++ '.' :: name), '\x7d', rfl, .inl rfl⟩
  | number unsigned => exact .inl (unsigned_stop unsigned)
  | negative unsigned =>
    obtain ⟨front, c, rfl, last⟩ := unsigned_stop unsigned
    exact .inl ⟨'-' :: front, c, rfl, last⟩
  | @placeholder name word _ =>
    obtain ⟨name, c, rfl⟩ := (List.eq_nil_or_concat name).resolve_left word.1
    exact .inr ⟨'%' :: name, c, by simp, word.2 c (by simp)⟩

theorem IsOperand.last : ∀ c ∈ x.getLast?, c.isAlpha = false ∧ isBlank c = false := by
  intro c mem
  rcases operand.stop with ⟨front, d, rfl, mark⟩ | ⟨front, d, rfl, -⟩
  · rw [List.getLast?_concat] at mem
    cases mem
    rcases mark with rfl | digit
    · exact ⟨rfl, rfl⟩
    · exact ⟨not_isAlpha_of_isDigit digit, isBlank_of_isAsciiWord (isAsciiWord_of_isDigit digit)⟩
  · rw [List.getLast?_append_of_ne_nil _ (by simp)] at mem
    cases mem
    exact ⟨rfl, rfl⟩

theorem IsOperand.isTrimmed : IsTrimmed x := by
  obtain ⟨c, rest, rfl, -, other⟩ := operand.start
  refine ⟨List.cons_ne_nil c rest, ?_, fun d mem => (operand.last d mem).2⟩
  intro d mem
  cases mem
  exact other

/-- An operand is no operator, and ends in none behind a space. -/
theorem IsOperand.after?_eq_none (op : MathOp) (seen : Text) :
    after? false [op.symbol, ' '] (x.reverse ++ seen) = none := by
  rcases operand.stop with ⟨front, c, rfl, mark⟩ | ⟨front, c, rfl, word⟩
  · have differ : op.symbol ≠ c := by
      rintro rfl
      rcases mark with brace | digit
      · cases op <;> cases brace
      · cases op <;> cases digit
    simp [after?, agree, differ]
  · have differ : ' ' ≠ c := by
      rintro rfl
      cases word
    simp [after?, agree, differ]

theorem IsOperand.ofSymbol?_eq_none : MathOp.ofSymbol? x = none := by
  rw [MathOp.ofSymbol?, List.find?_eq_none]
  intro op _ same
  have symbol : x = [op.symbol] := by simpa using same
  rcases operand.stop with ⟨front, c, rfl, mark⟩ | ⟨front, c, rfl, -⟩
  · have last : c = op.symbol := by
      have ends := congrArg List.getLast? symbol
      rw [List.getLast?_concat] at ends
      exact Option.some.inj ends
    subst last
    rcases mark with brace | digit
    · cases op <;> cases brace
    · cases op <;> cases digit
  · have length := congrArg List.length symbol
    simp at length

end Operands

/-! ### What the tokenizer passes over -/

namespace Chain

variable {inner : Text → List Token} {seen rest : Text}

/-- A case distinction that starts in a text ends in it, if the text starts and ends with no letter
and the keyword that ends one does not stand behind it. -/
theorem exists_of_caseDistinction {x read ahead : Text} {c : Char} {m : Match}
    (start : ∀ c ∈ x.head?, c.isAlpha = false) (last : ∀ c ∈ x.getLast?, c.isAlpha = false)
    (apart : HasKeyword caseKeyword none x → ¬ HasKeyword endKeyword (lastFrom none x) rest)
    (split : x = read ++ c :: ahead)
    (matched : Symbol.caseDistinction.match? (c :: (read.reverse ++ seen)) (ahead ++ rest)
      = some m) :
    ∃ taken more, ahead = taken ++ more ∧ m = .extend taken.length := by
  obtain ⟨before, contents, word, behind, opens, alone, same, all, alone', rfl⟩ :=
    Symbol.exists_of_caseDistinction matched
  obtain ⟨d, tail, front⟩ : ∃ d tail, read ++ [c] = d :: tail :=
    List.exists_cons_of_ne_nil (by simp)
  have whole : x = d :: tail ++ ahead := by
    rw [← front, split]
    simp
  have reversed : c :: (read.reverse ++ seen) = (d :: tail).reverse ++ seen := by
    rw [← front]
    simp
  have mark : d.isAlpha = false := start d (by simp [whole])
  rw [reversed] at opens
  obtain ⟨begun, opening, stood, spelled, touching⟩ :=
    exists_of_read letters_caseKeyword mark opens
  -- the keyword that opens it stands in the text, and does not end it
  have both : x ++ rest = begun ++ (opening ++ (ahead ++ rest)) := by
    rw [whole, stood]
    simp
  have length := congrArg List.length (whole.trans (congrArg (· ++ ahead) stood))
  have size := spelled.length_eq
  obtain ⟨e, later, holds, rfl⟩ : ∃ e later, x = begun ++ (opening ++ e :: later)
      ∧ ahead = e :: later := by
    rcases word_in_append letters_caseKeyword (by simp [caseKeyword]) last spelled both with
      ⟨more, rfl, -⟩ | ⟨e, later, holds, ends⟩
    · simp only [List.length_append, caseKeyword, List.length_cons, List.length_nil] at length size
      omega
    · exact ⟨e, later, holds, List.append_cancel_right ends⟩
  have hasCase : HasKeyword caseKeyword none x := by
    refine ⟨begun, opening ++ e :: later, holds, startsKeyword_of_word spelled ?_⟩
    rw [← touching]
    exact alone
  have last' : ∀ c ∈ (e :: later).getLast?, c.isAlpha = false := by
    intro c mem
    refine last c ?_
    rw [whole, List.getLast?_append_of_ne_nil _ (List.cons_ne_nil e later)]
    exact mem
  rcases word_in_append letters_endKeyword (by simp [endKeyword]) last' all same with
    ⟨more, rfl, rfl⟩ | ⟨f, more, ends, -⟩
  · -- the keyword that ends it would stand behind the text
    refine absurd ⟨more, word ++ behind, rfl, startsKeyword_of_word all ?_⟩ (apart hasCase)
    rw [whole, lastFrom_append none, lastFrom_cons _ none, ← lastFrom_append]
    exact alone'
  · exact ⟨contents ++ word, f :: more, by rw [ends, List.append_assoc], rfl⟩

/-- **Plain text is passed** if it starts and ends with no letter: a case distinction that starts
in it ends in it, or has no end. -/
theorem passes_plain {x : Text} (plain : ∀ c ∈ x, Separation.IsPlain c)
    (start : ∀ c ∈ x.head?, c.isAlpha = false) (last : ∀ c ∈ x.getLast?, c.isAlpha = false)
    (apart : HasKeyword caseKeyword none x → ¬ HasKeyword endKeyword (lastFrom none x) rest) :
    tokenizer.Passes inner seen x rest := by
  -- the induction is on the length of what is still ahead
  have passes : ∀ n read ahead, ahead.length ≤ n → x = read ++ ahead →
      tokenizer.Passes inner (read.reverse ++ seen) ahead rest := by
    intro n
    induction n with
    | zero =>
      intro read ahead length _
      obtain rfl := List.length_eq_zero_iff.1 (Nat.le_zero.1 length)
      exact .nil rest
    | succ n ih =>
      intro read ahead length split
      cases ahead with
      | nil => exact .nil rest
      | cons c ahead =>
        have recognized :
            tokenizer.firstMatch? (c :: (read.reverse ++ seen)) (ahead ++ rest)
              = Symbol.caseDistinction.match? (c :: (read.reverse ++ seen)) (ahead ++ rest) :=
          Separation.firstMatch?_of_plain symbols_eq rfl (plain c (by simp [split])) _
        have shorter : ahead.length ≤ n := by simpa using length
        cases matched : Symbol.caseDistinction.match? (c :: (read.reverse ++ seen))
            (ahead ++ rest) with
        | none =>
          rw [matched] at recognized
          have others := ih (read ++ [c]) ahead shorter (by simp [split])
          rw [List.reverse_append] at others
          exact .cons (Tokenizer.passes_of_firstMatch?_eq_none recognized) others
        | some m =>
          obtain ⟨taken, more, rfl, rfl⟩ := exists_of_caseDistinction start last apart split matched
          rw [matched, List.append_assoc] at recognized
          have others := ih (read ++ c :: taken) more (by rw [List.length_append] at shorter; omega)
            (by simp [split])
          have read_taken : (read ++ c :: taken).reverse ++ seen
              = (c :: taken).reverse ++ (read.reverse ++ seen) := by simp
          rw [read_taken] at others
          exact Tokenizer.Passes.append (Tokenizer.passes_of_extend recognized) others
  exact passes x.length [] x (Nat.le_refl _) rfl

/-- What was read does not end in a space and an operator. -/
def Settled (seen : Text) : Prop :=
  ∀ op : MathOp, after? false [op.symbol, ' '] seen = none

theorem settled_cons {c : Char} (other : ∀ op : MathOp, op.symbol ≠ c) (seen : Text) :
    Settled (c :: seen) := by
  intro op
  simp [after?, agree, other op]

theorem settled_blank {c : Char} (blank : isBlank c = true) (seen : Text) :
    Settled (c :: seen) := by
  refine settled_cons (fun op same => ?_) seen
  subst same
  cases op <;> cases blank

theorem settled_nil : Settled [] :=
  fun _ => rfl

theorem passes_blank (settled : Settled seen) {c : Char} (blank : isBlank c = true) (rest : Text) :
    tokenizer.Passes inner seen [c] rest := by
  have other := not_isAlpha_of_isBlank blank
  have differ : ∀ {d : Char}, isBlank d = false → d ≠ c := by
    rintro d solid rfl
    rw [blank] at solid
    cases solid
  refine Tokenizer.passes_of_firstMatch?_eq_none
    (Separation.firstMatch?_eq_none symbols_eq ?_ ?_ ?_ ?_)
  · exact after?_cons_eq_none rfl (differ rfl) [] seen
  · intro before found
    rw [show caseKeyword.reverse = 'E' :: ['S', 'A', 'C'] from rfl,
      after?_cons_eq_none' other (differ rfl)] at found
    cases found
  · exact after?_cons_eq_none rfl (differ rfl) [] seen
  · intro separator mem
    obtain ⟨op, -, rfl⟩ := List.mem_map.1 mem
    by_cases space : ' ' = c
    · subst space
      exact settled op
    · exact after?_cons_eq_none rfl space _ seen

theorem passes_blanks (inner : Text → List Token) {blanks : Text} (settled : Settled seen)
    (blank : ∀ c ∈ blanks, isBlank c = true) (rest : Text) :
    tokenizer.Passes inner seen blanks rest ∧ Settled (blanks.reverse ++ seen) := by
  induction blanks generalizing seen with
  | nil => exact ⟨.nil rest, settled⟩
  | cons c blanks ih =>
    have first := blank c (List.mem_cons_self ..)
    obtain ⟨passes, settled'⟩ := ih (settled_blank first seen) fun d mem =>
      blank d (List.mem_cons_of_mem _ mem)
    refine ⟨.cons (passes_blank settled first _) passes, ?_⟩
    rw [List.reverse_cons, List.append_assoc]
    exact settled'

/-- An operator between two spaces is recognized, whatever stands before it. -/
theorem firstMatch?_operator (op : MathOp) (seen rest : Text) :
    tokenizer.firstMatch? (' ' :: op.symbol :: ' ' :: seen) rest
      = some (.split seen.reverse [.flat [' ', op.symbol, ' ']] 0) := by
  have found : (separation.separators.findSome? fun other =>
      (Symbol.literal other separation.ignoreCase).match? (' ' :: op.symbol :: ' ' :: seen) rest)
      = some (.split seen.reverse [.flat [' ', op.symbol, ' ']] 0) := by
    refine Separation.findSome?_of_mem (mem_separators op) ?_ ?_
    · simp [Symbol.match?, after?, agree, separation]
    · intro other mem
      obtain ⟨op', -, rfl⟩ := List.mem_map.1 mem
      by_cases same : op'.symbol = op.symbol
      · exact .inl (by rw [same])
      · exact .inr (Symbol.literal_match?_eq_none (by simp [after?, agree, same, separation]) rest)
  have noCase : ∀ before, after? true caseKeyword.reverse (' ' :: op.symbol :: ' ' :: seen)
      = some before → standsAlone before.head? rest.head? = false := by
    intro before found
    cases found
  rw [Separation.firstMatch?_eq symbols_eq, Separation.stringLiteral_match?_eq_none (by rfl),
    Separation.caseDistinction_match?_eq_none noCase,
    Separation.parentheses_match?_eq_none (by rfl), found]
  rfl

/-- Behind a space, an operator and another space end the current token. -/
theorem run_sign (op : MathOp) (seen rest : Text) :
    tokenizer.run inner (' ' :: seen) .read (op.symbol :: ' ' :: rest)
      = tokenizer.flat seen.reverse ++ .text [op.symbol] :: tokenizer.run inner [] .read rest := by
  have sign : tokenizer.Passes inner (' ' :: seen) [op.symbol] (' ' :: rest) := by
    refine Separation.passes_mark symbols_eq rfl ?_ ?_ _
    · cases op <;> simp [Separation.IsPlain, MathOp.symbol]
    · cases op <;> rfl
  have flat : tokenizer.flat [' ', op.symbol, ' '] = [.text [op.symbol]] := by
    cases op <;> rfl
  have split : op.symbol :: ' ' :: rest = [op.symbol] ++ ' ' :: rest := rfl
  rw [split, sign, List.reverse_singleton, List.singleton_append, Tokenizer.run_read_cons,
    firstMatch?_operator]
  simp [Tokenizer.ofPiece, Tokenizer.run_drop_zero, flat]

/-- **An operator ends the current token** and becomes one of its own. -/
theorem run_operator (settled : Settled seen) (op : MathOp) (rest : Text) :
    tokenizer.run inner seen .read (' ' :: op.symbol :: ' ' :: rest)
      = tokenizer.flat seen.reverse ++ .text [op.symbol] :: tokenizer.run inner [] .read rest := by
  have space : tokenizer.Passes inner seen [' '] (op.symbol :: ' ' :: rest) :=
    passes_blank settled rfl _
  have split : ' ' :: op.symbol :: ' ' :: rest = [' '] ++ (op.symbol :: ' ' :: rest) := rfl
  rw [split, space]
  exact run_sign op seen rest

end Chain

/-! ### Spaced chains -/

/-- An operator with a space on both sides, and perhaps more blanks, in front of an operand. -/
structure Joint (bound : String → Bool) where
  front : Text
  op : MathOp
  back : Text
  operand : Text
  blank_front : ∀ c ∈ front, isBlank c = true
  blank_back : ∀ c ∈ back, isBlank c = true
  isOperand : IsOperand bound operand

/-- A joint as it is written. -/
def Joint.text {bound : String → Bool} (j : Joint bound) : Text :=
  j.front ++ ' ' :: j.op.symbol :: ' ' :: (j.back ++ j.operand)

/-- Two or more operands joined by operators, perhaps between blanks. -/
structure SpacedChain (bound : String → Bool) where
  lead : Text
  first : Text
  joints : List (Joint bound)
  trail : Text
  blank_lead : ∀ c ∈ lead, isBlank c = true
  blank_trail : ∀ c ∈ trail, isBlank c = true
  isOperand : IsOperand bound first
  many : joints ≠ []

variable {bound : String → Bool}

/-- Joints as they are written. -/
def jointTexts (joints : List (Joint bound)) : Text :=
  joints.flatMap Joint.text

/-- The tokens of joints: operators and operands. -/
def jointTokens (joints : List (Joint bound)) : List Text :=
  joints.flatMap fun j => [[j.op.symbol], j.operand]

namespace SpacedChain

/-- A chain without the blanks around it. -/
def body (chain : SpacedChain bound) : Text :=
  chain.first ++ jointTexts chain.joints

/-- A chain as it is written. -/
def text (chain : SpacedChain bound) : Text :=
  chain.lead ++ (chain.body ++ chain.trail)

/-- The operands of a chain from left to right. -/
def operands (chain : SpacedChain bound) : List Text :=
  chain.first :: chain.joints.map Joint.operand

end SpacedChain

namespace Chain

/-- A keyword in joints is one in an operand. -/
theorem not_hasKeyword_jointTexts {joints : List (Joint bound)}
    (free : ∀ j ∈ joints, ¬ HasKeyword endKeyword none j.operand) (before : Option Char) :
    ¬ HasKeyword endKeyword before (jointTexts joints) := by
  have nonempty : endKeyword ≠ [] := by simp [endKeyword]
  induction joints generalizing before with
  | nil => exact not_hasKeyword_of_marks letters_endKeyword nonempty (List.forall_mem_nil _)
  | cons j joints ih =>
    have others := ih fun j mem => free j (List.mem_cons_of_mem _ mem)
    have first := free j (List.mem_cons_self ..)
    have gap : ∀ c ∈ j.front ++ ' ' :: j.op.symbol :: ' ' :: j.back, c.isAlpha = false := by
      intro c mem
      simp only [List.mem_append, List.mem_cons] at mem
      rcases mem with mem | rfl | rfl | rfl | mem
      · exact not_isAlpha_of_isBlank (j.blank_front c mem)
      · rfl
      · cases j.op <;> rfl
      · rfl
      · exact not_isAlpha_of_isBlank (j.blank_back c mem)
    intro has
    have split : jointTexts (j :: joints)
        = (j.front ++ ' ' :: j.op.symbol :: ' ' :: j.back) ++ (j.operand ++ jointTexts joints) := by
      simp [jointTexts, Joint.text]
    rw [split] at has
    rcases has.of_append letters_endKeyword nonempty
      (fun c mem => gap c (List.mem_of_getLast? mem)) with has | has
    · exact not_hasKeyword_of_marks letters_endKeyword nonempty gap has
    · rcases has.of_append letters_endKeyword nonempty
        (fun c mem => (j.isOperand.last c mem).1) with has | has
      · obtain ⟨c, x, same, mark, -⟩ := j.isOperand.start
        rw [same] at has first
        exact first (has.of_start letters_endKeyword nonempty mark none)
      · exact others _ has

/-- No operand in which `CASE` stands on its own comes before one in which `END` does: what is
between them would be taken for a case distinction. -/
def NoCaseAcross (operands : List Text) : Prop :=
  operands.Pairwise fun x y => HasKeyword caseKeyword none x → ¬ HasKeyword endKeyword none y

instance (operands : List Text) : Decidable (NoCaseAcross operands) :=
  inferInstanceAs (Decidable (List.Pairwise _ operands))

theorem passes_first {inner : Text → List Token} {seen x : Text} {joints : List (Joint bound)}
    (operand : IsOperand bound x) (apart : NoCaseAcross (x :: joints.map Joint.operand)) :
    tokenizer.Passes inner seen x (jointTexts joints) := by
  refine passes_plain (fun c mem => (operand.chars c mem).isPlain) ?_
    (fun c mem => (operand.last c mem).1) fun hasCase => not_hasKeyword_jointTexts ?_ _
  · obtain ⟨c, x, rfl, mark, -⟩ := operand.start
    intro d mem
    cases mem
    exact mark
  · intro j mem
    exact (List.pairwise_cons.1 apart).1 _ (List.mem_map_of_mem mem) hasCase

/-- **The tokens of operands that are joined are the operands and operators.** -/
theorem run_joints (inner : Text → List Token) {lead x : Text} {joints : List (Joint bound)}
    (blank : ∀ c ∈ lead, isBlank c = true) (operand : IsOperand bound x)
    (apart : NoCaseAcross (x :: joints.map Joint.operand)) :
    tokenizer.run inner lead.reverse .read (x ++ jointTexts joints)
      = (x :: jointTokens joints).map .text := by
  induction joints generalizing lead x with
  | nil =>
    have passes : tokenizer.Passes inner lead.reverse x (jointTexts ([] : List (Joint bound))) :=
      passes_first operand apart
    rw [jointTexts, List.flatMap_nil, List.append_nil]
    rw [Tokenizer.run_last passes, List.reverse_reverse,
      Tokenizer.flat_append rfl operand.isTrimmed blank]
    rfl
  | cons j joints ih =>
    have passes : tokenizer.Passes inner lead.reverse x (jointTexts (j :: joints)) :=
      passes_first operand apart
    have settled : Settled (x.reverse ++ lead.reverse) :=
      fun op => operand.after?_eq_none op lead.reverse
    obtain ⟨passes_front, settled_front⟩ := passes_blanks inner settled j.blank_front
      (' ' :: j.op.symbol :: ' ' :: (j.back ++ (j.operand ++ jointTexts joints)))
    obtain ⟨passes_back, -⟩ := passes_blanks inner settled_nil j.blank_back
      (j.operand ++ jointTexts joints)
    have others := ih j.blank_back j.isOperand (List.pairwise_cons.1 apart).2
    have split : jointTexts (j :: joints)
        = j.front ++ ' ' :: j.op.symbol :: ' ' :: (j.back ++ (j.operand ++ jointTexts joints)) := by
      simp [jointTexts, Joint.text]
    have first : tokenizer.flat (j.front.reverse ++ (x.reverse ++ lead.reverse)).reverse
        = [.text x] := by
      have found := Tokenizer.flat_of_blanks (t := tokenizer) rfl operand.isTrimmed blank
        j.blank_front
      simpa using found
    rw [passes, split, passes_front, run_operator settled_front, first, passes_back,
      List.append_nil, others]
    rfl

end Chain

/-- **The tokens of a spaced chain are its operands and operators.** -/
theorem SpacedChain.tokens_body (chain : SpacedChain bound)
    (apart : Chain.NoCaseAcross chain.operands) :
    Chain.tokens chain.body = (chain.first :: jointTokens chain.joints).map .text := by
  have run : ∀ inner, Chain.tokenizer.run inner [] .read chain.body
      = (chain.first :: jointTokens chain.joints).map .text := by
    intro inner
    exact Chain.run_joints inner (List.forall_mem_nil _) chain.isOperand apart
  have tokenized : Chain.tokenizer.tokenize chain.body
      = (chain.first :: jointTokens chain.joints).map .text := run _
  obtain ⟨j, joints, more⟩ := List.exists_cons_of_ne_nil chain.many
  rw [more] at tokenized ⊢
  exact Chain.tokensWithin_of_several tokenized _

end RecordMapper
