import RecordMapper.Proofs.Query.Tokens
import RecordMapper.Proofs.Token.Mentions

/-!
What the tokens of a text keep of it.

The tokenizers of the query language trim their tokens, write keywords as they are registered and
take the parentheses off groups. `Text.squash` forgets just that: a text without its blanks, in
upper case. A run divides its text into parts (`Separation.Divided`), and printing the tokens puts
the parentheses back, so that **the printed tokens and the text are squashed to the same**, for every
text, closed or not (`Separation.squash_printAll`).
-/

namespace RecordMapper

open Text

namespace Text

/-! ### Squashed texts -/

/-- The text without its blanks, with ASCII letters in upper case. -/
def squash (t : Text) : Text :=
  (t.filter fun c => !isBlank c).map Char.toUpper

@[simp] theorem squash_nil : squash [] = [] :=
  rfl

theorem squash_cons (c : Char) (t : Text) :
    squash (c :: t) = if isBlank c then squash t else c.toUpper :: squash t := by
  by_cases blank : isBlank c = true <;> simp [squash, blank]

@[simp] theorem squash_append (x y : Text) : squash (x ++ y) = squash x ++ squash y := by
  simp [squash]

theorem squash_reverse (t : Text) : squash t.reverse = (squash t).reverse := by
  simp [squash]

/-- A letter in the other case is squashed to the same. -/
theorem squash_toLower (c : Char) (t : Text) : squash (c.toLower :: t) = squash (c :: t) := by
  rcases toLower_eq_or c with same | ⟨letter, lower⟩
  · rw [same]
  · have upper : c.toLower.toUpper = c.toUpper := eq_of_beq (forall_isAscii
      (p := fun c => c.toLower.toUpper == c.toUpper) rfl (isInert_of_isAlpha letter).isAscii)
    have unblank : ∀ {d : Char}, d.isAlpha = true → isBlank d = false := fun letter =>
      isBlank_of_isAsciiWord (by simp [isAsciiWord, Char.isAlphanum, letter])
    rw [squash_cons, squash_cons, unblank letter, unblank lower, upper]

theorem squash_cons_of_agree {ignoreCase : Bool} {a b : Char} (same : agree ignoreCase a b = true)
    (t : Text) : squash (a :: t) = squash (b :: t) := by
  cases ignoreCase with
  | false =>
    obtain rfl : a = b := by simpa [agree] using same
    rfl
  | true =>
    have lower : a.toLower = b.toLower := by simpa [agree] using same
    rw [← squash_toLower a, lower, squash_toLower]

/-- A keyword is squashed to the same as its registered spelling. -/
theorem squash_eq_of_agree {ignoreCase : Bool} {x y : Text}
    (agrees : List.Forall₂ (fun a b => agree ignoreCase a b = true) x y) : squash x = squash y := by
  induction agrees with
  | nil => rfl
  | @cons a b x y same _ ih => rw [squash_cons_of_agree same, squash_cons, squash_cons, ih]

theorem squash_trimStart (t : Text) : squash t.trimStart = squash t := by
  induction t with
  | nil => rfl
  | cons c t ih =>
    rw [trimStart, List.dropWhile_cons]
    split
    · rename_i blank
      rw [squash_cons, if_pos blank]
      exact ih
    · rfl

@[simp] theorem squash_trim (t : Text) : squash t.trim = squash t := by
  have back : squash (trimEnd t.trimStart) = (squash (trimStart t.trimStart.reverse)).reverse :=
    squash_reverse _
  rw [trim, back, squash_trimStart, squash_reverse, List.reverse_reverse, squash_trimStart]

theorem squash_flattenBlanksFrom (m : Mode) (t : Text) :
    squash (flattenBlanksFrom m t) = squash t := by
  induction t generalizing m with
  | nil => rfl
  | cons c t ih =>
    rw [flattenBlanksFrom]
    split
    · rename_i blank
      rw [squash_cons, squash_cons, if_pos blank.2, if_pos (by decide), ih]
    · rw [squash_cons, squash_cons, ih]

/-- What stands between texts is squashed away if it is blank. -/
theorem squash_join {separator : Text} (blank : squash separator = []) (texts : List Text) :
    squash (join separator texts) = squash texts.flatten := by
  induction texts with
  | nil => rfl
  | cons x texts ih =>
    cases texts with
    | nil => simp
    | cons y texts =>
      have whole : squash (x :: y :: texts).flatten = squash x ++ squash (y :: texts).flatten :=
        squash_append x _
      rw [join_cons_cons, squash_append, squash_append, blank, List.append_nil, ih, whole]

end Text

/-! ### Printed tokens -/

namespace Token

theorem printAll_append (tokens others : List Token) :
    printAll (tokens ++ others) = printAll tokens ++ printAll others := by
  induction tokens with
  | nil => rfl
  | cons token rest ih => rw [List.cons_append, printAll, printAll, ih, List.cons_append]

/-- What the tokens are squashed to, printed one behind the other. -/
def squashAll (tokens : List Token) : Text :=
  squash (printAll tokens).flatten

@[simp] theorem squashAll_append (tokens others : List Token) :
    squashAll (tokens ++ others) = squashAll tokens ++ squashAll others := by
  simp [squashAll, printAll_append]

theorem squashAll_nested (tokens : List Token) :
    squashAll [.nested tokens] = squash ['('] ++ squashAll tokens ++ squash [')'] := by
  have printed : (printAll [.nested tokens]).flatten
      = ['('] ++ join [' '] (printAll tokens) ++ [')'] := by simp [printAll, print]
  rw [squashAll, printed, squash_append, squash_append, squash_join rfl]
  rfl

theorem squashAll_flat {t : Tokenizer} (trims : t.trim = true) (x : Text) :
    squashAll (t.flat x) = squash x := by
  rw [Tokenizer.flat, if_pos trims, ← squash_trim x]
  cases trimmed : x.trim with
  | nil => rfl
  | cons c y => simp [squashAll, printAll, print]

end Token

/-! ### Runs -/

namespace Separation

variable {s : Separation} {t : Tokenizer}

/-- **The parts that a text is divided into keep it**, if the tokens of shorter texts do. -/
theorem Divided.squashAll_eq (trims : t.trim = true) {inner : Text → List Token} {whole : Text}
    {tokens : List Token} (divided : Divided s t inner whole tokens)
    (within : ∀ contents, contents.length < whole.length →
      Token.squashAll (inner contents) = squash contents) :
    Token.squashAll tokens = squash whole := by
  induction divided with
  | last x => exact Token.squashAll_flat trims x
  | @separated x separator word rest tokens _ agrees _ _ ih =>
    have behind := ih fun contents less => within contents (by
      simp only [List.length_append]
      omega)
    rw [Token.squashAll_append, Token.squashAll_append, Token.squashAll_flat trims,
      Token.squashAll_flat trims, squash_eq_of_agree agrees, behind, squash_append, squash_append,
      List.append_assoc]
  | @grouped x contents rest tokens _ _ _ _ ih =>
    have behind := ih fun contents' less => within contents' (by
      simp only [List.length_append, List.length_cons]
      omega)
    have inside := within contents (by
      simp only [List.length_append, List.length_cons]
      omega)
    have split : x ++ '(' :: (contents ++ ')' :: rest)
        = x ++ (['('] ++ contents ++ [')']) ++ rest := by simp
    rw [Token.squashAll_append, Token.squashAll_append, Token.squashAll_flat trims,
      Token.squashAll_nested, inside, behind, split]
    simp only [squash_append]

theorem squashAll_tokenizeWithin (layout : t.symbols = s.symbols) (foreign : s.foreign = true)
    (trims : t.trim = true) {depth : Nat} {text : Text} (enough : text.length < depth) :
    Token.squashAll (t.tokenizeWithin depth text) = squash text := by
  induction depth generalizing text with
  | zero => cases enough
  | succ depth ih =>
    have divided := divided_tokenizeWithin layout foreign depth text
    exact divided.squashAll_eq trims fun contents less => ih (by omega)

/-- **Tokenizing keeps a text** up to blanks and the case of letters. -/
theorem squash_printAll (layout : t.symbols = s.symbols) (foreign : s.foreign = true)
    (trims : t.trim = true) (text : Text) :
    squash (Token.printAll (t.tokenize text)).flatten = squash text :=
  squashAll_tokenizeWithin layout foreign trims (Nat.lt_succ_self _)

end Separation

/-- **The tokens of conditions and of bodies of case distinctions lose no text**: printed one behind
the other they are the text, once blanks are taken out and ASCII letters are in upper case, whether
or not the text is well formed. -/
theorem squash_tokens (t : Text) :
    squash (Token.printAll (Connected.tokens t)).flatten = squash t ∧
      squash (Token.printAll (CaseBody.tokens t)).flatten = squash t := by
  constructor
  · exact Separation.squash_printAll Connected.symbols_eq rfl rfl t
  · rw [CaseBody.tokens, Separation.squash_printAll CaseBody.symbols_eq rfl rfl, squash_cons,
      if_pos (by decide)]
    exact squash_flattenBlanksFrom .plain t

/-- A group, an open parenthesis, a quote without another one, and a connector that connects nothing. -/
example : Token.printAll (Connected.tokens "(a = 1) or (b = \" and or c".toList)
    = ["(a = 1)".toList, "OR".toList, "(b = \"".toList, "AND".toList, "or c".toList] := by
  decide +kernel

end RecordMapper
