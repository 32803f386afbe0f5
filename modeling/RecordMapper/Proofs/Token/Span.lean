import RecordMapper.Proofs.Token.Bytes
import RecordMapper.Token.Tokenizer

/-!
Spans are closed where their contents end.

The search for the close of a span works on bytes, and sees there what a scan sees on characters
(`Span.delimits_keyword`, `Span.delimits_character`): it is a lawful scan of its own. So string
literals, parentheses and case distinctions are closed behind their contents.
-/

namespace RecordMapper

namespace Span

open Text

/-! ### The search for a close -/

/-- The results of a search whose positions count from a character further in front. -/
def shift (c : Char) (found : Nat → Option (Nat × Nat)) : Nat → Option (Nat × Nat) :=
  fun position => found (position + c.utf8Size)

theorem foldr_shift (x : Text) (found : Nat → Option (Nat × Nat)) (position : Nat) :
    x.foldr shift found position = found (position + (bytes x).length) := by
  induction x generalizing position with
  | nil => rfl
  | cons c x ih => rw [List.foldr_cons, shift, ih, length_bytes_cons, Nat.add_assoc]

/-- The search for the close of a span, with what the spans of a text do to its depth. -/
def closeScan (s : Span) (inParens inCase : Nat → Nat) : Scan (Nat → Option (Nat × Nat)) where
  read depth before t := fun position =>
    closeFrom? s depth 0 false (lastByte? before) position (bytes t)
  prepend := shift
  inParens := inParens
  inBraces depth := depth
  inCase := inCase

theorem closeScan_reads_iff {s : Span} {inParens inCase : Nat → Nat} {depth depth' : Nat}
    {before : Option Char} {x rest : Text} :
    (closeScan s inParens inCase).Reads depth before x depth' rest ↔
      ∀ position, closeFrom? s depth 0 false (lastByte? before) position (bytes (x ++ rest))
        = closeFrom? s depth' 0 false (lastByte? (lastFrom before x))
            (position + (bytes x).length) (bytes rest) := by
  have found : ∀ position,
      x.foldr shift ((closeScan s inParens inCase).read depth' (lastFrom before x) rest) position
        = closeFrom? s depth' 0 false (lastByte? (lastFrom before x))
            (position + (bytes x).length) (bytes rest) := by
    intro position
    rw [foldr_shift]
    rfl
  constructor
  · intro reads position
    rw [← found]
    exact congrFun reads position
  · intro reads
    funext position
    exact (reads position).trans (found position).symm

theorem delimits_keyword {s : Span} (keyword : s.keyword = true) {word : Text}
    (letters : ∀ a ∈ word, a.isAlpha = true) (before : Option Char) (t : Text) :
    s.delimits (bytes word) (lastByte? before) (bytes t) = startsKeyword word before t := by
  have ascii : ∀ a ∈ word, IsAscii a := by
    intro a mem
    exact (isInert_of_isAlpha (letters a mem)).isAscii
  rw [delimits, keyword, Byte.after?_bytes ascii, startsKeyword]
  cases Text.after? true word t with
  | none => rfl
  | some rest => exact Byte.standsAlone_eq before rest

theorem delimits_byte {s : Span} (keyword : s.keyword = false) {d : Char} (ascii : IsAscii d)
    (before : Option UInt8) (b : UInt8) (rest : List UInt8) :
    s.delimits (bytes [d]) before (b :: rest) = (Byte.ofAscii d == b) := by
  rw [bytes_cons_of_isAscii ascii, delimits, keyword, bytes_nil, Byte.after?]
  cases Byte.ofAscii d == b <;> rfl

theorem delimits_character {s : Span} (keyword : s.keyword = false) {d c : Char}
    (ascii_d : IsAscii d) (ascii : IsAscii c) (before : Option UInt8) (rest : Text) :
    s.delimits (bytes [d]) before (bytes (c :: rest)) = (d == c) := by
  rw [bytes_cons_of_isAscii ascii, delimits_byte keyword ascii_d, Bool.eq_iff_iff, beq_iff_eq,
    beq_iff_eq, ofAscii_inj ascii_d ascii]

section Search

variable {s : Span} {depth : Nat} {before : Option UInt8} {position : Nat}

/-- A byte that means nothing to the search is passed. -/
theorem closeFrom?_cons {b : UInt8} {rest : List UInt8} (escape : s.escape ≠ some b)
    (quote : s.quote ≠ some b) (closing : s.delimits (bytes s.closing) before (b :: rest) = false)
    (opening : s.opening = s.closing ∨ s.delimits (bytes s.opening) before (b :: rest) = false) :
    closeFrom? s depth 0 false before position (b :: rest)
      = closeFrom? s depth 0 false (some b) (position + 1) rest := by
  have neither : ¬ (s.opening ≠ s.closing ∧ s.delimits (bytes s.opening) before (b :: rest)
      = true) := by
    rintro ⟨differ, opens⟩
    rcases opening with same | closed
    · exact differ same
    · rw [closed] at opens
      cases opens
  rw [closeFrom?, if_neg escape, if_neg quote, closing, if_neg Bool.false_ne_true, if_neg neither]

/-- At the outermost depth the closing delimiter ends the search. -/
theorem closeFrom?_of_delimits {b : UInt8} {rest : List UInt8} (escape : s.escape ≠ some b)
    (quote : s.quote ≠ some b) (closing : s.delimits (bytes s.closing) before (b :: rest) = true) :
    closeFrom? s 0 0 false before position (b :: rest)
      = some (position, position + (bytes s.closing).length) := by
  rw [closeFrom?, if_neg escape, if_neg quote, if_pos closing]

/-- The text behind an opening delimiter is split where the search ends. -/
theorem close?_of_closeFrom? {inner rest : Text}
    (found : closeFrom? s 0 0 false none 0 (bytes (inner ++ s.closing ++ rest))
      = some ((bytes inner).length, (bytes inner).length + (bytes s.closing).length)) :
    s.close? (inner ++ s.closing ++ rest) = some (inner, rest) := by
  have start : splitBytes (bytes inner).length (inner ++ s.closing ++ rest)
      = (inner, s.closing ++ rest) := by
    rw [List.append_assoc]
    exact splitBytes_append inner (s.closing ++ rest)
  have stop : splitBytes ((bytes inner).length + (bytes s.closing).length)
      (inner ++ s.closing ++ rest) = (inner ++ s.closing, rest) := by
    rw [← List.length_append, ← bytes_append]
    exact splitBytes_append (inner ++ s.closing) rest
  simp only [close?, closePosition?, found, Option.map_some, start, stop]

/-- Between quotes, bytes that are no quote and no backslash are passed. -/
theorem closeFrom?_quoted_of_plain {front : List UInt8} (rest : List UInt8)
    (plain : ∀ b ∈ front, b ≠ Byte.ofAscii '\\' ∧ s.quote ≠ some b) :
    ∃ before', closeFrom? s depth 0 true before position (front ++ rest)
      = closeFrom? s depth 0 true before' (position + front.length) rest := by
  induction front generalizing before position with
  | nil => exact ⟨before, rfl⟩
  | cons b front ih =>
    obtain ⟨backslash, quote⟩ := plain b (List.mem_cons_self ..)
    obtain ⟨before', others⟩ := @ih (some b) (position + 1)
      fun d mem => plain d (List.mem_cons_of_mem _ mem)
    refine ⟨before', ?_⟩
    rw [List.cons_append, closeFrom?, if_neg backslash, bne_iff_ne.2 quote, others,
      List.length_cons]
    congr 1
    omega

/-- The contents of a literal are passed between quotes. -/
theorem closeFrom?_quoted (quotes : s.quote = some (Byte.ofAscii '"')) (t rest : Text) :
    closeFrom? s depth 0 true before position (bytes (escapeQuoted t ++ '"' :: rest))
      = closeFrom? s depth 0 false (some (Byte.ofAscii '"'))
          (position + (bytes (escapeQuoted t)).length + 1) (bytes rest) := by
  induction t generalizing before position with
  | nil =>
    have close : (s.quote != some (Byte.ofAscii '"')) = false := by simp [quotes]
    have other : Byte.ofAscii '"' ≠ Byte.ofAscii '\\' := by decide
    show closeFrom? s depth 0 true before position (bytes ('"' :: rest)) = _
    rw [bytes_cons_of_isAscii (by decide), closeFrom?, if_neg other, close]
    rfl
  | cons c t ih =>
    rw [escapeQuoted_cons]
    split
    · -- the backslash hides the next character, which is one byte
      rename_i special
      have ascii : IsAscii c := by rcases special with rfl | rfl <;> decide
      simp only [List.cons_append, List.nil_append]
      rw [bytes_cons_of_isAscii (by decide), bytes_cons_of_isAscii ascii, closeFrom?, if_pos rfl,
        closeFrom?, ih, bytes_cons_of_isAscii (by decide), bytes_cons_of_isAscii ascii]
      congr 1
      simp only [List.length_cons]
      omega
    · rename_i other
      rw [not_or] at other
      have plain : ∀ b ∈ String.utf8EncodeChar c, b ≠ Byte.ofAscii '\\' ∧ s.quote ≠ some b := by
        intro b mem
        rw [quotes, ne_eq _ (some b), Option.some.injEq]
        exact ⟨ne_ofAscii_of_mem (by decide) other.2 mem,
          (ne_ofAscii_of_mem (by decide) other.1 mem).symm⟩
      obtain ⟨before', passed⟩ := @closeFrom?_quoted_of_plain s depth before position _
        (bytes (escapeQuoted t ++ '"' :: rest)) plain
      simp only [List.cons_append, List.nil_append]
      rw [bytes_cons, passed, ih, bytes_cons, List.length_append, Nat.add_assoc position]

end Search

section Scans

variable {s : Span} {inParens inCase : Nat → Nat}

/-- A character that means nothing to the search is passed. -/
theorem closeScan_reads_other {c : Char} (ascii : IsAscii c) {before : Option Char} {rest : Text}
    (escape : s.escape ≠ some (Byte.ofAscii c)) (quote : s.quote ≠ some (Byte.ofAscii c))
    (closing : s.delimits (bytes s.closing) (lastByte? before) (bytes (c :: rest)) = false)
    (opening : s.delimits (bytes s.opening) (lastByte? before) (bytes (c :: rest)) = false)
    (depth : Nat) : (closeScan s inParens inCase).Reads depth before [c] depth rest := by
  rw [bytes_cons_of_isAscii ascii] at closing opening
  have last : lastByte? (lastFrom before [c]) = some (Byte.ofAscii c) := by
    simp [lastFrom, lastByte?, utf8EncodeChar_of_isAscii ascii]
  rw [closeScan_reads_iff]
  intro position
  rw [last, List.singleton_append, bytes_cons_of_isAscii ascii,
    closeFrom?_cons escape quote closing (.inr opening), bytes_cons_of_isAscii ascii]
  rfl

/-- A literal is passed by a search that knows quotes. -/
theorem closeScan_reads_literal (quotes : s.quote = some (Byte.ofAscii '"'))
    (escape : s.escape = none) (depth : Nat) (before : Option Char) (t rest : Text) :
    (closeScan s inParens inCase).Reads depth before ('"' :: (escapeQuoted t ++ ['"'])) depth
      rest := by
  have last : lastByte? (lastFrom before ('"' :: (escapeQuoted t ++ ['"'])))
      = some (Byte.ofAscii '"') := by
    rw [← List.cons_append, lastFrom_concat]
    rfl
  have plain : ¬ s.escape = some (Byte.ofAscii '"') := by simp [escape]
  rw [closeScan_reads_iff]
  intro position
  rw [last, List.cons_append, bytes_cons_of_isAscii (by decide), closeFrom?, if_neg plain,
    if_pos quotes, List.append_assoc, List.singleton_append, closeFrom?_quoted quotes,
    bytes_cons_of_isAscii (by decide), bytes_append, bytes_cons_of_isAscii (by decide)]
  congr 1
  simp only [List.length_cons, List.length_append, bytes_nil, List.length_nil]
  omega

end Scans

/-! ### Parentheses -/

/-- The span is text in parentheses, in which the search for the close knows quotes. -/
structure IsParenthesized (s : Span) : Prop where
  opening : s.opening = ['(']
  closing : s.closing = [')']
  keyword : s.keyword = false
  quote : s.quote = some (Byte.ofAscii '"')
  escape : s.escape = none

section Parentheses

variable {s : Span} (parenthesized : s.IsParenthesized)
include parenthesized

theorem IsParenthesized.reads_other {c : Char} (ascii : IsAscii c)
    (other : c ≠ '"' ∧ c ≠ '(' ∧ c ≠ ')') (depth : Nat) (before : Option Char) (rest : Text) :
    (closeScan s (· + 1) id).Reads depth before [c] depth rest := by
  have differ : ∀ {d : Char}, IsAscii d → c ≠ d →
      s.delimits (bytes [d]) (lastByte? before) (bytes (c :: rest)) = false := by
    intro d ascii_d differ
    rw [delimits_character parenthesized.keyword ascii_d ascii, beq_eq_false_iff_ne]
    exact differ.symm
  refine closeScan_reads_other ascii ?_ ?_ ?_ ?_ depth
  · simp [parenthesized.escape]
  · rw [parenthesized.quote, ne_eq, Option.some.injEq, ofAscii_inj (by decide) ascii]
    exact other.1.symm
  · rw [parenthesized.closing]
    exact differ (by decide) other.2.2
  · rw [parenthesized.opening]
    exact differ (by decide) other.2.1

theorem IsParenthesized.reads_open (depth : Nat) (before : Option Char) (rest : Text) :
    (closeScan s (· + 1) id).Reads depth before ['('] (depth + 1) rest := by
  have quote : ¬ s.quote = some (Byte.ofAscii '(') := by
    rw [parenthesized.quote]
    decide
  have closing : ∀ before,
      s.delimits (bytes s.closing) before (bytes ('(' :: rest)) = false := by
    intro before
    rw [parenthesized.closing]
    exact delimits_character parenthesized.keyword (by decide) (by decide) before rest
  have opening : ∀ before,
      s.opening ≠ s.closing ∧ s.delimits (bytes s.opening) before (bytes ('(' :: rest)) = true := by
    intro before
    rw [parenthesized.opening, parenthesized.closing]
    exact ⟨by decide, delimits_character parenthesized.keyword (by decide) (by decide) before rest⟩
  simp only [bytes_cons_of_isAscii (show IsAscii '(' by decide)] at closing opening
  rw [closeScan_reads_iff]
  intro position
  rw [List.singleton_append, bytes_cons_of_isAscii (by decide), closeFrom?,
    if_neg (by simp [parenthesized.escape]), if_neg quote, closing, if_neg Bool.false_ne_true,
    if_pos (opening _), parenthesized.opening]
  rfl

theorem IsParenthesized.delimits_closing (before : Option UInt8) (rest : Text) :
    s.delimits (bytes s.closing) before (bytes (')' :: rest)) = true := by
  rw [parenthesized.closing]
  exact delimits_character parenthesized.keyword (by decide) (by decide) before rest

theorem IsParenthesized.quote_ne : s.quote ≠ some (Byte.ofAscii ')') := by
  rw [parenthesized.quote]
  decide

theorem IsParenthesized.escape_ne (b : UInt8) : s.escape ≠ some b := by
  rw [parenthesized.escape]
  exact nofun

theorem IsParenthesized.reads_close (depth : Nat) (before : Option Char) (rest : Text) :
    (closeScan s (· + 1) id).Reads (depth + 1) before [')'] depth rest := by
  have closing := parenthesized.delimits_closing (lastByte? before) rest
  rw [bytes_cons_of_isAscii (by decide)] at closing
  rw [closeScan_reads_iff]
  intro position
  rw [List.singleton_append, bytes_cons_of_isAscii (by decide), closeFrom?,
    if_neg (parenthesized.escape_ne _), if_neg parenthesized.quote_ne, if_pos closing,
    parenthesized.closing]
  rfl

theorem IsParenthesized.closeScan_lawful : (closeScan s (· + 1) id).Lawful where
  inert depth before c rest inert _ _ :=
    parenthesized.reads_other inert.isAscii ⟨inert.ne.1, inert.ne.2.1, inert.ne.2.2.1⟩ depth before
      rest
  literal := closeScan_reads_literal parenthesized.quote parenthesized.escape
  openParens := parenthesized.reads_open
  closeParens := parenthesized.reads_close
  openBraces := parenthesized.reads_other (by decide) (by decide)
  closeBraces := parenthesized.reads_other (by decide) (by decide)
  openCase depth before rest _ _ := by
    refine .of_each (fun c mem before rest => ?_) rest
    have inert := isInert_of_isAlpha (letters_caseKeyword c mem)
    exact parenthesized.reads_other inert.isAscii ⟨inert.ne.1, inert.ne.2.1, inert.ne.2.2.1⟩
      depth before rest
  closeCase depth before rest _ _ := by
    refine .of_each (fun c mem before rest => ?_) rest
    have inert := isInert_of_isAlpha (letters_endKeyword c mem)
    exact parenthesized.reads_other inert.isAscii ⟨inert.ne.1, inert.ne.2.1, inert.ne.2.2.1⟩
      depth before rest

/-- **Parentheses are closed behind balanced text.** -/
theorem IsParenthesized.close?_append {inner : Text} (balanced : Balanced inner) (rest : Text) :
    s.close? (inner ++ ')' :: rest) = some (inner, rest) := by
  have passed : (closeScan s (· + 1) id).Reads 0 none inner 0 (')' :: rest) :=
    parenthesized.closeScan_lawful.reads_balanced balanced clearBefore_none
      (clearBehind_cons rfl rest)
  rw [closeScan_reads_iff] at passed
  have closing := parenthesized.delimits_closing (lastByte? (lastFrom none inner)) rest
  rw [bytes_cons_of_isAscii (by decide)] at closing
  have found := passed 0
  rw [bytes_cons_of_isAscii (by decide), closeFrom?_of_delimits (parenthesized.escape_ne _)
    parenthesized.quote_ne closing, Nat.zero_add] at found
  have whole : inner ++ ')' :: rest = inner ++ s.closing ++ rest := by
    rw [parenthesized.closing]
    simp
  rw [whole] at found ⊢
  exact close?_of_closeFrom? found

end Parentheses

/-! ### Case distinctions -/

/-- The span is a case distinction, in which the search for the close knows quotes. -/
structure IsCase (s : Span) : Prop where
  opening : s.opening = caseKeyword
  closing : s.closing = endKeyword
  keyword : s.keyword = true
  quote : s.quote = some (Byte.ofAscii '"')
  escape : s.escape = none

/-- The letters of a keyword that was counted are skipped. -/
theorem closeFrom?_skip {s : Span} {depth : Nat} {x : Text} (ascii : ∀ c ∈ x, IsAscii c)
    (before : Option Char) (position : Nat) (rest : Text) :
    closeFrom? s depth x.length false (lastByte? before) position (bytes (x ++ rest))
      = closeFrom? s depth 0 false (lastByte? (lastFrom before x)) (position + (bytes x).length)
          (bytes rest) := by
  induction x generalizing before position with
  | nil => rfl
  | cons c x ih =>
    have single := ascii c (List.mem_cons_self ..)
    have last : lastByte? (some c) = some (Byte.ofAscii c) := by
      simp [lastByte?, utf8EncodeChar_of_isAscii single]
    have others := ih (fun d mem => ascii d (List.mem_cons_of_mem _ mem)) (some c) (position + 1)
    rw [last] at others
    rw [List.cons_append, bytes_cons_of_isAscii single, List.length_cons, closeFrom?, others,
      bytes_cons_of_isAscii single, List.length_cons, Nat.add_assoc, Nat.add_comm 1]
    rfl

section Case

variable {s : Span} (distinction : s.IsCase)
include distinction

theorem IsCase.escape_ne (b : UInt8) : s.escape ≠ some b := by
  rw [distinction.escape]
  exact nofun

theorem IsCase.delimits_opening (before : Option Char) (t : Text) :
    s.delimits (bytes s.opening) (lastByte? before) (bytes t)
      = startsKeyword caseKeyword before t := by
  rw [distinction.opening]
  exact delimits_keyword distinction.keyword letters_caseKeyword before t

theorem IsCase.delimits_closing (before : Option Char) (t : Text) :
    s.delimits (bytes s.closing) (lastByte? before) (bytes t)
      = startsKeyword endKeyword before t := by
  rw [distinction.closing]
  exact delimits_keyword distinction.keyword letters_endKeyword before t

theorem IsCase.reads_other {c : Char} (ascii : IsAscii c) (quote : c ≠ '"') {before : Option Char}
    {rest : Text} (noCase : startsKeyword caseKeyword before (c :: rest) = false)
    (noEnd : startsKeyword endKeyword before (c :: rest) = false) (depth : Nat) :
    (closeScan s id (· + 1)).Reads depth before [c] depth rest := by
  refine closeScan_reads_other ascii (distinction.escape_ne _) ?_ ?_ ?_ depth
  · rw [distinction.quote, ne_eq, Option.some.injEq, ofAscii_inj (by decide) ascii]
    exact quote.symm
  · rw [distinction.delimits_closing]
    exact noEnd
  · rw [distinction.delimits_opening]
    exact noCase

/-- A character that opens or closes something else is passed. -/
theorem IsCase.reads_mark {c : Char} (ascii : IsAscii c) (quote : c ≠ '"')
    (other : c.isAlpha = false) (depth : Nat) (before : Option Char) (rest : Text) :
    (closeScan s id (· + 1)).Reads depth before [c] depth rest :=
  distinction.reads_other ascii quote
    (startsKeyword_cons_of_not_isAlpha (by simp [caseKeyword]) letters_caseKeyword other rest)
    (startsKeyword_cons_of_not_isAlpha (by simp [endKeyword]) letters_endKeyword other rest) depth

theorem IsCase.reads_open (depth : Nat) (before : Option Char) (rest : Text)
    (clear : ClearBefore before) (behind : ClearBehind rest) :
    (closeScan s id (· + 1)).Reads depth before caseKeyword (depth + 1) rest := by
  have ascii : IsAscii 'C' := by decide
  have quote : ¬ s.quote = some (Byte.ofAscii 'C') := by
    rw [distinction.quote]
    decide
  have closing := distinction.delimits_closing before (caseKeyword ++ rest)
  have closing_false : startsKeyword endKeyword before (caseKeyword ++ rest) = false := rfl
  have opening := distinction.delimits_opening before (caseKeyword ++ rest)
  rw [startsKeyword_append clear behind] at opening
  rw [closing_false] at closing
  have starts : s.opening ≠ s.closing
      ∧ s.delimits (bytes s.opening) (lastByte? before) (bytes (caseKeyword ++ rest)) = true := by
    refine ⟨?_, opening⟩
    rw [distinction.opening, distinction.closing]
    decide
  have split : caseKeyword ++ rest = 'C' :: (['A', 'S', 'E'] ++ rest) := rfl
  rw [split, bytes_cons_of_isAscii ascii] at closing starts
  have ascii_rest : ∀ c ∈ ['A', 'S', 'E'], IsAscii c := by
    intro c mem
    exact (isInert_of_isAlpha (letters_caseKeyword c (List.mem_cons_of_mem _ mem))).isAscii
  have skipped := fun position =>
    @closeFrom?_skip s (depth + 1) _ ascii_rest (some 'C') position rest
  rw [closeScan_reads_iff]
  intro position
  rw [split, bytes_cons_of_isAscii ascii, closeFrom?, if_neg (distinction.escape_ne _),
    if_neg quote, closing, if_neg Bool.false_ne_true, if_pos starts, distinction.opening]
  exact skipped (position + 1)

theorem IsCase.reads_close (depth : Nat) (before : Option Char) (rest : Text)
    (clear : ClearBefore before) (behind : ClearBehind rest) :
    (closeScan s id (· + 1)).Reads (depth + 1) before endKeyword depth rest := by
  have ascii : IsAscii 'E' := by decide
  have quote : ¬ s.quote = some (Byte.ofAscii 'E') := by
    rw [distinction.quote]
    decide
  have closing := distinction.delimits_closing before (endKeyword ++ rest)
  rw [startsKeyword_append clear behind] at closing
  have split : endKeyword ++ rest = 'E' :: (['N', 'D'] ++ rest) := rfl
  rw [split, bytes_cons_of_isAscii ascii] at closing
  have ascii_rest : ∀ c ∈ ['N', 'D'], IsAscii c := by
    intro c mem
    exact (isInert_of_isAlpha (letters_endKeyword c (List.mem_cons_of_mem _ mem))).isAscii
  have skipped := fun position => @closeFrom?_skip s depth _ ascii_rest (some 'E') position rest
  rw [closeScan_reads_iff]
  intro position
  rw [split, bytes_cons_of_isAscii ascii, closeFrom?, if_neg (distinction.escape_ne _),
    if_neg quote, if_pos closing, distinction.closing]
  exact skipped (position + 1)

theorem IsCase.closeScan_lawful : (closeScan s id (· + 1)).Lawful where
  inert depth _ _ _ inert noCase noEnd :=
    distinction.reads_other inert.isAscii inert.ne.1 noCase noEnd depth
  literal := closeScan_reads_literal distinction.quote distinction.escape
  openParens := distinction.reads_mark (by decide) (by decide) rfl
  closeParens := distinction.reads_mark (by decide) (by decide) rfl
  openBraces := distinction.reads_mark (by decide) (by decide) rfl
  closeBraces := distinction.reads_mark (by decide) (by decide) rfl
  openCase := distinction.reads_open
  closeCase := distinction.reads_close

/-- **A case distinction is closed behind its balanced body.** -/
theorem IsCase.close?_append {body : Text} (balanced : Balanced body) {rest : Text}
    (behind : ClearBehind rest) :
    s.close? (' ' :: (body ++ [' ']) ++ endKeyword ++ rest)
      = some (' ' :: (body ++ [' ']), rest) := by
  have space : ∀ before rest, (closeScan s id (· + 1)).Reads 0 before [' '] 0 rest :=
    distinction.reads_mark (by decide) (by decide) rfl 0
  have inner : (closeScan s id (· + 1)).Reads 0 none (' ' :: (body ++ [' '])) 0
      (endKeyword ++ rest) := by
    refine .cons (space none _) (.append ?_ (space _ _))
    exact distinction.closeScan_lawful.reads_balanced balanced (clearBefore_some rfl)
      (clearBehind_cons rfl _)
  rw [closeScan_reads_iff] at inner
  have clear : ClearBefore (lastFrom none (' ' :: (body ++ [' ']))) := by
    rw [← List.cons_append, lastFrom_concat]
    exact clearBefore_some rfl
  have closing := distinction.delimits_closing (lastFrom none (' ' :: (body ++ [' '])))
    (endKeyword ++ rest)
  rw [startsKeyword_append clear behind] at closing
  have quote : s.quote ≠ some (Byte.ofAscii 'E') := by
    rw [distinction.quote]
    decide
  have ascii : IsAscii 'E' := by decide
  have split : endKeyword ++ rest = 'E' :: (['N', 'D'] ++ rest) := rfl
  have found := inner 0
  rw [split, bytes_cons_of_isAscii ascii] at closing
  rw [split, bytes_cons_of_isAscii ascii, closeFrom?_of_delimits (distinction.escape_ne _) quote
    closing, Nat.zero_add, ← split, ← List.append_assoc, ← distinction.closing] at found
  rw [← distinction.closing]
  exact close?_of_closeFrom? found

end Case

/-! ### String literals -/

/-- The span is a string literal, in which a backslash hides the next character. -/
structure IsLiteral (s : Span) : Prop where
  opening : s.opening = ['"']
  closing : s.closing = ['"']
  keyword : s.keyword = false
  quote : s.quote = none
  escape : s.escape = some (Byte.ofAscii '\\')

section Literal

variable {s : Span} (literal : s.IsLiteral) {before : Option UInt8} {position : Nat}
include literal

theorem IsLiteral.quote_ne (b : UInt8) : s.quote ≠ some b := by
  rw [literal.quote]
  exact nofun

/-- Bytes that are no quote and no backslash are passed. -/
theorem IsLiteral.closeFrom?_of_plain {front : List UInt8} (rest : List UInt8)
    (plain : ∀ b ∈ front, Byte.ofAscii '\\' ≠ b ∧ Byte.ofAscii '"' ≠ b) :
    ∃ before', closeFrom? s 0 0 false before position (front ++ rest)
      = closeFrom? s 0 0 false before' (position + front.length) rest := by
  induction front generalizing before position with
  | nil => exact ⟨before, rfl⟩
  | cons b front ih =>
    obtain ⟨backslash, quote⟩ := plain b (List.mem_cons_self ..)
    obtain ⟨before', others⟩ := @ih (some b) (position + 1)
      fun d mem => plain d (List.mem_cons_of_mem _ mem)
    have escape : s.escape ≠ some b := by
      rw [literal.escape, ne_eq, Option.some.injEq]
      exact backslash
    have closing : s.delimits (bytes s.closing) before (b :: (front ++ rest)) = false := by
      rw [literal.closing, delimits_byte literal.keyword (by decide), beq_eq_false_iff_ne]
      exact quote
    have same : s.opening = s.closing := literal.opening.trans literal.closing.symm
    refine ⟨before', ?_⟩
    rw [List.cons_append, closeFrom?_cons escape (literal.quote_ne b) closing (.inl same), others,
      List.length_cons]
    congr 1
    omega

/-- The search ends at the quote behind the escaped contents. -/
theorem IsLiteral.closeFrom?_escapeQuoted (t rest : Text) :
    closeFrom? s 0 0 false before position (bytes (escapeQuoted t ++ '"' :: rest))
      = some (position + (bytes (escapeQuoted t)).length,
          position + (bytes (escapeQuoted t)).length + (bytes s.closing).length) := by
  induction t generalizing before position with
  | nil =>
    have escape : s.escape ≠ some (Byte.ofAscii '"') := by
      rw [literal.escape]
      decide
    have closing : s.delimits (bytes s.closing) before (bytes ('"' :: rest)) = true := by
      rw [literal.closing]
      exact delimits_character literal.keyword (by decide) (by decide) before rest
    rw [bytes_cons_of_isAscii (by decide)] at closing
    show closeFrom? s 0 0 false before position (bytes ('"' :: rest)) = _
    rw [bytes_cons_of_isAscii (by decide),
      closeFrom?_of_delimits escape (literal.quote_ne _) closing]
    rfl
  | cons c t ih =>
    rw [escapeQuoted_cons]
    split
    · -- the backslash hides the next character, which is one byte
      rename_i special
      have ascii : IsAscii c := by rcases special with rfl | rfl <;> decide
      simp only [List.cons_append, List.nil_append]
      rw [bytes_cons_of_isAscii (by decide), bytes_cons_of_isAscii ascii, closeFrom?,
        if_pos literal.escape, closeFrom?, ih, bytes_cons_of_isAscii (by decide),
        bytes_cons_of_isAscii ascii]
      simp only [List.length_cons, Option.some.injEq, Prod.mk.injEq]
      omega
    · rename_i other
      rw [not_or] at other
      have plain : ∀ b ∈ String.utf8EncodeChar c,
          Byte.ofAscii '\\' ≠ b ∧ Byte.ofAscii '"' ≠ b := by
        intro b mem
        exact ⟨(ne_ofAscii_of_mem (by decide) other.2 mem).symm,
          (ne_ofAscii_of_mem (by decide) other.1 mem).symm⟩
      obtain ⟨before', passed⟩ := @IsLiteral.closeFrom?_of_plain s literal before position _
        (bytes (escapeQuoted t ++ '"' :: rest)) plain
      simp only [List.cons_append, List.nil_append]
      rw [bytes_cons, passed, ih, bytes_cons, List.length_append, Nat.add_assoc position]

/-- **A string literal is closed behind its escaped contents.** -/
theorem IsLiteral.close?_append (t rest : Text) :
    s.close? (escapeQuoted t ++ '"' :: rest) = some (escapeQuoted t, rest) := by
  have found := @IsLiteral.closeFrom?_escapeQuoted s literal none 0 t rest
  have whole : escapeQuoted t ++ '"' :: rest = escapeQuoted t ++ s.closing ++ rest := by
    rw [literal.closing]
    simp
  rw [Nat.zero_add, whole] at found
  rw [whole]
  exact close?_of_closeFrom? found

end Literal

end Span

end RecordMapper
