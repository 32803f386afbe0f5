import RecordMapper.Proofs.Token.Mentions
import RecordMapper.Proofs.Token.Offsets

/-!
Scans of literals and parentheses over bytes.

`Byte.quotedEnd?` looks for the byte that closes a literal, and `Byte.matchingFrom?` for the
parenthesis that closes an open one, for which it jumps behind each literal on its way. Both walk
over bytes, and a backslash hides the byte behind it, also where that is the first one of a longer
character. The search for the close of a span decides the same for all bytes, whether they are those
of a text or not:

* between two quotes it goes where the scan for the closing quote ends, whatever byte the quote is
  (`Span.closeFrom?_quoted_eq`);
* the close of a string literal ends there (`Span.IsLiteral.closeFrom?_eq`), and the close of a
  parenthesis begins where the scan for the matching one ends (`Span.IsParenthesized.closeFrom?_eq`).

On a text the offsets are those of the scans over its characters (`Text.literalEnd?_append`,
`Text.matchingParenthesis?_append`).
-/

namespace RecordMapper

/-! ### The scans -/

namespace Byte

/-- Finds the position behind the byte that closes a literal. `skip` bytes are not looked at any
more, and `position` counts the bytes passed. -/
def quotedEnd? (quote : UInt8) : (skip position : Nat) → List UInt8 → Option Nat
  | _, _, [] => none
  | skip + 1, position, _ :: bytes => quotedEnd? quote skip (position + 1) bytes
  | 0, position, b :: bytes =>
    if b = ofAscii '\\' then quotedEnd? quote 1 (position + 1) bytes
    else if b = quote then some (position + 1)
    else quotedEnd? quote 0 (position + 1) bytes

/-- Finds the position of the parenthesis that closes the outermost one. `depth` counts those that
are open, and a literal is passed as a whole. -/
def matchingFrom? : (depth skip position : Nat) → List UInt8 → Option Nat
  | _, _, _, [] => none
  | depth, skip + 1, position, _ :: bytes => matchingFrom? depth skip (position + 1) bytes
  | depth, 0, position, b :: bytes =>
    if b = ofAscii '"' then
      match quotedEnd? b 0 (position + 1) bytes with
      | some stop => matchingFrom? depth (stop - (position + 1)) (position + 1) bytes
      | none => none
    else if b = ofAscii '(' then matchingFrom? (depth + 1) 0 (position + 1) bytes
    else if b = ofAscii ')' then
      match depth with
      | 0 => none
      | 1 => some position
      | depth + 2 => matchingFrom? (depth + 1) 0 (position + 1) bytes
    else matchingFrom? depth 0 (position + 1) bytes

end Byte

namespace Text

/-- The offset behind the literal whose opening quote stands at an offset. -/
def literalEnd? (opening : Nat) (t : Text) : Option Nat :=
  match (bytes t).drop opening with
  | [] => none
  | quote :: bytes => Byte.quotedEnd? quote 0 (opening + 1) bytes

/-- The offset of the parenthesis that closes the one at an offset. -/
def matchingParenthesis? (opening : Nat) (t : Text) : Option Nat :=
  Byte.matchingFrom? 0 0 opening ((bytes t).drop opening)

end Text

/-! ### Bytes -/

namespace Byte

theorem lt_of_quotedEnd? {quote : UInt8} {skip position stop : Nat} {bytes : List UInt8}
    (found : quotedEnd? quote skip position bytes = some stop) : position < stop := by
  induction bytes generalizing skip position with
  | nil => cases skip <;> cases found
  | cons b bytes ih =>
    cases skip with
    | succ skip => exact Nat.lt_of_succ_lt (ih found)
    | zero =>
      rw [quotedEnd?] at found
      split at found
      · exact Nat.lt_of_succ_lt (ih found)
      · split at found
        · cases found
          exact Nat.lt_succ_self position
        · exact Nat.lt_of_succ_lt (ih found)

/-- The scan for a matching parenthesis stops at one. -/
theorem exists_of_matchingFrom? {depth skip position offset : Nat} {bytes : List UInt8}
    (found : matchingFrom? depth skip position bytes = some offset) :
    ∃ front rest, bytes = front ++ ofAscii ')' :: rest ∧ offset = position + front.length := by
  induction bytes generalizing depth skip position with
  | nil => cases skip <;> cases found
  | cons b bytes ih =>
    have passed : ∀ {depth skip : Nat}, matchingFrom? depth skip (position + 1) bytes = some offset →
        ∃ front rest, b :: bytes = front ++ ofAscii ')' :: rest
          ∧ offset = position + front.length := by
      intro depth skip later
      obtain ⟨front, rest, rfl, last⟩ := ih later
      refine ⟨b :: front, rest, rfl, ?_⟩
      rw [List.length_cons]
      omega
    cases skip with
    | succ skip => exact passed found
    | zero =>
      simp only [matchingFrom?] at found
      split at found
      · split at found
        · exact passed found
        · cases found
      split at found
      · exact passed found
      split at found
      · rename_i closes
        split at found
        · cases found
        · cases found
          exact ⟨[], bytes, by rw [closes]; rfl, rfl⟩
        · exact passed found
      · exact passed found

end Byte

namespace Span

open Text

variable {s : Span} {depth skip position : Nat} {before : Option UInt8} {all : List UInt8}

/-- **Between two quotes the search for the close goes where the scan for the closing quote
ends.** -/
theorem closeFrom?_quoted_eq {quote : UInt8} (quotes : s.quote = some quote)
    (before before' : Option UInt8) :
    closeFrom? s depth skip true before position all
      = (Byte.quotedEnd? quote skip position all).bind fun stop =>
          closeFrom? s depth (stop - position) false before' position all := by
  induction all generalizing skip position before before' with
  | nil => cases skip <;> rfl
  | cons b all ih =>
    -- behind the next byte the scan still has to go on to the closing quote
    have passed : ∀ skip, closeFrom? s depth skip true (some b) (position + 1) all
        = (Byte.quotedEnd? quote skip (position + 1) all).bind fun stop =>
            closeFrom? s depth (stop - position) false before' position (b :: all) := by
      intro skip
      rw [ih (some b) (some b)]
      refine Option.bind_congr fun stop found => ?_
      have ahead : stop - position = stop - (position + 1) + 1 := by
        have lt := Byte.lt_of_quotedEnd? found
        omega
      rw [ahead, closeFrom?]
    cases skip with
    | succ skip => exact passed skip
    | zero =>
      rw [closeFrom?, Byte.quotedEnd?]
      split
      · exact passed 1
      · by_cases closes : b = quote
        · have next : position + 1 - position = 1 := by omega
          simp [closes, quotes, next, closeFrom?]
        · have differ : (s.quote != some b) = true := by simp [quotes, Ne.symm closes]
          rw [if_neg closes, differ]
          exact passed 0

/-- **The close of a string literal ends where the scan for the closing quote ends**, for all
bytes. -/
theorem IsLiteral.closeFrom?_eq (literal : s.IsLiteral) (before : Option UInt8) :
    (closeFrom? s 0 skip false before position all).map Prod.snd
      = Byte.quotedEnd? (Byte.ofAscii '"') skip position all := by
  induction all generalizing skip position before with
  | nil => cases skip <;> rfl
  | cons b all ih =>
    cases skip with
    | succ skip => exact ih (some b)
    | zero =>
      have escape : s.escape = some b ↔ b = Byte.ofAscii '\\' := by
        rw [literal.escape, Option.some.injEq, eq_comm]
      have closing : s.delimits (bytes s.closing) before (b :: all) = true ↔
          b = Byte.ofAscii '"' := by
        rw [literal.closing, delimits_byte literal.keyword (by decide), beq_iff_eq, eq_comm]
      have same : s.opening = s.closing := literal.opening.trans literal.closing.symm
      have size : (bytes s.closing).length = 1 := by rw [literal.closing]; rfl
      simp only [closeFrom?, Byte.quotedEnd?, escape, literal.quote_ne b, closing, same, size,
        ne_eq, not_true, false_and, if_false]
      split
      · exact ih (some b)
      · split
        · rfl
        · exact ih (some b)

/-- **The close of a parenthesis begins where the scan for the matching one ends**, for all
bytes. -/
theorem IsParenthesized.closeFrom?_eq (parenthesized : s.IsParenthesized)
    (before : Option UInt8) :
    (closeFrom? s depth skip false before position all).map Prod.fst
      = Byte.matchingFrom? (depth + 1) skip position all := by
  induction all generalizing depth skip position before with
  | nil => cases skip <;> rfl
  | cons b all ih =>
    cases skip with
    | succ skip => exact ih (some b)
    | zero =>
      have quote : s.quote = some b ↔ b = Byte.ofAscii '"' := by
        rw [parenthesized.quote, Option.some.injEq, eq_comm]
      have closing : s.delimits (bytes s.closing) before (b :: all) = true ↔
          b = Byte.ofAscii ')' := by
        rw [parenthesized.closing, delimits_byte parenthesized.keyword (by decide), beq_iff_eq,
          eq_comm]
      have opening : s.opening ≠ s.closing
          ∧ s.delimits (bytes s.opening) before (b :: all) = true ↔ b = Byte.ofAscii '(' := by
        have differ : s.opening ≠ s.closing := by
          rw [parenthesized.opening, parenthesized.closing]
          decide
        rw [and_iff_right differ, parenthesized.opening,
          delimits_byte parenthesized.keyword (by decide), beq_iff_eq, eq_comm]
      have size : (bytes s.closing).length = 1 := by rw [parenthesized.closing]; rfl
      have size' : (bytes s.opening).length = 1 := by rw [parenthesized.opening]; rfl
      simp only [closeFrom?, Byte.matchingFrom?, parenthesized.escape_ne b, quote, closing, opening,
        size, size', if_false]
      split
      · rename_i quotes
        have jump := fun stop =>
          @ih depth (stop - (position + 1)) (position + 1) (some b)
        rw [closeFrom?_quoted_eq parenthesized.quote (some b) (some b), quotes]
        cases Byte.quotedEnd? (Byte.ofAscii '"') 0 (position + 1) all with
        | none => rfl
        | some stop => exact quotes ▸ jump stop
      · -- a byte is one parenthesis or the other, or none of them
        by_cases closes : b = Byte.ofAscii ')'
        · have other : b ≠ Byte.ofAscii '(' := by
            rw [closes]
            decide
          rw [if_pos closes, if_neg other, if_pos closes]
          cases depth with
          | zero => rfl
          | succ depth => exact ih (some b)
        · rw [if_neg closes, if_neg closes]
          split
          · exact ih (some b)
          · exact ih (some b)

/-! ### Texts -/

/-- Where the search finds a delimiter of one byte. -/
theorem places_of_single (single : (bytes s.closing).length = 1) (position : Nat) :
    s.places position = fun found =>
      (position + (bytes found.1).length, position + (bytes found.1).length + 1) := by
  funext found
  rw [places, single]

/-- On a text the close of a literal is where the scan over its characters finds it. -/
theorem IsLiteral.closeFrom?_bytes (literal : s.IsLiteral) (position : Nat) (t : Text) :
    closeFrom? s 0 0 false none position (bytes t) = (literal? t).map fun (contents, _) =>
      (position + (bytes contents).length, position + (bytes contents).length + 1) := by
  have found : closeFrom? s 0 0 false none position (bytes t)
      = (seek? s 0 0 false none t).map (s.places position) :=
    literal.isAscii.closeFrom?_eq (hidden_of_le_one (Nat.zero_le 1) t) none
  have single : (bytes s.closing).length = 1 := by rw [literal.closing]; rfl
  rw [found, literal.seek?_eq (Nat.zero_le 1) none, places_of_single single]
  rfl

/-- On a text the close of a parenthesis is where the scan over its characters finds it. -/
theorem IsParenthesized.closeFrom?_bytes (parenthesized : s.IsParenthesized) (position : Nat)
    (t : Text) :
    closeFrom? s 0 0 false none position (bytes t) = (closing? t).map fun (inner, _) =>
      (position + (bytes inner).length, position + (bytes inner).length + 1) := by
  have found : closeFrom? s 0 0 false none position (bytes t)
      = (seek? s 0 0 false none t).map (s.places position) :=
    parenthesized.isAscii.closeFrom?_eq (hidden_of_le_one (Nat.zero_le 1) t) none
  have single : (bytes s.closing).length = 1 := by rw [parenthesized.closing]; rfl
  rw [found, parenthesized.seek?_eq (Nat.zero_le 1) (fun _ => rfl) none, places_of_single single]
  rfl

theorem IsLiteral.closePosition?_eq (literal : s.IsLiteral) (t : Text) :
    s.closePosition? t = (literal? t).map fun (contents, _) =>
      ((bytes contents).length, (bytes contents).length + 1) := by
  have found := literal.closeFrom?_bytes 0 t
  simp only [Nat.zero_add] at found
  exact found

theorem IsParenthesized.closePosition?_eq (parenthesized : s.IsParenthesized) (t : Text) :
    s.closePosition? t = (closing? t).map fun (inner, _) =>
      ((bytes inner).length, (bytes inner).length + 1) := by
  have found := parenthesized.closeFrom?_bytes 0 t
  simp only [Nat.zero_add] at found
  exact found

end Span

namespace Byte

open Text

/-- The scan for the byte that closes a literal, on a text. -/
theorem quotedEnd?_bytes (position : Nat) (t : Text) :
    quotedEnd? (ofAscii '"') 0 position (bytes t) = (literal? t).map fun (contents, _) =>
      position + (bytes contents).length + 1 := by
  let quotes : Span :=
    { opening := ['"'], closing := ['"'], interior := .inline, escape := ofAscii '\\' }
  have literal : quotes.IsLiteral := ⟨rfl, rfl, rfl, rfl, rfl⟩
  rw [← literal.closeFrom?_eq none, literal.closeFrom?_bytes, Option.map_map]
  rfl

/-- The scan for a matching parenthesis, on a text behind an open one. -/
theorem matchingFrom?_bytes (position : Nat) (t : Text) :
    matchingFrom? 1 0 position (bytes t) = (closing? t).map fun (inner, _) =>
      position + (bytes inner).length := by
  let parentheses : Span :=
    { opening := ['('], closing := [')'], interior := .inline, quote := ofAscii '"' }
  have parenthesized : parentheses.IsParenthesized := ⟨rfl, rfl, rfl, rfl, rfl⟩
  rw [← parenthesized.closeFrom?_eq none, parenthesized.closeFrom?_bytes, Option.map_map]
  rfl

end Byte

namespace Text

theorem literalEnd?_append (front rest : Text) :
    literalEnd? (bytes front).length (front ++ '"' :: rest) = (literal? rest).map
      fun (contents, _) => (bytes front).length + 1 + (bytes contents).length + 1 := by
  rw [literalEnd?, drop_bytes, bytes_cons_of_isAscii (by decide)]
  exact Byte.quotedEnd?_bytes _ rest

theorem matchingParenthesis?_append (front rest : Text) :
    matchingParenthesis? (bytes front).length (front ++ '(' :: rest) = (closing? rest).map
      fun (inner, _) => (bytes front).length + 1 + (bytes inner).length := by
  have quote : Byte.ofAscii '(' ≠ Byte.ofAscii '"' := by decide
  rw [matchingParenthesis?, drop_bytes, bytes_cons_of_isAscii (by decide), Byte.matchingFrom?,
    if_neg quote, if_pos rfl]
  exact Byte.matchingFrom?_bytes _ rest

/-- The scan for a matching parenthesis stops at a boundary, wherever it began. -/
theorem isBoundary_of_matchingParenthesis? {t : Text} {opening offset : Nat}
    (found : matchingParenthesis? opening t = some offset) : t.IsBoundary offset := by
  obtain ⟨front, rest, split, rfl⟩ := Byte.exists_of_matchingFrom? found
  have here : (bytes t)[opening + front.length]? = some (Byte.ofAscii ')') := by
    rw [← List.getElem?_drop, split, List.getElem?_append_right (Nat.le_refl _), Nat.sub_self]
    rfl
  obtain ⟨before, rest, rfl, same⟩ := exists_of_byte (by decide) here
  exact ⟨before, _, rfl, same⟩

end Text

end RecordMapper
