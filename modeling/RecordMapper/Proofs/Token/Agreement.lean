import RecordMapper.Proofs.Text.Segments
import RecordMapper.Proofs.Token.ByteScans

/-!
The scans of literals and parentheses agree.

Where a literal or a parenthesis is closed is decided in several places: by the scans over bytes
that start at an offset of the text, by the search for the close of a span, which a tokenizer makes,
and by the scans over characters, which read literals and calls and unwrap parentheses. And what
stands in a literal is decided once more where blanks are flattened. **All of them decide the same,
for every text** (`Text.scans_agree`), whether the literal or the parenthesis is closed or not.
-/

namespace RecordMapper.Text

/-- **The scans of literals and parentheses agree.** For every parenthesis of a text, the scan over
bytes for the one that closes it finds the offset at which the search for the close of a span of
parentheses ends in the text behind it, or both find nothing; and so does the scan over characters.
For every quote, the scan over bytes finds the offset behind the one that closes the span of a
literal. And in a text whose literals are closed, flattening leaves what stands in literals as it is,
writes each other blank as a space and keeps all else; doing it twice is doing it once. -/
theorem scans_agree {parentheses quotes : Span} (parenthesized : parentheses.IsParenthesized)
    (literal : quotes.IsLiteral) :
    (∀ (t : Text) (opening : Nat), (bytes t)[opening]? = some (Byte.ofAscii '(') →
        ∃ rest, from? (opening + 1) t = some rest
          ∧ matchingParenthesis? opening t
            = (parentheses.closePosition? rest).map (fun (start, _) => opening + 1 + start)
          ∧ matchingParenthesis? opening t
            = (closing? rest).map fun (inner, _) => opening + 1 + (bytes inner).length)
      ∧ (∀ (t : Text) (opening : Nat), (bytes t)[opening]? = some (Byte.ofAscii '"') →
        ∃ rest, from? (opening + 1) t = some rest
          ∧ literalEnd? opening t
            = (quotes.closePosition? rest).map (fun (_, stop) => opening + 1 + stop)
          ∧ literalEnd? opening t
            = (literal? rest).map fun (contents, _) => opening + 1 + (bytes contents).length + 1)
      ∧ (∀ t, ClosesLiterals t → ∃ segments, Segmented segments t
          ∧ Segmented (segments.map Segment.flatten) (flattenBlanks t)
          ∧ t = segments.flatMap Segment.text
          ∧ flattenBlanks t = (segments.map Segment.flatten).flatMap Segment.text)
      ∧ ∀ t, flattenBlanks (flattenBlanks t) = flattenBlanks t := by
  refine ⟨fun t opening found => ?_, fun t opening found => ?_, fun t closes => ?_,
    flattenBlanks_flattenBlanks⟩
  · obtain ⟨front, rest, rfl, rfl⟩ := exists_of_byte (by decide) found
    refine ⟨rest, from?_cons_append front '(' rest, ?_, matchingParenthesis?_append ..⟩
    rw [matchingParenthesis?_append, parenthesized.closePosition?_eq, Option.map_map]
    rfl
  · obtain ⟨front, rest, rfl, rfl⟩ := exists_of_byte (by decide) found
    refine ⟨rest, from?_cons_append front '"' rest, ?_, literalEnd?_append ..⟩
    rw [literalEnd?_append, literal.closePosition?_eq, Option.map_map]
    rfl
  · obtain ⟨segments, segmented⟩ := closesLiterals_iff.1 closes
    have flattened := segmented.flattenBlanks
    exact ⟨segments, segmented, flattened, segmented.eq_flatMap, flattened.eq_flatMap⟩

/-- A letter of two bytes behind a backslash, a parenthesis in a literal, and one of either that is
not closed. -/
def escapedLetter : Text := ['é', '(', '"', '\\', 'é', ')', '"', ')', '(', '"']

/-- The scans agree where an escape hides the first byte of a letter and where nothing closes, and a
tab stays in a literal. -/
theorem scans_agree_escaped :
    matchingParenthesis? 2 escapedLetter = some 9
      ∧ literalEnd? 3 escapedLetter = some 9
      ∧ matchingParenthesis? 10 escapedLetter = none
      ∧ literalEnd? 11 escapedLetter = none
      ∧ (∃ segments, Segmented segments ['"', '\t', '"', '\t']
        ∧ Segmented (segments.map Segment.flatten) ['"', '\t', '"', ' '])
      ∧ flattenBlanks (flattenBlanks escapedLetter) = escapedLetter := by
  obtain ⟨parentheses, quotes, segmented, twice⟩ := @scans_agree
    { opening := ['('], closing := [')'], interior := .inline, quote := Byte.ofAscii '"' }
    { opening := ['"'], closing := ['"'], interior := .inline, escape := Byte.ofAscii '\\' }
    ⟨rfl, rfl, rfl, rfl, rfl⟩ ⟨rfl, rfl, rfl, rfl, rfl⟩
  have tabs : Segmented [.literal ['\t'], .outside '\t'] ['"', '\t', '"', '\t'] :=
    .literal rfl (.outside (by decide) .nil)
  refine ⟨?_, ?_, ?_, ?_, ?_, (twice escapedLetter).trans rfl⟩
  · obtain ⟨rest, behind, -, same⟩ := parentheses escapedLetter 2 rfl
    cases behind
    exact same
  · obtain ⟨rest, behind, -, same⟩ := quotes escapedLetter 3 rfl
    cases behind
    exact same
  · obtain ⟨rest, behind, -, same⟩ := parentheses escapedLetter 10 rfl
    cases behind
    exact same
  · obtain ⟨rest, behind, -, same⟩ := quotes escapedLetter 11 rfl
    cases behind
    exact same
  · obtain ⟨segments, before, flattened, -⟩ := segmented _ tabs.closesLiterals
    exact ⟨segments, before, flattened⟩

end RecordMapper.Text
