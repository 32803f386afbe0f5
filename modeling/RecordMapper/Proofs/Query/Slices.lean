import RecordMapper.Proofs.Query.Mentions
import RecordMapper.Proofs.Query.Parts
import RecordMapper.Proofs.Related
import RecordMapper.Proofs.Token.Slices
import RecordMapper.Proofs.Token.TopLevel
import RecordMapper.Query.Grammar

/-!
Reading a query by slices of the text.

Where the parser takes a text apart, it may do so by byte offsets: the chain in the parentheses that
wrap a text, the sides of a comparison, the arguments of a call and what follows the word that asks
for distinct ones are slices. Each of them is taken where a scan over bytes stopped, and each exists;
what is read is what the forms and tokenizers read.

**All offsets at which a text is cut are boundaries** (`Text.slices_exist`): those of delimiters and
operators, of parentheses and of tokens, for every text.
-/

namespace RecordMapper

open Text

/-! ### Parentheses around a text -/

namespace Text

/-- One pair of parentheses wraps the text. -/
def isWrapped (t : Text) : Bool :=
  t.head? == some '(' && matchingParenthesis? 0 t == some ((bytes t).length - 1)

/-- The slice between the parentheses that wrap a text. There is no answer if the slice does not
exist. -/
def unwrapSlices? (t : Text) : Option (Option Text) :=
  if isWrapped t then (between? 1 ((bytes t).length - 1) t).map some else some none

/-- **What parentheses wrap is a slice.** -/
theorem unwrapSlices?_eq (t : Text) : unwrapSlices? t = some (unwrapped? t) := by
  cases t with
  | nil => rfl
  | cons c t =>
    by_cases opened : c = '('
    · subst opened
      have matching := matchingParenthesis?_append [] t
      rw [List.nil_append, bytes_nil, List.length_nil] at matching
      cases closed : closing? t with
      | none =>
        rw [closed] at matching
        simp only [unwrapSlices?, isWrapped, matching, unwrapped?, closed]
        rfl
      | some found =>
        obtain ⟨inner, behind⟩ := found
        obtain ⟨rfl, -⟩ := exists_of_closingFrom? closed
        have size : (bytes ('(' :: (inner ++ ')' :: behind))).length - 1
            = 1 + (bytes inner).length + (bytes behind).length := by
          rw [bytes_cons_of_isAscii (by decide), bytes_append, bytes_cons_of_isAscii (by decide),
            List.length_cons, List.length_append, List.length_cons]
          omega
        have wrapped : isWrapped ('(' :: (inner ++ ')' :: behind)) = true ↔ behind = [] := by
          rw [closed] at matching
          rw [isWrapped, matching, size, ← length_bytes_eq_zero_iff]
          simp
        rw [unwrapSlices?, size, unwrapped?, closed]
        cases behind with
        | nil =>
          rw [if_pos (wrapped.2 rfl)]
          exact congrArg (Option.map some) (between?_append ['('] inner [')'])
        | cons d behind =>
          rw [if_neg fun all => List.cons_ne_nil _ _ (wrapped.1 all)]
    · have missed : isWrapped (c :: t) = false := by simp [isWrapped, opened]
      rw [unwrapSlices?, missed, unwrapped?_cons_eq_none opened]
      rfl

end Text

/-! ### Chains -/

namespace Chain

/-- Tokenizes a chain by slices and unwraps it while one pair of parentheses wraps it, at most `depth`
times. -/
def tokensWithinSlices? (tokenizer : Tokenizer) : (depth : Nat) → Text → Option (List Token)
  | 0, t => tokenizer.tokenizeSlices? t
  | depth + 1, t => do
    match ← tokenizer.tokenizeSlices? t with
    | [.text one] =>
      match ← unwrapSlices? one.trim with
      | some inner => tokensWithinSlices? tokenizer depth inner
      | none => some [.text one]
    | tokens => some tokens

/-- The operands and operators of a chain by slices, for a tokenizer with the symbols of chains. -/
def tokensSlices? (tokenizer : Tokenizer) (t : Text) : Option (List Token) :=
  tokensWithinSlices? tokenizer t.length t

theorem tokensWithinSlices?_eq {tokenizer : Tokenizer}
    (closes : ∀ symbol ∈ tokenizer.symbols, symbol.Closes) (depth : Nat) (t : Text) :
    tokensWithinSlices? tokenizer depth t = some (tokensWithin tokenizer depth t) := by
  induction depth generalizing t with
  | zero => exact Tokenizer.tokenizeSlices?_eq closes t
  | succ depth ih =>
    rw [tokensWithinSlices?, Tokenizer.tokenizeSlices?_eq closes, tokensWithin]
    simp only [Option.bind_eq_bind, Option.bind_some, unwrapSlices?_eq]
    generalize tokenizer.tokenize t = tokens
    rcases tokens with _ | ⟨one | nested, _ | ⟨other, others⟩⟩
    case cons.text.nil =>
      cases unwrapped : unwrapped? one.trim with
      | none => simp only [unwrapped]
      | some inner => simp only [unwrapped, ih]
    all_goals rfl

end Chain

/-! ### Comparisons -/

namespace Text

variable {operator left right t : Text} {words : Bool}

/-- What an operator splits a text into are slices of it, one up to the operator and one behind it. -/
theorem slices_of_splitAt? (split : splitAt? operator words t = some (left, right)) :
    upTo? (bytes left).length t = some left
      ∧ from? ((bytes left).length + (bytes operator).length) t = some right := by
  obtain ⟨rest, rfl, -, after⟩ := exists_of_splitFrom? split
  obtain ⟨word, agrees, rfl, -⟩ := CmpOp.exists_of_afterOperator? after
  have behind := from?_append (left ++ word) right
  rw [bytes_append, List.length_append, length_bytes_of_agree agrees, List.append_assoc] at behind
  exact ⟨upTo?_append left (word ++ right), behind⟩

end Text

namespace CmpOp

/-- The first spelling that occurs at the top level, and its offset. -/
def find? (t : Text) : Option (Nat × Text × CmpOp) :=
  spellings.findSome? fun (spelling, op) =>
    (operatorOffset? spelling op.isWords t).map fun offset => (offset, spelling, op)

/-- Splits a comparison at its operator by slices. There is no answer if a slice does not exist. -/
def splitSlices? (t : Text) : Option (Option (Text × CmpOp × Text)) :=
  match find? t with
  | none => some none
  | some (offset, spelling, op) => do
    let left ← upTo? offset t
    let right ← from? (offset + (bytes spelling).length) t
    some (some (left, op, right))

theorem ascii_of_mem_spellings {spelling : Text × CmpOp} (mem : spelling ∈ spellings) :
    spelling.1 ≠ [] ∧ ∀ a ∈ spelling.1, IsAscii a := by
  have checked : (spellings.all fun spelling =>
      !spelling.1.isEmpty && spelling.1.all fun a => decide (IsAscii a)) = true := rfl
  simpa using List.all_eq_true.1 checked spelling mem

/-- **The sides of a comparison are slices.** -/
theorem splitSlices?_eq (t : Text) : splitSlices? t = some (split? t) := by
  have rel : Option.Rel (fun (found : Nat × Text × CmpOp) (sides : Text × CmpOp × Text) =>
      sides.2.1 = found.2.2 ∧ upTo? found.1 t = some sides.1
        ∧ from? (found.1 + (bytes found.2.1).length) t = some sides.2.2) (find? t) (split? t) := by
    refine rel_findSome? fun (spelling, op) mem => ?_
    simp only [operatorOffset?_eq (ascii_of_mem_spellings mem)]
    cases split : splitAt? spelling op.isWords t with
    | none => exact .none
    | some sides => exact .some ⟨rfl, slices_of_splitAt? split⟩
  rw [splitSlices?]
  rcases exists_of_rel rel with
    ⟨missed, missed'⟩ | ⟨⟨offset, spelling, op⟩, ⟨left, op', right⟩, ⟨rfl, upTo, behind⟩, found, split⟩
  · rw [missed, missed']
  · simp only [found, split, upTo, behind, Option.bind_eq_bind, Option.bind_some]

/-- A comparison can be cut in front of an operator and behind it. -/
theorem isBoundary_of_operatorOffset? {spelling : Text × CmpOp} (mem : spelling ∈ spellings)
    {t : Text} {offset : Nat} (found : operatorOffset? spelling.1 spelling.2.isWords t = some offset) :
    t.IsBoundary offset ∧ t.IsBoundary (offset + (bytes spelling.1).length) := by
  rw [operatorOffset?_eq (ascii_of_mem_spellings mem)] at found
  obtain ⟨⟨left, right⟩, split, rfl⟩ := Option.map_eq_some_iff.1 found
  obtain ⟨upTo, behind⟩ := slices_of_splitAt? split
  obtain ⟨rest, whole⟩ := upTo?_eq_some_iff.1 upTo
  obtain ⟨front, whole'⟩ := from?_eq_some_iff.1 behind
  exact ⟨⟨left, rest, whole⟩, front, right, whole'⟩

end CmpOp

/-! ### Calls -/

namespace Form

/-- The name of a call and the offset of the parenthesis behind it. -/
def callStart? (t : Text) : Option (Text × Nat) := do
  let (name, rest) ← word? t
  let first ← name.head?
  if isNameStart first ∧ (trimStart rest).head? = some '(' then
    some (name, (bytes t).length - (bytes (trimStart rest)).length)
  else none

/-- What parentheses enclose and what follows them are slices. -/
theorem slices_of_parentheses (front inner behind : Text) :
    between? ((bytes front).length + 1) ((bytes front).length + 1 + (bytes inner).length)
        (front ++ '(' :: (inner ++ ')' :: behind)) = some inner
      ∧ from? ((bytes front).length + 1 + (bytes inner).length + 1)
        (front ++ '(' :: (inner ++ ')' :: behind)) = some behind := by
  have opening : (bytes (front ++ ['('])).length = (bytes front).length + 1 :=
    length_bytes_concat front '('
  have inside := between?_append (front ++ ['(']) inner (')' :: behind)
  have last := from?_cons_append (front ++ ['('] ++ inner) ')' behind
  rw [bytes_append, List.length_append, opening] at last
  rw [opening] at inside
  simp only [List.append_assoc, List.singleton_append] at inside last
  exact ⟨inside, last⟩

/-- Reads a call by slices. There is no answer if a slice does not exist. -/
def callSlices? (t : Text) : Option (Option Call) :=
  match callStart? t with
  | none => some none
  | some (name, opening) =>
    match matchingParenthesis? opening t with
    | none => some none
    | some stop => do
      let arguments ← between? (opening + 1) stop t
      let behind ← from? (stop + 1) t
      some ((ending? behind).map fun a => ⟨String.ofList name, arguments, a⟩)

/-- **The arguments of a call are a slice.** -/
theorem callSlices?_eq (t : Text) : callSlices? t = some (call? t) := by
  rw [callSlices?, callStart?]
  cases read : word? t with
  | none => simp [call?, read]
  | some found =>
    obtain ⟨name, rest⟩ := found
    obtain ⟨-, rfl⟩ := exists_of_word? read
    cases head : name.head? with
    | none => simp [call?, read, head]
    | some first =>
      cases start : isNameStart first with
      | false => simp [call?, read, head, start]
      | true =>
        rcases opened : trimStart rest with _ | ⟨c, behind⟩
        · simp [call?, read, head, opened]
        by_cases parenthesis : c = '('
        · subst parenthesis
          have whole : name ++ rest = name ++ rest.takeWhile isBlank ++ '(' :: behind := by
            rw [← opened, trimStart, List.append_assoc, List.takeWhile_append_dropWhile]
          generalize name ++ rest.takeWhile isBlank = front at whole
          have opening : (bytes (name ++ rest)).length - (bytes ('(' :: behind)).length
              = (bytes front).length := by
            rw [whole, bytes_append, List.length_append, Nat.add_sub_cancel]
          simp only [read, head, start, opened, opening, call?, Option.bind_eq_bind, Option.bind_some,
            List.head?_cons, and_self, if_true]
          rw [whole, matchingParenthesis?_append]
          cases closed : closing? behind with
          | none => rfl
          | some found =>
            obtain ⟨arguments, tail⟩ := found
            obtain ⟨rfl, -⟩ := exists_of_closingFrom? closed
            obtain ⟨inside, last⟩ := slices_of_parentheses front arguments tail
            simp only [Option.map_some, inside, last, Option.bind_some]
            cases ending? tail <;> rfl
        · simp [call?, read, head, opened, parenthesis]

end Form

/-! ### Distinct arguments -/

namespace Text

/-- What follows `start`, in any case of its letters, by slices. There is no answer if a slice does not
exist. -/
def afterSlices? (start t : Text) : Option (Option Text) :=
  if (upTo? (bytes start).length t).any (sameLetters start) then
    (from? (bytes start).length t).map some
  else some none

/-- **What follows a word is a slice.** -/
theorem afterSlices?_eq (start t : Text) : afterSlices? start t = some (after? true start t) := by
  rw [afterSlices?]
  cases found : after? true start t with
  | some rest =>
    obtain ⟨word, agrees, rfl⟩ := after?_eq_some_iff.1 found
    have upTo := upTo?_append word rest
    have behind := from?_append word rest
    have same : sameLetters start word = true := sameLetters_iff.2 agrees
    rw [length_bytes_of_agree agrees] at upTo behind
    rw [upTo, behind, Option.any_some, if_pos same]
    rfl
  | none =>
    rw [if_neg]
    intro starts
    obtain ⟨word, upTo, same⟩ := (Option.any_eq_true _ _).1 starts
    obtain ⟨rest, rfl, -⟩ := upTo?_eq_some_iff.1 upTo
    have found' : after? true start (word ++ rest) = some rest :=
      after?_eq_some_iff.2 ⟨word, sameLetters_iff.1 same, rfl⟩
    rw [found] at found'
    cases found'

end Text

/-! ### All slices -/

/-- The spans of the query language have closing delimiters. -/
theorem Grammar.closes_of_mem :
    ∀ tokenizer ∈ [FieldList.tokenizer, Chain.tokenizer, Connected.tokenizer, CaseBody.tokenizer],
      ∀ symbol ∈ tokenizer.symbols, symbol.Closes := by
  decide

/-- **All offsets at which a text is cut are boundaries, and all slices exist.** Those of the closing
delimiter of a span and of the opening one, of a delimiter that becomes a token, of each operator of
comparisons and of a matching parenthesis are boundaries, whatever characters and bytes delimiters,
quotes and escapes are, as long as closing delimiters are not empty. So a tokenizer, the unwrapping of
chains, the splitting of comparisons and the reading of calls that take every part of a text as a slice
always find it, and give what the tokenizers and forms do. -/
theorem Text.slices_exist :
    (∀ (s : Span) (t : Text) (start stop : Nat), s.closing ≠ [] →
        s.closePosition? t = some (start, stop) → t.IsBoundary start ∧ t.IsBoundary stop)
      ∧ (∀ (s : Span) (buffer rest : Text) (offset : Nat),
        s.openOffset? buffer rest = some offset → buffer.IsBoundary offset)
      ∧ (∀ (t buffer rest : Text) (ignoreCase : Bool) (before consumed : Nat) (pieces : List Piece),
        (Symbol.literal t ignoreCase).matchSlices? buffer rest
            = some (some (.split before pieces consumed)) → buffer.IsBoundary before)
      ∧ (∀ spelling ∈ CmpOp.spellings, ∀ (t : Text) (offset : Nat),
        operatorOffset? spelling.1 spelling.2.isWords t = some offset →
          t.IsBoundary offset ∧ t.IsBoundary (offset + (bytes spelling.1).length))
      ∧ (∀ (t : Text) (opening offset : Nat),
        matchingParenthesis? opening t = some offset → t.IsBoundary offset)
      ∧ (∀ tokenizer : Tokenizer, (∀ symbol ∈ tokenizer.symbols, symbol.Closes) → ∀ t : Text,
        tokenizer.tokenizeSlices? t = some (tokenizer.tokenize t)
          ∧ Chain.tokensSlices? tokenizer t = some (Chain.tokensBy tokenizer t))
      ∧ ∀ t : Text, CmpOp.splitSlices? t = some (CmpOp.split? t)
        ∧ Form.callSlices? t = some (Form.call? t)
        ∧ afterSlices? Grammar.distinctKeyword t = some (after? true Grammar.distinctKeyword t) := by
  refine ⟨fun s t start stop closing found => Span.isBoundary_of_closePosition? closing found,
    fun s buffer rest offset found => Span.isBoundary_of_openOffset? found,
    fun t buffer rest ignoreCase before consumed pieces found =>
      Symbol.isBoundary_of_matchSlices? found,
    fun spelling mem t offset found => CmpOp.isBoundary_of_operatorOffset? mem found,
    fun t opening offset found => isBoundary_of_matchingParenthesis? found,
    fun tokenizer closes t => ⟨tokenizer.tokenizeSlices?_eq closes t, ?_⟩, fun t => ⟨?_, ?_, ?_⟩⟩
  · exact Chain.tokensWithinSlices?_eq closes t.length t
  · exact CmpOp.splitSlices?_eq t
  · exact Form.callSlices?_eq t
  · exact afterSlices?_eq Grammar.distinctKeyword t

/-- Text between angle quotes, in which the second byte of an é hides the first byte behind it. -/
def Span.angled : Span where
  opening := ['‹']
  closing := ['›']
  interior := .raw
  escape := some 0xA9

/-- A hidden byte at the start of a closing delimiter: that one does not count, and the text is cut at
the next one. -/
theorem Text.slices_exist_angled :
    IsBoundary ['é', '›', 'x', '›', 'y'] 6
      ∧ IsBoundary ['é', '›', 'x', '›', 'y'] 9
      ∧ Tokenizer.tokenizeSlices? { symbols := [.span .angled] } ['‹', 'é', '›', 'x', '›', 'y']
        = some [.text ['é', '›', 'x'], .text ['y']] := by
  obtain ⟨closing, -, -, -, -, tokens, -⟩ := slices_exist
  have boundaries := closing .angled ['é', '›', 'x', '›', 'y'] 6 9 (by decide) rfl
  have sliced := tokens { symbols := [.span .angled] } (by decide) ['‹', 'é', '›', 'x', '›', 'y']
  exact ⟨boundaries.1, boundaries.2, sliced.1⟩

end RecordMapper
