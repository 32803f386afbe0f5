import RecordMapper.Proofs.Token.Lossless
import RecordMapper.Proofs.Token.Offsets

/-!
Tokenizing by slices of the text.

A tokenizer may read its text by byte offsets alone: it keeps the offset up to which it has read,
counts in bytes what its symbols recognize, and takes each part of the text as a slice. A slice whose
end lies beyond the text or within a character does not exist, and without it there are no tokens.

If no span of the tokenizer has an empty closing delimiter, **there always are tokens, and they are
those of the tokenizer** (`Tokenizer.tokenizeSlices?_eq`): all offsets are boundaries, whatever
characters and bytes the delimiters, quotes and escapes are.
-/

namespace RecordMapper

open Text

/-! ### Delimiters at the end -/

/-- The offset from which the text is a delimiter. -/
def Text.endOffset? (ignoreCase : Bool) (delimiter t : Text) : Option Nat :=
  let start := (bytes t).length - (bytes delimiter).length
  if (bytes delimiter).length ≤ (bytes t).length
      ∧ (Byte.after? ignoreCase (bytes delimiter) ((bytes t).drop start)).isSome then some start
  else none

/-- The offset of the opening delimiter, if the text read so far ends in one. -/
def Span.openOffset? (s : Span) (buffer rest : Text) : Option Nat :=
  if s.opening.isEmpty then none
  else
    match endOffset? s.keyword s.opening buffer with
    | some start =>
      let before := ((bytes buffer).take start).getLast?
      if !s.keyword || Byte.standsAlone before (bytes rest).head? then some start else none
    | none => none

namespace Text

/-- **A delimiter at the end is found where it stands.** -/
theorem endOffset?_reverse {ignoreCase : Bool} {delimiter : Text} (nonempty : delimiter ≠ [])
    (seen : Text) :
    endOffset? ignoreCase delimiter seen.reverse
      = (after? ignoreCase delimiter.reverse seen).map fun before =>
          (bytes before.reverse).length := by
  cases found : after? ignoreCase delimiter.reverse seen with
  | some before =>
    obtain ⟨word, agrees, rfl⟩ := after?_eq_some_iff.1 found
    have agrees : List.Forall₂ (fun a b => agree ignoreCase a b = true) delimiter word.reverse := by
      rw [← List.reverse_reverse delimiter]
      exact List.rel_reverse agrees
    have size := length_bytes_of_agree agrees
    have start : (bytes (before.reverse ++ word.reverse)).length - (bytes delimiter).length
        = (bytes before.reverse).length := by
      rw [bytes_append, List.length_append, size, Nat.add_sub_cancel]
    have fits : (bytes delimiter).length ≤ (bytes (before.reverse ++ word.reverse)).length := by
      rw [bytes_append, List.length_append, size]
      exact Nat.le_add_left _ _
    have here := after?_bytes_of_agree agrees []
    rw [List.append_nil] at here
    rw [endOffset?, List.reverse_append, start, drop_bytes, here, if_pos ⟨fits, rfl⟩]
    rfl
  | none =>
    rw [endOffset?, if_neg]
    · rfl
    rintro ⟨fits, here⟩
    obtain ⟨rest, here⟩ := Option.isSome_iff_exists.1 here
    obtain ⟨before, word, behind, whole, same, -, agrees⟩ :=
      exists_of_after?_bytes nonempty (List.take_append_drop _ _).symm here
    -- the word is as long as the delimiter, so nothing stands behind it
    have all := congrArg (fun t => (bytes t).length) whole
    have start := congrArg List.length same
    rw [List.length_take, Nat.min_eq_left (Nat.sub_le _ _)] at start
    simp only [bytes_append, List.length_append, length_bytes_of_agree agrees] at all
    obtain rfl : behind = [] := length_bytes_eq_zero_iff.1 (by omega)
    have ends : seen = word.reverse ++ before.reverse := by
      rw [← List.reverse_append, ← List.reverse_eq_iff, whole, List.append_nil]
    have found' : after? ignoreCase delimiter.reverse seen = some before.reverse :=
      after?_eq_some_iff.2 ⟨word.reverse, List.rel_reverse agrees, ends⟩
    rw [found] at found'
    cases found'

/-- A text can be cut in front of a delimiter at its end. -/
theorem isBoundary_of_endOffset? {ignoreCase : Bool} {delimiter t : Text} (nonempty : delimiter ≠ [])
    {offset : Nat} (found : endOffset? ignoreCase delimiter t = some offset) :
    t.IsBoundary offset := by
  rw [endOffset?] at found
  split at found
  · rename_i here
    obtain ⟨rest, here⟩ := Option.isSome_iff_exists.1 here.2
    cases found
    have cut := (isBoundary_of_after?_bytes nonempty (List.take_append_drop _ _).symm here).1
    rwa [List.length_take, Nat.min_eq_left (Nat.sub_le _ _)] at cut
  · cases found

theorem getLast?_bytes (t : Text) : (bytes t).getLast? = lastByte? t.getLast? := by
  rcases List.eq_nil_or_concat t with rfl | ⟨front, c, rfl⟩
  · rfl
  · have nonempty : String.utf8EncodeChar c ≠ [] := String.utf8EncodeChar_ne_nil
    rw [List.concat_eq_append, bytes_append, bytes_cons, bytes_nil, List.append_nil,
      List.getLast?_append_of_ne_nil _ nonempty, List.getLast?_concat]
    rfl

end Text

namespace Span

/-- A text can be cut in front of the opening delimiter of a span. -/
theorem isBoundary_of_openOffset? {s : Span} {buffer rest : Text} {offset : Nat}
    (found : s.openOffset? buffer rest = some offset) : buffer.IsBoundary offset := by
  rw [openOffset?] at found
  split at found
  · cases found
  · rename_i nonempty
    split at found
    · rename_i start here
      dsimp only at found
      split at found
      · cases found
        exact isBoundary_of_endOffset? (by simpa using nonempty) here
      · cases found
    · cases found

/-- A text can be cut in front of the closing delimiter of a span and behind it. -/
theorem isBoundary_of_closePosition? {s : Span} (closing : s.closing ≠ []) {t : Text}
    {start stop : Nat} (found : s.closePosition? t = some (start, stop)) :
    t.IsBoundary start ∧ t.IsBoundary stop := by
  obtain ⟨inner, word, behind, rfl, -, rfl, rfl⟩ := exists_of_closePosition? closing found
  exact ⟨⟨inner, word ++ behind, rfl, rfl⟩, inner ++ word, behind, by rw [List.append_assoc], rfl⟩

/-- **The opening delimiter of a span is found where it stands.** -/
theorem openOffset?_reverse (s : Span) (seen rest : Text) :
    s.openOffset? seen.reverse rest
      = (s.openAtEnd? seen rest).map fun front => (bytes front).length := by
  rw [openOffset?, openAtEnd?]
  split
  · rfl
  · rename_i nonempty
    rw [endOffset?_reverse (by simpa using nonempty)]
    cases found : after? s.keyword s.opening.reverse seen with
    | none => rfl
    | some before =>
      obtain ⟨word, -, rfl⟩ := after?_eq_some_iff.1 found
      have front : ((bytes (word ++ before).reverse).take (bytes before.reverse).length).getLast?
          = lastByte? before.head? := by
        rw [List.reverse_append, bytes_append, List.take_left, getLast?_bytes, List.getLast?_reverse]
      simp only [Option.map_some, front, Byte.standsAlone_eq]
      split <;> rfl

end Span

/-! ### Symbols -/

/-- What a symbol recognized, counted in bytes. -/
inductive ByteMatch where
  /-- The current token ends behind `before` bytes, the pieces follow, and `consumed` bytes of the
  text ahead belong to what was recognized. -/
  | split (before : Nat) (pieces : List Piece) (consumed : Nat)
  /-- The next `consumed` bytes belong to the current token. -/
  | extend (consumed : Nat)

/-- A match counted in bytes, when `rest` lies ahead. -/
def Match.inBytes (rest : Text) : Match → ByteMatch
  | .split before pieces consumed =>
    .split (bytes before).length pieces (bytes (rest.take consumed)).length
  | .extend consumed => .extend (bytes (rest.take consumed)).length

namespace Symbol

/-- What the symbol recognizes at the end of `buffer`, the text read since the last token, when `rest`
lies ahead. There is no answer if a slice does not exist. -/
def matchSlices? (buffer rest : Text) : Symbol → Option (Option ByteMatch)
  | .literal t ignoreCase =>
    if t.isEmpty then some none
    else some ((endOffset? ignoreCase t buffer).map fun before => .split before [.flat t] 0)
  | .span s =>
    match s.openOffset? buffer rest, s.closePosition? rest with
    | some before, some (start, stop) => do
      let front ← upTo? before buffer
      let behind ← from? stop rest
      if s.guard front behind then
        let interior ← upTo? start rest
        some (some (match s.interior with
          | .inline => .extend stop
          | _ => .split before (pieces s interior) stop))
      else some none
    | _, _ => some none

/-- A span has a closing delimiter. -/
def Closes : Symbol → Prop
  | .literal _ _ => True
  | .span s => s.closing ≠ []

instance : DecidablePred Closes
  | .literal _ _ => .isTrue trivial
  | .span s => inferInstanceAs (Decidable (s.closing ≠ []))

variable {symbol : Symbol}

/-- A text can be cut in front of a delimiter that becomes a token of its own. -/
theorem isBoundary_of_matchSlices? {t buffer rest : Text} {ignoreCase : Bool} {before consumed : Nat}
    {pieces : List Piece}
    (found : (literal t ignoreCase).matchSlices? buffer rest
      = some (some (.split before pieces consumed))) : buffer.IsBoundary before := by
  rw [matchSlices?] at found
  split at found
  · cases found
  · rename_i nonempty
    obtain ⟨offset, here, same⟩ := Option.map_eq_some_iff.1 (Option.some.inj found)
    cases same
    exact isBoundary_of_endOffset? (by simpa using nonempty) here

/-- **All slices that a symbol takes exist, and it recognizes what it does without them.** -/
theorem matchSlices?_reverse (closes : symbol.Closes) (seen rest : Text) :
    symbol.matchSlices? seen.reverse rest
      = some ((symbol.match? seen rest).map (Match.inBytes rest)) := by
  cases symbol with
  | literal t ignoreCase =>
    rw [matchSlices?, match?]
    split
    · rfl
    · rename_i nonempty
      rw [endOffset?_reverse (by simpa using nonempty), Option.map_map, Option.map_map]
      rfl
  | span s =>
    have closing : s.closing ≠ [] := closes
    cases opened : s.openAtEnd? seen rest with
    | none => simp only [matchSlices?, match?, Span.openOffset?_reverse, opened, Option.map_none]
    | some front =>
      cases found : s.closePosition? rest with
      | none => simp [matchSlices?, match?, Span.openOffset?_reverse, opened, Span.close?, found]
      | some range =>
        obtain ⟨start, stop⟩ := range
        obtain ⟨inner, word, behind, rfl, -, rfl, rfl⟩ := Span.exists_of_closePosition? closing found
        obtain ⟨before, read, -, rfl⟩ := Span.exists_of_openAtEnd? opened
        obtain ⟨delimiter, -, rfl⟩ := after?_eq_some_iff.1 read
        have closed := Span.close?_of_closePosition? found
        have first : upTo? (bytes before.reverse).length (delimiter ++ before).reverse
            = some before.reverse := by
          rw [List.reverse_append]
          exact upTo?_append ..
        have last : from? (bytes (inner ++ word)).length (inner ++ (word ++ behind))
            = some behind := by
          rw [← List.append_assoc]
          exact from?_append ..
        have consumed : (inner ++ (word ++ behind)).take
            ((inner ++ (word ++ behind)).length - behind.length) = inner ++ word := by
          rw [← List.append_assoc, List.length_append, Nat.add_sub_cancel, List.take_left]
        simp only [matchSlices?, match?, Span.openOffset?_reverse, opened, found, closed, first, last,
          upTo?_append, Option.map_some, Option.bind_eq_bind, Option.bind_some]
        split
        · cases s.interior <;> simp only [Option.map_some, Match.inBytes, consumed]
        · rfl

/-- The text before an opening delimiter was read, and an interior lies ahead. -/
inductive Inside (seen rest : Text) : Match → Prop
  | extend (consumed : Nat) : Inside seen rest (.extend consumed)
  | split {before : Text} {pieces : List Piece} (consumed : Nat) (read : before <+: seen.reverse)
    (ahead : ∀ contents, .interior contents ∈ pieces → contents.length ≤ rest.length) :
    Inside seen rest (.split before pieces consumed)

theorem inside_of_match? (closes : symbol.Closes) {seen rest : Text} {m : Match}
    (found : symbol.match? seen rest = some m) : Inside seen rest m := by
  have start : ∀ {ignoreCase : Bool} {word before : Text},
      after? ignoreCase word seen = some before → before.reverse <+: seen.reverse := by
    intro ignoreCase word before read
    obtain ⟨word, -, rfl⟩ := after?_eq_some_iff.1 read
    rw [List.reverse_append]
    exact List.prefix_append _ _
  cases symbol with
  | literal t ignoreCase =>
    obtain ⟨before, read, rfl⟩ := exists_of_literal found
    exact .split 0 (start read) (by simp)
  | span s =>
    obtain ⟨front, contents, behind, opened, closed, -, rfl⟩ := exists_of_span found
    obtain ⟨before, read, -, rfl⟩ := Span.exists_of_openAtEnd? opened
    obtain ⟨word, rfl, -⟩ := Span.exists_of_close?_eq_some closes closed
    split
    · exact .extend _
    · refine .split _ (start read) fun inner mem => ?_
      rw [eq_of_interior_mem_pieces mem, List.length_append]
      exact Nat.le_add_right _ _

end Symbol

/-! ### Tokenizers -/

namespace Tokenizer

variable {t : Tokenizer} {inner : Text → List Token} {inner? : Text → Option (List Token)}

/-- What the first symbol recognizes that recognizes something. -/
def firstMatchSlices? (t : Tokenizer) (buffer rest : Text) : Option (Option ByteMatch) :=
  t.symbols.findSomeM? (Symbol.matchSlices? buffer rest)

/-- A piece as a token, where `inner?` tokenizes the interior of a span. -/
def ofPieceSlices? (t : Tokenizer) (inner? : Text → Option (List Token)) :
    Piece → Option (List Token)
  | .flat text => some (t.flat text)
  | .interior text => (inner? text).map fun tokens => [.nested tokens]

theorem le_of_from? {position : Nat} {text rest : Text} {c : Char}
    (ahead : from? position text = some (c :: rest)) :
    position + c.utf8Size ≤ (bytes text).length := by
  obtain ⟨front, rfl, rfl⟩ := from?_eq_some_iff.1 ahead
  rw [bytes_append, List.length_append, length_bytes_cons]
  omega

/-- Tokenizes a text from an offset on; `buffer` is the text read since the last token, and `inner?`
tokenizes the interiors of recursive spans. -/
def runSlices? (t : Tokenizer) (inner? : Text → Option (List Token)) (text : Text)
    (position : Nat) (buffer : Text) : Option (List Token) :=
  match _ahead : from? position text with
  | none => none
  | some [] => some (t.flat buffer)
  | some (c :: _) => do
    let rest ← from? (position + c.utf8Size) text
    match ← t.firstMatchSlices? (buffer ++ [c]) rest with
    | none => runSlices? t inner? text (position + c.utf8Size) (buffer ++ [c])
    | some (.extend consumed) => do
      let stop := position + c.utf8Size + consumed
      let drawn ← between? (position + c.utf8Size) stop text
      runSlices? t inner? text stop (buffer ++ [c] ++ drawn)
    | some (.split before pieces consumed) => do
      let front ← upTo? before (buffer ++ [c])
      let found ← pieces.mapM (t.ofPieceSlices? inner?)
      let others ← runSlices? t inner? text (position + c.utf8Size + consumed) []
      some (t.flat front ++ found.flatten ++ others)
termination_by (bytes text).length - position
decreasing_by
  all_goals
    have inside := le_of_from? _ahead
    have positive := c.utf8Size_pos
    omega

/-- Tokenizes a text whose recursive spans nest less than `depth` deep. -/
def tokenizeWithinSlices? (t : Tokenizer) : (depth : Nat) → Text → Option (List Token)
  | 0, _ => none
  | depth + 1, text => runSlices? t (tokenizeWithinSlices? t depth) text 0 []

/-- The tokens of a text, taken from it by byte offsets. -/
def tokenizeSlices? (t : Tokenizer) (text : Text) : Option (List Token) :=
  tokenizeWithinSlices? t (text.length + 1) text

theorem firstMatchSlices?_reverse (closes : ∀ symbol ∈ t.symbols, symbol.Closes)
    (seen rest : Text) :
    t.firstMatchSlices? seen.reverse rest
      = some ((t.firstMatch? seen rest).map (Match.inBytes rest)) := by
  rw [firstMatchSlices?, firstMatch?]
  generalize t.symbols = symbols at closes
  induction symbols with
  | nil => rfl
  | cons symbol symbols ih =>
    obtain ⟨first, others⟩ := List.forall_mem_cons.1 closes
    rw [List.findSomeM?, Symbol.matchSlices?_reverse first, List.findSome?_cons]
    cases symbol.match? seen rest with
    | none => exact ih others
    | some m => rfl

theorem mapM_ofPieceSlices? {pieces : List Piece}
    (within : ∀ contents, .interior contents ∈ pieces → inner? contents = some (inner contents)) :
    pieces.mapM (t.ofPieceSlices? inner?) = some (pieces.map (t.ofPiece inner)) := by
  induction pieces with
  | nil => rfl
  | cons piece pieces ih =>
    have first : t.ofPieceSlices? inner? piece = some (t.ofPiece inner piece) := by
      cases piece with
      | flat x => rfl
      | interior x => rw [ofPieceSlices?, within x (List.mem_cons_self ..)]; rfl
    rw [List.mapM_cons, first, ih fun contents mem => within contents (List.mem_cons_of_mem _ mem)]
    rfl

/-- One step of a run takes slices that exist and does what it does without them, if the run goes on
alike behind any first characters of the rest. -/
theorem runSlices?_cons (closes : ∀ symbol ∈ t.symbols, symbol.Closes) {c : Char} {rest : Text}
    (within : ∀ contents : Text, contents.length ≤ rest.length →
      inner? contents = some (inner contents)) {front : Text}
    (later : ∀ (n : Nat) (seen : Text),
      t.runSlices? inner? (front ++ c :: rest)
          ((bytes front).length + c.utf8Size + (bytes (rest.take n)).length) seen.reverse
        = some (t.run inner seen .read (rest.drop n))) (seen : Text) :
    t.runSlices? inner? (front ++ c :: rest) (bytes front).length seen.reverse
      = some (t.run inner seen .read (c :: rest)) := by
  have here := from?_append front (c :: rest)
  have read : seen.reverse ++ [c] = (c :: seen).reverse := (List.reverse_cons ..).symm
  rw [runSlices?, run_read_cons]
  split
  · rename_i missing
    cases here.symm.trans missing
  · rename_i ends
    cases here.symm.trans ends
  · rename_i goesOn
    cases here.symm.trans goesOn
    simp only [from?_cons_append, Option.bind_eq_bind, Option.bind_some, read,
      firstMatchSlices?_reverse closes]
    cases found : t.firstMatch? (c :: seen) rest with
    | none => exact later 0 (c :: seen)
    | some m =>
      obtain ⟨symbol, mem, recognized⟩ := List.exists_of_findSome?_eq_some found
      cases symbol.inside_of_match? (closes symbol mem) recognized with
      | extend n =>
        have drawn := between?_append (front ++ [c]) (rest.take n) (rest.drop n)
        rw [List.take_append_drop, length_bytes_concat, List.append_assoc,
          List.singleton_append] at drawn
        have others := later n ((rest.take n).reverse ++ c :: seen)
        rw [List.reverse_append, List.reverse_reverse] at others
        simp only [Option.map_some, Match.inBytes, drawn, Option.bind_some, others, run_draw_take]
      | @split before pieces n read ahead =>
        have first : upTo? (bytes before).length (c :: seen).reverse = some before := by
          obtain ⟨tail, split⟩ := read
          rw [← split]
          exact upTo?_append before tail
        have pieces := @mapM_ofPieceSlices? t inner inner? pieces fun contents mem =>
          within contents (ahead contents mem)
        have others := later n []
        rw [List.reverse_nil] at others
        simp only [Option.map_some, Match.inBytes, first, Option.bind_some, pieces, others,
          run_drop_take, List.flatMap]

/-- **All slices that a run takes exist, and it gives what it does without them.** -/
theorem runSlices?_append (closes : ∀ symbol ∈ t.symbols, symbol.Closes) {ahead : Text}
    (within : ∀ contents : Text, contents.length < ahead.length →
      inner? contents = some (inner contents)) (front seen : Text) :
    t.runSlices? inner? (front ++ ahead) (bytes front).length seen.reverse
      = some (t.run inner seen .read ahead) := by
  induction size : ahead.length using Nat.strong_induction_on generalizing front seen ahead with
  | h length ih =>
    subst size
    cases ahead with
    | nil =>
      have here := from?_append front []
      rw [runSlices?, run]
      split
      · rename_i missing
        cases here.symm.trans missing
      · rfl
      · rename_i goesOn
        cases here.symm.trans goesOn
    | cons c rest =>
      refine runSlices?_cons closes (fun contents le => within contents (Nat.lt_succ_of_le le))
        (fun n seen => ?_) seen
      have shorter : (rest.drop n).length < (c :: rest).length := by
        rw [List.length_drop, List.length_cons]
        omega
      have whole : front ++ c :: rest = front ++ [c] ++ rest.take n ++ rest.drop n := by
        rw [List.append_assoc, List.take_append_drop, List.append_assoc, List.singleton_append]
      rw [whole, ← length_bytes_concat, ← List.length_append, ← bytes_append]
      exact ih _ shorter (fun contents less => within contents (Nat.lt_trans less shorter)) _ seen rfl

/-- **A text is tokenized by slices as it is without them.** -/
theorem tokenizeWithinSlices?_eq (closes : ∀ symbol ∈ t.symbols, symbol.Closes) {depth : Nat}
    {text : Text} (enough : text.length < depth) :
    t.tokenizeWithinSlices? depth text = some (t.tokenizeWithin depth text) := by
  induction depth generalizing text with
  | zero => cases enough
  | succ depth ih =>
    exact runSlices?_append closes (fun contents less => ih (by omega)) [] []

theorem tokenizeSlices?_eq (closes : ∀ symbol ∈ t.symbols, symbol.Closes) (text : Text) :
    t.tokenizeSlices? text = some (t.tokenize text) :=
  tokenizeWithinSlices?_eq closes (Nat.lt_succ_self _)

end Tokenizer

end RecordMapper
