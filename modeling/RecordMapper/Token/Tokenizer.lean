import RecordMapper.Error
import RecordMapper.Token.Span

/-!
The tokenizer: splits a text into tokens by an ordered list of symbols.

The text is read character by character. Behind each character every symbol is asked, in order,
whether the text read so far ends in something that it recognizes, and the first that does decides:
it ends the current token and adds tokens of its own, or it draws a stretch of the text ahead into
the current token. What has been read at the end of the text is the last token.

A recursive span is tokenized by the same symbols. Its interior is shorter than the text that holds
it, so `tokenize` gives the nesting as much depth as the text has characters.
-/

namespace RecordMapper

/-! ### Symbols -/

/-- What a tokenizer recognizes. -/
inductive Symbol where
  /-- A delimiter, which becomes a token of its own, written as registered. -/
  | literal (t : Text) (ignoreCase : Bool)
  /-- A balanced span. -/
  | span (s : Span)

/-- A token that a symbol adds: a flat one, or a text to be tokenized into a nested one. -/
inductive Piece where
  | flat (t : Text)
  | interior (t : Text)
  deriving DecidableEq, Repr

/-- What a symbol recognized at the end of the text read so far. -/
inductive Match where
  /-- The current token ends with `before`, the pieces follow, and `consumed` characters of the
  text ahead belong to what was recognized. -/
  | split (before : Text) (pieces : List Piece) (consumed : Nat)
  /-- The next `consumed` characters belong to the current token. -/
  | extend (consumed : Nat)

namespace Symbol

/-- A string literal in double quotes, with backslash escapes, kept in the token around it. -/
def stringLiteral : Symbol :=
  .span { opening := ['"'], closing := ['"'], interior := .inline, escape := Byte.ofAscii '\\' }

/-- A case distinction, kept in the token around it. -/
def caseDistinction : Symbol :=
  .span { opening := Text.caseKeyword, closing := Text.endKeyword, interior := .inline
          keyword := true, quote := Byte.ofAscii '"' }

/-- Text in parentheses, kept in the token around it. -/
def parentheses : Symbol :=
  .span { opening := ['('], closing := [')'], interior := .inline, quote := Byte.ofAscii '"' }

/-- The pieces of a span that splits. -/
def pieces (s : Span) (interior : Text) : List Piece :=
  match s.interior, s.keepDelimiters with
  | .inline, _ => []
  | .raw, true => [.flat (s.opening ++ interior ++ s.closing)]
  | .raw, false => [.flat interior]
  | .recursive, true => [.flat s.opening, .interior interior, .flat s.closing]
  | .recursive, false => [.interior interior]

/-- What the symbol recognizes at the end of `seen`, the text read since the last token with its
last character first, when `rest` lies ahead. -/
def match? (seen rest : Text) : Symbol → Option Match
  | .literal t ignoreCase =>
    if t.isEmpty then none
    else (Text.after? ignoreCase t.reverse seen).map fun before =>
      .split before.reverse [.flat t] 0
  | .span s =>
    match s.openAtEnd? seen rest with
    | none => none
    | some before =>
      match s.close? rest with
      | none => none
      | some (interior, behind) =>
        if s.guard before behind then
          let consumed := rest.length - behind.length
          some (match s.interior with
            | .inline => .extend consumed
            | _ => .split before (pieces s interior) consumed)
        else none

end Symbol

/-! ### Tokenizers -/

/-- An ordered list of symbols, with a policy on the blanks around flat tokens. -/
structure Tokenizer where
  symbols : List Symbol := []
  /-- Flat tokens are trimmed. -/
  trim : Bool := false
  /-- The policy cannot be changed. -/
  trimFixed : Bool := false

namespace Tokenizer

/-- Adds a symbol behind those registered. -/
def register (t : Tokenizer) (symbol : Symbol) : Tokenizer :=
  { t with symbols := t.symbols ++ [symbol] }

/-- Changes the trimming policy, unless it is fixed. -/
def setTrim (t : Tokenizer) (trim : Bool) : Result Tokenizer :=
  if t.trimFixed then Error.throw (.invalidConfiguration .fixedTrimming)
  else .ok { t with trim := trim }

/-- A flat text as a token: trimmed if tokens are, and left out if nothing remains. -/
def flat (t : Tokenizer) (text : Text) : List Token :=
  let text := if t.trim then text.trim else text
  if text.isEmpty then [] else [.text text]

/-- A piece as a token, where `inner` tokenizes the interior of a span. -/
def ofPiece (t : Tokenizer) (inner : Text → List Token) : Piece → List Token
  | .flat text => t.flat text
  | .interior text => [.nested (inner text)]

/-- The first match of a symbol. -/
def firstMatch? (t : Tokenizer) (seen rest : Text) : Option Match :=
  t.symbols.findSome? (Symbol.match? seen rest)

/-- What happens to the characters at the start of the text ahead. -/
inductive Pending where
  /-- They are read one by one. -/
  | read
  /-- So many of them belong to the current token. -/
  | draw (n : Nat)
  /-- So many of them belong to a token that has ended. -/
  | drop (n : Nat)
  deriving DecidableEq, Repr

/-- Tokenizes the text ahead. `seen` is the text read since the last token, with its last character
first, and `inner` tokenizes the interiors of recursive spans. -/
def run (t : Tokenizer) (inner : Text → List Token) : (seen : Text) → Pending → Text → List Token
  | seen, _, [] => t.flat seen.reverse
  | seen, .draw (n + 1), c :: rest => run t inner (c :: seen) (.draw n) rest
  | seen, .drop (n + 1), _ :: rest => run t inner seen (.drop n) rest
  | seen, _, c :: rest =>
    match t.firstMatch? (c :: seen) rest with
    | none => run t inner (c :: seen) .read rest
    | some (.extend consumed) => run t inner (c :: seen) (.draw consumed) rest
    | some (.split before pieces consumed) =>
      t.flat before ++ pieces.flatMap (t.ofPiece inner) ++ run t inner [] (.drop consumed) rest

/-- Tokenizes a text whose recursive spans nest less than `depth` deep. -/
def tokenizeWithin (t : Tokenizer) : (depth : Nat) → Text → List Token
  | 0, _ => []
  | depth + 1, text => run t (tokenizeWithin t depth) [] .read text

/-- The tokens of a text. -/
def tokenize (t : Tokenizer) (text : Text) : List Token :=
  tokenizeWithin t (text.length + 1) text

end Tokenizer

end RecordMapper
