import RecordMapper.Query.Operator
import RecordMapper.Token.Tokenizer

/-!
The tokenizers of the query language.

All four keep string literals and case distinctions whole. `FieldList.items` splits a list at its
commas, `Chain.tokens` an arithmetic chain at its operators, `Connected.tokens` a condition at its
connectors, and `CaseBody.tokens` the body of a case distinction at its keywords. Parenthesized text
is kept whole too, except for a group of conditions, which becomes a nested token.
-/

namespace RecordMapper

/-! ### Field lists -/

namespace FieldList

/-- What separates the items of a list. -/
def separator : Text := [',']

/-- Splits at commas. -/
def tokenizer : Tokenizer where
  symbols := [.stringLiteral, .caseDistinction, .parentheses, .literal separator false]
  trim := true
  trimFixed := true

/-- The tokens between two separators as one trimmed item; nothing if it is empty. -/
def item (parts : List Text) : List Text :=
  let t := Text.trim (Text.join [' '] parts)
  if t.isEmpty then [] else [t]

/-- Joins the tokens between separators; `parts` holds those since the last separator. -/
def itemsFrom : (parts : List Text) → List Token → List Text
  | parts, [] => item parts
  | parts, token :: rest =>
    if token.isText separator then item parts ++ itemsFrom [] rest
    else itemsFrom (parts ++ [token.print]) rest

/-- The trimmed items of a list, without the empty ones. -/
def items (t : Text) : List Text :=
  itemsFrom [] (tokenizer.tokenize t)

end FieldList

/-! ### Arithmetic chains -/

namespace Chain

/-- Splits at operators that have a space on both sides. -/
def tokenizer : Tokenizer where
  symbols := [.stringLiteral, .caseDistinction, .parentheses]
    ++ MathOp.all.map fun op => .literal [' ', op.symbol, ' '] false
  trim := true

/-- Tokenizes a chain and unwraps it while one pair of parentheses wraps it, at most `depth` times:
a text that is one token in parentheses stands for what is in them. -/
def tokensWithin (tokenizer : Tokenizer) : (depth : Nat) → Text → List Token
  | 0, t => tokenizer.tokenize t
  | depth + 1, t =>
    match tokenizer.tokenize t with
    | [.text one] =>
      match Text.unwrapped? one.trim with
      | some inner => tokensWithin tokenizer depth inner
      | none => [.text one]
    | tokens => tokens

/-- The operands and operators of a chain, for a tokenizer with the symbols of chains. -/
def tokensBy (tokenizer : Tokenizer) (t : Text) : List Token :=
  tokensWithin tokenizer t.length t

/-- The operands and operators of a chain, trimmed. -/
def tokens (t : Text) : List Token :=
  tokensBy tokenizer t

end Chain

/-! ### Conditions -/

namespace Connected

/-- The text starts with a connector that ends there, or before a blank or a parenthesis. -/
def startsConnector (t : Text) : Bool :=
  [BoolOp.and, BoolOp.or].any fun op =>
    match Text.after? true op.keyword t with
    | some rest => rest.head?.all fun c => Text.isAsciiBlank c || c == '('
    | none => false

/-- Text in parentheses is a group of conditions if nothing stands before it, and behind it nothing
or a connector. -/
def isGroup (before behind : Text) : Bool :=
  before.trim.isEmpty && (behind.trimStart.isEmpty || startsConnector behind.trimStart)

/-- A group of conditions. -/
def group : Symbol :=
  .span { opening := ['('], closing := [')'], interior := .recursive, quote := Byte.ofAscii '"'
          guard := isGroup }

/-- Splits at connectors in any case that have a space on both sides. -/
def tokenizer : Tokenizer where
  symbols := [.stringLiteral, .caseDistinction, group, .parentheses]
    ++ [BoolOp.and, BoolOp.or].map fun op => .literal (' ' :: (op.keyword ++ [' '])) true
  trim := true
  trimFixed := true

/-- The conditions and connectors of a condition. -/
def tokens (t : Text) : List Token :=
  tokenizer.tokenize t

end Connected

/-! ### Bodies of case distinctions -/

namespace CaseBody

/-- What opens a branch. -/
def whenKeyword : Text := ['W', 'H', 'E', 'N']

/-- What stands between the condition of a branch and its value. -/
def thenKeyword : Text := ['T', 'H', 'E', 'N']

/-- What stands before the value in which no branch applies. -/
def elseKeyword : Text := ['E', 'L', 'S', 'E']

/-- The keywords of a body. -/
def keywords : List Text := [whenKeyword, thenKeyword, elseKeyword]

/-- Splits at keywords in any case that have a space on both sides. -/
def tokenizer : Tokenizer where
  symbols := [.stringLiteral, .caseDistinction, .parentheses]
    ++ keywords.map fun keyword => .literal (' ' :: (keyword ++ [' '])) true
  trim := true
  trimFixed := true

/-- The keywords of a body and what stands between them. Line breaks and tabs outside literals count
as spaces, and so does the start of the body. -/
def tokens (body : Text) : List Token :=
  tokenizer.tokenize (' ' :: Text.flattenBlanks body)

end CaseBody

end RecordMapper
