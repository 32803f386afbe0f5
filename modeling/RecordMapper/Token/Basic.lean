import RecordMapper.Text.Scan

/-!
Tokens: flat pieces of text, and the tokens of a bracketed span.
-/

namespace RecordMapper

/-- A piece of a tokenized text. -/
inductive Token where
  | text (t : Text)
  /-- What stands between two brackets, tokenized in turn. -/
  | nested (tokens : List Token)

namespace Token

mutual

/-- The text of a token; nested tokens stand in parentheses, with a space between each two. -/
def print : Token → Text
  | .text t => t
  | .nested tokens => '(' :: (Text.join [' '] (printAll tokens) ++ [')'])

/-- The texts of tokens. -/
def printAll : List Token → List Text
  | [] => []
  | token :: rest => token.print :: printAll rest

end

/-- The text of a flat token. -/
def text? : Token → Option Text
  | .text t => some t
  | .nested _ => none

/-- The token is flat and holds just this text. -/
def isText (expected : Text) : Token → Bool
  | .text t => t == expected
  | .nested _ => false

end Token

instance : ToString Token := ⟨fun token => String.ofList token.print⟩

end RecordMapper
