import RecordMapper.Text.Classes

/-!
Texts as lists of characters: trimming, and what a text starts with.

Every scanner of the library recurses on a `Text`; a `String` is taken apart where it enters and
put together where a result leaves. Letter case is ignored for ASCII letters only.
-/

namespace RecordMapper

/-- A text, as the list of its characters. -/
abbrev Text := List Char

namespace Text

/-! ### Trimming -/

/-- The text from its first character that is not blank. -/
def trimStart (t : Text) : Text :=
  t.dropWhile isBlank

/-- The text up to its last character that is not blank. -/
def trimEnd (t : Text) : Text :=
  (t.reverse.dropWhile isBlank).reverse

/-- The text without the blanks at its ends. -/
def trim (t : Text) : Text :=
  trimEnd (trimStart t)

/-! ### What a text starts with -/

/-- Two characters are taken for the same: exactly, or up to the case of an ASCII letter. -/
def agree (ignoreCase : Bool) (a b : Char) : Bool :=
  if ignoreCase then a.toLower == b.toLower else a == b

/-- What follows `start` in the text, if the text starts with it. -/
def after? (ignoreCase : Bool) : (start : Text) → Text → Option Text
  | [], t => some t
  | _ :: _, [] => none
  | a :: start, b :: t => if agree ignoreCase a b then after? ignoreCase start t else none

/-- The two texts are equal up to the case of ASCII letters. -/
def sameLetters (a b : Text) : Bool :=
  after? true a b == some []

/-! ### Replacing -/

/-- Goes through a text and puts `new` for each occurrence of `old`, from left to right; the first
`skip` characters belong to an occurrence already replaced. -/
def replaceFrom (old new : Text) : (skip : Nat) → Text → Text
  | _, [] => []
  | skip + 1, _ :: t => replaceFrom old new skip t
  | 0, c :: t =>
    if (after? false old (c :: t)).isSome then new ++ replaceFrom old new (old.length - 1) t
    else c :: replaceFrom old new 0 t

/-- The text with `new` in place of each occurrence of the non-empty text `old`. Occurrences do
not overlap, and what was put in is not looked at again. -/
def replace (t old new : Text) : Text :=
  replaceFrom old new 0 t

/-- Texts in one, with `separator` between each two. -/
def join (separator : Text) (texts : List Text) : Text :=
  (texts.intersperse separator).flatten

end Text

end RecordMapper
