import RecordMapper.Proofs.Query.Form
import RecordMapper.Proofs.Query.Parts
import RecordMapper.Proofs.Query.Tokens
import RecordMapper.Proofs.Token.Mentions

/-!
The parts of a query text keep the field references that it mentions.

Every form of the query language is taken apart into texts and what stands around them: keywords,
blanks, operators, aliases and parentheses, none of which holds a brace. So a reference that the
text mentions is mentioned in one of the texts: an item of a list, an operand of a chain, a side of
a comparison, the arguments of a call or the body of a case distinction. The text of a field
reference mentions no reference but its own (`Form.names_of_field?`).
-/

namespace RecordMapper

open Text

variable {r : Qualified} {t : Text}

/-! ### Comparisons -/

namespace CmpOp

/-- Spellings are neutral, and those that are no words hold a sign. -/
theorem checked_spellings : (spellings.all fun spelling =>
    (spelling.1.all fun c => c != '"' && c != '\x7b' && c != '\x7d')
      && (spelling.2.isWords || spelling.1.any fun c => ['<', '>', '='].contains c)) = true :=
  rfl

theorem exists_of_afterOperator? {operator : Text} {words : Bool} {before : Option Char}
    {rest right : Text} (found : afterOperator? operator words before rest = some right) :
    ∃ word, List.Forall₂ (fun a b => agree words a b = true) operator word ∧ rest = word ++ right
      ∧ (words = true → before.any isAsciiBlank = true) := by
  cases words with
  | false =>
    have after : after? false operator rest = some right := found
    obtain ⟨word, all, same⟩ := after?_eq_some_iff.1 after
    exact ⟨word, all, same, fun words => by cases words⟩
  | true =>
    simp only [afterOperator?, if_true] at found
    split at found
    · rename_i blank
      obtain ⟨word, all, same⟩ := after?_eq_some_iff.1 (Option.filter_eq_some_iff.1 found).1
      exact ⟨word, all, same, fun _ => blank⟩
    · cases found

/-- A side of a comparison mentions what the comparison mentions. -/
theorem mentioned_of_split? {left right : Text} {op : CmpOp}
    (found : split? t = some (left, op, right)) (mentioned : r.MentionedIn t) :
    r.MentionedIn left ∨ r.MentionedIn right := by
  obtain ⟨spelling, mem, split⟩ := List.exists_of_findSome?_eq_some found
  obtain ⟨⟨left', right'⟩, split, same⟩ := Option.map_eq_some_iff.1 split
  cases same
  have checked := List.all_eq_true.1 checked_spellings spelling mem
  rw [Bool.and_eq_true] at checked
  obtain ⟨neutral, sign⟩ := checked
  obtain ⟨rest, rfl, plain, after⟩ := exists_of_splitFrom? split
  obtain ⟨word, agrees, rfl, blank⟩ := exists_of_afterOperator? after
  have neutral : IsNeutral word := (isNeutral_of_checked neutral).of_agree agrees
  have behind : r.MentionedFrom (Mode.plain.across (left ++ word)) right → r.MentionedIn right := by
    rw [Mode.across_append, plain, Mode.across_unquoted neutral.unquoted]
    exact id
  cases words : spelling.2.isWords with
  | false =>
    rw [words, Bool.false_or, List.any_eq_true] at sign
    obtain ⟨c, member, sign⟩ := sign
    rw [List.contains_iff_mem] at sign
    have other : isWord c = false ∧ c.isAlpha = false
        ∧ (c ≠ '\x7b' ∧ c ≠ '.' ∧ c ≠ '\x7d') := by
      simp only [List.mem_cons, List.not_mem_nil, or_false] at sign
      rcases sign with rfl | rfl | rfl
      all_goals decide
    have written := (mem_iff_of_agree other.2.1 agrees).2 member
    exact (mentioned.cut neutral written (r.not_mem_text other.1 other.2.2)).imp_right behind
  | true =>
    obtain ⟨front, c, rfl, space⟩ : ∃ front c, left = front ++ [c] ∧ isBlank c = true := by
      have last := blank words
      rcases List.eq_nil_or_concat left with rfl | ⟨front, c, rfl⟩
      · cases last
      · rw [List.concat_eq_append, lastFrom_concat] at last
        exact ⟨front, c, List.concat_eq_append, isBlank_of_isAsciiBlank last⟩
    have other : c ∉ r.text := by
      intro mem
      rw [r.isBlank_of_mem_text mem] at space
      cases space
    have blank : IsNeutral [c] := isNeutral_of_blank (List.forall_mem_singleton.2 space)
    rw [List.append_assoc, ← List.append_assoc [c]] at mentioned
    rcases mentioned.cut (blank.append neutral) (by simp) other with before | ahead
    · exact .inl (before.append [c])
    · exact .inr (behind (by simpa using ahead))

end CmpOp

/-! ### Lists, chains and conditions -/

namespace FieldList

theorem foreign : separation.foreign = true :=
  rfl

theorem item_nil : item [] = [] :=
  rfl

theorem eq_trim_of_mem_item {x i : Text} (mem : i ∈ item [x]) : i = x.trim := by
  rw [item, join_singleton] at mem
  split at mem
  · cases mem
  · exact List.mem_singleton.1 mem

theorem flat_eq (x : Text) : tokenizer.flat x = [] ∨ tokenizer.flat x = [.text x.trim] := by
  show (if x.trim.isEmpty then [] else [Token.text x.trim]) = [] ∨ _
  cases empty : x.trim.isEmpty with
  | true => exact .inl rfl
  | false => exact .inr (by simp [Tokenizer.flat, tokenizer, empty])

/-- What stands in front of a separator gives an item of its own, or none. -/
theorem exists_itemsFrom_separated (x : Text) (tokens : List Token) :
    ∃ front, itemsFrom [] (tokenizer.flat x ++ tokenizer.flat separator ++ tokens)
      = front ++ itemsFrom [] tokens ∧ ∀ i ∈ front, i = x.trim.trim := by
  have flat : tokenizer.flat separator = [.text separator] := rfl
  have closed : ∀ parts, itemsFrom parts (.text separator :: tokens)
      = item parts ++ itemsFrom [] tokens := fun parts => by simp [itemsFrom, Token.isText]
  rw [flat, List.append_assoc, List.singleton_append]
  rcases flat_eq x with none | one
  · exact ⟨[], by rw [none, List.nil_append, closed, item_nil], List.forall_mem_nil _⟩
  · rw [one, List.singleton_append, itemsFrom.eq_def]
    dsimp only
    split
    · exact ⟨[], by rw [closed, item_nil, List.nil_append], List.forall_mem_nil _⟩
    · exact ⟨_, closed _, fun i mem => eq_trim_of_mem_item mem⟩

theorem item_of_mentioned (mentioned : r.MentionedIn t) : item [t] = [t.trim] := by
  rw [item, join_singleton, mentioned.trim.isEmpty_eq_false]
  rfl

theorem itemsFrom_of_mentioned {x : Text} (mentioned : r.MentionedIn x) (tokens : List Token) :
    itemsFrom [] (tokenizer.flat x ++ tokens) = itemsFrom [x.trim] tokens := by
  have other : (Token.text x.trim).isText separator = false := by
    rw [Token.isText, beq_eq_false_iff_ne]
    intro same
    exact mentioned.trim.not_isNeutral (same ▸ isNeutral_of_checked rfl)
  rw [Tokenizer.flat_of_mentioned rfl mentioned, List.singleton_append, itemsFrom, other]
  rfl

/-- **An item of a list mentions what the list mentions.** -/
theorem exists_item_of_mentioned (mentioned : r.MentionedIn t) :
    ∃ item ∈ items t, r.MentionedIn item := by
  have divided : Separation.Divided separation tokenizer (tokenizer.tokenizeWithin t.length) t
      (tokenizer.tokenize t) := Separation.divided_tokenizeWithin symbols_eq foreign t.length t
  have ungrouped : separation.groups = false := rfl
  rw [items]
  generalize tokenizer.tokenize t = tokens at divided ⊢
  generalize tokenizer.tokenizeWithin t.length = inner at divided
  induction divided with
  | last x =>
    have read := itemsFrom_of_mentioned mentioned []
    rw [List.append_nil] at read
    rw [read, itemsFrom, item_of_mentioned mentioned.trim]
    exact ⟨_, List.mem_singleton_self _, mentioned.trim.trim⟩
  | @separated x k word rest tokens mem agrees settled _ ih =>
    obtain rfl : k = separator := List.mem_singleton.1 mem
    rcases Separation.mentioned_of_separated foreign mem agrees settled mentioned with
      front | behind
    · have closed : itemsFrom [x.trim] (tokenizer.flat separator ++ tokens)
          = item [x.trim] ++ itemsFrom [] tokens := rfl
      rw [List.append_assoc, itemsFrom_of_mentioned front, closed, item_of_mentioned front.trim]
      exact ⟨_, List.mem_cons_self .., front.trim.trim⟩
    · obtain ⟨item, member, found⟩ := ih behind
      obtain ⟨front, same, -⟩ := exists_itemsFrom_separated x tokens
      rw [same]
      exact ⟨item, List.mem_append_right front member, found⟩
  | grouped groups =>
    rw [ungrouped] at groups
    cases groups

end FieldList

namespace Chain

theorem foreign : separation.foreign = true :=
  rfl

theorem exists_token_of_mentioned' (depth : Nat) (mentioned : r.MentionedIn t) :
    ∃ x, Token.text x ∈ tokensWithin tokenizer depth t ∧ r.MentionedIn x := by
  induction depth generalizing t with
  | zero => exact Separation.exists_text_of_mentioned symbols_eq foreign rfl rfl mentioned
  | succ depth ih =>
    obtain ⟨x, mem, found⟩ :=
      Separation.exists_text_of_mentioned symbols_eq foreign rfl rfl mentioned
    rw [tokensWithin]
    split
    · rename_i one single
      rw [single, List.mem_singleton] at mem
      cases mem
      split
      · rename_i inner unwrapped
        exact ih (found.trim.unwrapped? unwrapped)
      · exact ⟨_, List.mem_singleton_self _, found⟩
    · exact ⟨x, mem, found⟩

/-- **A token of a chain mentions what the chain mentions.** -/
theorem exists_token_of_mentioned (mentioned : r.MentionedIn t) :
    ∃ x, Token.text x ∈ tokens t ∧ r.MentionedIn x :=
  exists_token_of_mentioned' t.length mentioned

end Chain

/-- **A token of a condition mentions what the condition mentions.** -/
theorem Connected.exists_token_of_mentioned (mentioned : r.MentionedIn t) :
    ∃ token ∈ tokens t, token.Mentions r :=
  Separation.exists_token_of_mentioned symbols_eq rfl rfl (Nat.lt_succ_self t.length) mentioned

/-- **A part of a case distinction mentions what its body mentions.** -/
theorem CaseBody.exists_token_of_mentioned (mentioned : r.MentionedIn t) :
    ∃ x, Token.text x ∈ tokens t ∧ r.MentionedIn x := by
  obtain ⟨front, back, same, plain⟩ := mentioned.flattenBlanks
  have spaced : r.MentionedIn (' ' :: flattenBlanks t) :=
    ⟨' ' :: front, back, by rw [same]; rfl, plain⟩
  exact Separation.exists_text_of_mentioned symbols_eq rfl rfl rfl spaced

/-! ### Forms -/

/-- The field reference has the names of the reference. -/
def Qualified.Names (r : Qualified) (ref : FieldRef) : Prop :=
  ref.table = some (String.ofList r.table) ∧ ref.name = String.ofList r.name

namespace Form

/-- A keyword as it is written is neutral. -/
theorem IsWritten.isNeutral {word x : Text} (written : IsWritten word x)
    (letters : ∀ a ∈ word, a.isAlpha = true) : IsNeutral x :=
  isNeutral_of (written.isWord letters) rfl

theorem isNeutral_of_mem (only : ∀ c ∈ t, isBlank c = true ∨ isWord c = true) : IsNeutral t :=
  isNeutral_of (p := fun c => isBlank c || isWord c) (by simpa using only) rfl

theorem IsNaming.isNeutral {naming name : Text} (named : IsNaming naming name) :
    IsNeutral naming :=
  isNeutral_of_mem named.mem

/-- The end of an expression is neutral. -/
theorem isNeutral_of_ending? {a : Option String} (found : ending? t = some a) : IsNeutral t :=
  isNeutral_of_mem (mem_of_ending? found)

theorem names_eq {x y rest rest' : Text} (first : IsName x) (second : IsName y)
    (behind : ∀ c ∈ rest.head?, isWord c = false) (behind' : ∀ c ∈ rest'.head?, isWord c = false)
    (same : x ++ rest = y ++ rest') : x = y ∧ rest = rest' := by
  have left := takeWhile_append_of_head first.2 behind
  have right := takeWhile_append_of_head second.2 behind'
  rw [same] at left
  exact ⟨left.1.symm.trans right.1, left.2.symm.trans right.2⟩

/-- What stands behind the brace of a text with one brace alone is all of the reference but that
brace. -/
theorem eq_of_mentioned {x : Text} (mentioned : r.MentionedIn ('\x7b' :: x))
    (unopened : '\x7b' ∉ x) : ∃ back, x = r.table ++ '.' :: (r.name ++ '\x7d' :: back) := by
  obtain ⟨front, back, same, -⟩ := mentioned
  cases front with
  | nil => exact ⟨back, by simpa [Qualified.text] using (List.cons.inj same).2⟩
  | cons c front =>
    obtain ⟨-, rfl⟩ := List.cons.inj same
    exact absurd (by simp [Qualified.text]) unopened

/-- **A field reference mentions no reference but its own.** -/
theorem names_of_field? {ref : FieldRef} (found : field? t = some ref)
    (mentioned : r.MentionedIn t) : r.Names ref := by
  have point : isWord '.' = false := rfl
  have brace : isWord '\x7d' = false := rfl
  obtain ⟨tail, ending, ⟨name, isName, rfl⟩ | ⟨table, name, table_isName, isName, rfl, names⟩⟩ :=
    exists_of_field? found
  all_goals have neutral := isNeutral_of_ending? ending
  · have unopened : '\x7b' ∉ name ++ '\x7d' :: tail := by
      simp [isName.isNeutral.unopened, neutral.unopened]
    obtain ⟨back, same⟩ := eq_of_mentioned mentioned unopened
    obtain ⟨-, differ⟩ := names_eq isName r.table_isName (by simp [brace]) (by simp [point]) same
    cases (List.cons.inj differ).1
  · have unopened : '\x7b' ∉ table ++ '.' :: (name ++ '\x7d' :: tail) := by
      simp [table_isName.isNeutral.unopened, isName.isNeutral.unopened, neutral.unopened]
    obtain ⟨back, same⟩ := eq_of_mentioned mentioned unopened
    obtain ⟨rfl, rest⟩ :=
      names_eq table_isName r.table_isName (by simp [point]) (by simp [point]) same
    obtain ⟨rfl, -⟩ := names_eq isName r.name_isName (by simp [brace]) (by simp [brace])
      (List.cons.inj rest).2
    exact names

/-- A placeholder mentions no reference. -/
theorem not_mentioned_of_placeholder? {name : String} (found : placeholder? t = some name) :
    ¬ r.MentionedIn t := by
  rw [placeholder?.eq_def] at found
  split at found
  · split at found
    · rename_i word read
      obtain ⟨isName, rfl⟩ := exists_of_word? read
      have percent : IsNeutral ['%'] := isNeutral_of_checked rfl
      exact fun mentioned => mentioned.not_isNeutral
        (percent.append (isName.isNeutral.append percent))
    · cases found
  · cases found

/-- An alias is split off as a whole. -/
theorem mentioned_of_splitAlias (mentioned : r.MentionedIn t) :
    r.MentionedIn (splitAlias t).1 := by
  rcases split : splitAlias t with ⟨body, a⟩
  cases a with
  | none => rwa [splitAlias_eq_of_none split]
  | some name =>
    obtain ⟨-, -, -, naming, named, rfl⟩ := exists_of_splitAlias split
    exact mentioned.of_concat named.isNeutral

/-- The arguments of a call mention what the call mentions. -/
theorem mentioned_of_call? {call : Call} (found : call? t = some call)
    (mentioned : r.MentionedIn t) : r.MentionedIn call.arguments := by
  obtain ⟨name, gap, behind, tail, rfl, isName, -, blank, closed, ending⟩ := exists_of_call? found
  have ahead := mentioned.of_append isName.isName.isNeutral
  have opened := ahead.of_append (isNeutral_of_blank blank)
  have inside : r.MentionedIn behind := opened.of_append (k := ['(']) (isNeutral_of_checked rfl)
  rcases inside.closing? closed with arguments | named
  · exact arguments
  · exact absurd (isNeutral_of_ending? ending) named.not_isNeutral

/-! ### Case distinctions -/

/-- The end of a case distinction is neutral. -/
theorem isNeutral_of_caseEnding? {ending : Bool × Option String}
    (found : caseEnding? t = some ending) : IsNeutral t := by
  obtain ⟨closed, a⟩ := ending
  obtain ⟨c, word, rest, rfl, blank, written, form⟩ := exists_of_caseEnding? found
  have front : IsNeutral (c :: word) :=
    (isNeutral_of_blank (List.forall_mem_singleton.2 blank)).append
      (written.isNeutral letters_endKeyword)
  refine front.append ?_
  rcases form with ⟨-, ⟨-, blanks⟩ | ending⟩ | ⟨-, gap, behind, rfl, blanks, ending⟩
  · exact isNeutral_of_blank blanks
  · exact isNeutral_of_ending? ending
  · have close : IsNeutral [')'] := isNeutral_of_checked rfl
    exact (isNeutral_of_blank blanks).append (close.append (isNeutral_of_ending? ending))

/-- The body of a case distinction mentions what it mentions. -/
theorem mentioned_of_case? {c : Case} (found : case? t = some c)
    (mentioned : r.MentionedIn t) : r.MentionedIn c.body := by
  obtain ⟨lead, word, gap, tail, rfl, blank, written, blanks, -, ending⟩ := exists_of_case? found
  have parenthesis : IsNeutral (if c.opened then ['('] else []) := by
    split
    · exact isNeutral_of_checked rfl
    · exact List.forall_mem_nil _
  have inside := (mentioned.of_append parenthesis).of_append (isNeutral_of_blank blank)
  have behind := inside.of_append (written.isNeutral letters_caseKeyword)
  exact (behind.of_append (isNeutral_of_blank blanks.2)).of_concat (isNeutral_of_caseEnding? ending)

end Form

end RecordMapper
