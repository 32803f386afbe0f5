import Mathlib.Data.List.Chain
import RecordMapper.Proofs.Query.NestedTokens

/-!
Groups of conditions and the connectors around them.

Text in parentheses is taken out as a group where nothing stands before it and nothing or a connector
behind it. What stands before it is what was read since the last token, so a group that is not the
first token follows a connector. What counts as a connector behind it is any blank, the word, and a
blank or a parenthesis, while a condition is divided at words with a space on both sides only. So
**a group is followed by a connector where the connectors behind parentheses are spaced**
(`Connected.groups_between_connectors`).
-/

namespace RecordMapper

open Text

namespace Token

/-- The token is a group. -/
def IsNested (token : Token) : Prop :=
  ∃ tokens, token = .nested tokens

/-- The token is a connector, in upper case. -/
def IsConnector (token : Token) : Prop :=
  ∃ op : BoolOp, token = .text op.keyword

/-- The list is this one, or the tokens of a group in it, at any depth. -/
inductive Within (list : List Token) : List Token → Prop
  | self : Within list list
  | nested {tokens group : List Token} (mem : .nested group ∈ tokens) (within : Within list group) :
    Within list tokens

end Token

namespace Connected

variable {inner : Text → List Token}

/-! ### Where a group is taken out -/

theorem flat_separator {separator : Text} (mem : separator ∈ separation.separators) :
    ∃ op : BoolOp, tokenizer.flat separator = [.text op.keyword] := by
  obtain ⟨op, -, rfl⟩ := List.mem_map.1 mem
  exact ⟨op, by cases op <;> rfl⟩

/-- A group that is taken out stands where one may stand. -/
theorem isGroup_of_firstMatch? {seen contents rest : Text}
    (found : tokenizer.firstMatch? ('(' :: seen) (contents ++ ')' :: rest)
      = some (.split seen.reverse [.interior contents] (contents.length + 1))) :
    isGroup seen.reverse rest = true := by
  rw [Separation.firstMatch?_eq symbols_eq] at found
  rcases Option.or_eq_some_iff.1 found with literal | ⟨-, found⟩
  · obtain ⟨_, _, _, -, -, same⟩ := Symbol.exists_of_match? rfl literal
    cases same
  rcases Option.or_eq_some_iff.1 found with distinction | ⟨-, found⟩
  · obtain ⟨_, _, _, -, -, same⟩ := Symbol.exists_of_match? rfl distinction
    cases same
  rcases Option.or_eq_some_iff.1 found with group | ⟨-, found⟩
  · have groups : separation.groups = true := rfl
    rw [if_pos groups] at group
    obtain ⟨contents', rest', -, -, split, -, stands, same⟩ := Separation.exists_of_group group
    cases same
    obtain ⟨-, same⟩ := List.cons.inj (List.append_cancel_left split)
    exact same ▸ stands
  rcases Option.or_eq_some_iff.1 found with parentheses | ⟨-, found⟩
  · obtain ⟨_, _, _, -, -, same⟩ := Symbol.exists_of_match? rfl parentheses
    cases same
  · obtain ⟨separator, mem, found⟩ := List.exists_of_findSome?_eq_some found
    obtain ⟨before, -, same⟩ := Symbol.exists_of_literal found
    injection same with _ pieces
    cases pieces

/-- Nothing is read last in front of a group. -/
theorem isGroup_iff {before behind : Text} :
    isGroup before behind = true ↔ before.trim = [] ∧ isGroup [] behind = true := by
  rw [isGroup, Bool.and_eq_true, List.isEmpty_iff]
  rfl

/-! ### Neighbours -/

/-- **The neighbours of a run**: flat tokens, connectors and what follows, and groups in front of
the tokens of a text that may follow one. -/
theorem isChain_run {R : Token → Token → Prop} (text : ∀ x y, R (.text x) (.text y))
    (connector : ∀ (op : BoolOp) token, R (.text op.keyword) token) {seen ahead : Text}
    (group : ∀ front behind, seen.reverse ++ ahead = front ++ ')' :: behind →
      isGroup [] behind = true → ∀ tokens,
        ∀ token ∈ (tokenizer.run inner [] .read behind).head?, R (.nested tokens) token) :
    (tokenizer.run inner seen .read ahead).IsChain R := by
  refine Separation.run_induction symbols_eq (motive := fun seen ahead tokens =>
    (∀ front behind, seen.reverse ++ ahead = front ++ ')' :: behind →
      isGroup [] behind = true → ∀ tokens,
        ∀ token ∈ (tokenizer.run inner [] .read behind).head?, R (.nested tokens) token) →
    tokens.IsChain R) ?last ?passed ?drawn ?grouped ?separated seen ahead group
  case last =>
    intro seen _
    rcases tokenizer.exists_of_flat seen.reverse with none | ⟨y, one⟩
    · rw [none]
      exact .nil
    · rw [one]
      exact .singleton _
  case passed =>
    intro c seen rest tokens _ ih group
    exact ih fun front behind whole => group front behind (by simpa using whole)
  case drawn =>
    intro c seen x rest tokens _ _ ih group
    exact ih fun front behind whole => group front behind (by simpa using whole)
  case grouped =>
    intro seen contents rest tokens found _ _ run ih group
    obtain ⟨empty, stands⟩ := isGroup_iff.1 (isGroup_of_firstMatch? found)
    rw [Tokenizer.flat_eq_nil rfl empty, List.nil_append, List.isChain_cons]
    refine ⟨?_, ih fun front behind whole => ?_⟩
    · rw [run]
      exact group (seen.reverse ++ '(' :: contents) rest (by simp) stands (inner contents)
    · exact group (seen.reverse ++ '(' :: (contents ++ ')' :: front)) behind (by simp [← whole])
  case separated =>
    intro c seen separator word before rest tokens mem read _ run ih group
    obtain ⟨op, flat⟩ := flat_separator mem
    have more : (.text op.keyword :: tokens : List Token).IsChain R := by
      rw [List.isChain_cons]
      refine ⟨fun token _ => connector op token, ih fun front behind whole => ?_⟩
      exact group (seen.reverse ++ c :: front) behind (by simp [← whole])
    rw [flat, List.singleton_append]
    rcases tokenizer.exists_of_flat before.reverse with none | ⟨y, one⟩
    · rw [none]
      exact more
    · rw [one, List.singleton_append, List.isChain_cons]
      refine ⟨fun token mem => ?_, more⟩
      cases mem
      exact text _ _

/-! ### In front of a group -/

/-- A run does not begin with a group, if the text does not begin with a parenthesis behind blanks. -/
theorem head_run {seen ahead : Text}
    (start : ∀ rest, trimStart (seen.reverse ++ ahead) ≠ '(' :: rest) :
    ∀ token ∈ (tokenizer.run inner seen .read ahead).head?, ¬ token.IsNested := by
  refine Separation.run_induction symbols_eq (motive := fun seen ahead tokens =>
    (∀ rest, trimStart (seen.reverse ++ ahead) ≠ '(' :: rest) →
      ∀ token ∈ tokens.head?, ¬ token.IsNested) ?last ?passed ?drawn ?grouped ?separated
    seen ahead start
  case last =>
    rintro seen _ token mem ⟨tokens, rfl⟩
    obtain ⟨y, same⟩ := Tokenizer.mem_flat (List.mem_of_mem_head? mem)
    cases same
  case passed =>
    intro c seen rest tokens _ ih start
    exact ih fun behind same => start behind (by simpa using same)
  case drawn =>
    intro c seen x rest tokens _ _ ih start
    exact ih fun behind same => start behind (by simpa using same)
  case grouped =>
    intro seen contents rest tokens found _ _ _ _ start
    obtain ⟨empty, -⟩ := isGroup_iff.1 (isGroup_of_firstMatch? found)
    exact absurd (dropWhile_isBlank_append (trim_eq_nil_iff.1 empty) (by simp [isBlank]))
      (start (contents ++ ')' :: rest))
  case separated =>
    rintro c seen separator word before rest tokens mem _ _ _ _ _ token first ⟨group, rfl⟩
    obtain ⟨op, flat⟩ := flat_separator mem
    rw [flat] at first
    rcases tokenizer.exists_of_flat before.reverse with none | ⟨y, one⟩
    · rw [none] at first
      cases first
    · rw [one] at first
      cases first

/-- Nothing that may follow a group begins with one. -/
theorem start_of_isGroup {behind : Text} (stands : isGroup [] behind = true) (rest : Text) :
    trimStart behind ≠ '(' :: rest := by
  intro same
  rw [isGroup, same] at stands
  cases stands

/-! ### Behind a group -/

/-- Behind a closing parenthesis, each word that reads as a connector has a space on both sides. At
the end of the text or in front of another closing parenthesis, it is written in upper case
instead. -/
def Spaced (t : Text) : Prop :=
  ∀ front gap word rest, ∀ op : BoolOp, t = front ++ ')' :: (gap ++ (word ++ rest)) →
    (∀ c ∈ gap, isBlank c = true) → sameLetters op.keyword word = true →
      (rest.head?.all (· == ')') = true → word = op.keyword)
        ∧ (rest.head?.any (fun c => isAsciiBlank c || c == '(') = true →
          gap.getLast? = some ' ' ∧ rest.head? = some ' ')

theorem Spaced.of_contents {t front contents back : Text} (spaced : Spaced t)
    (split : t = front ++ '(' :: (contents ++ ')' :: back)) : Spaced contents := by
  rintro front' gap word rest op rfl blank same
  have whole : t = front ++ '(' :: front' ++ ')' :: (gap ++ (word ++ (rest ++ ')' :: back))) := by
    rw [split]
    simp
  have outer := spaced _ gap word _ op whole blank same
  cases rest with
  | nil => exact ⟨fun _ => outer.1 rfl, nofun⟩
  | cons c rest => exact outer

/-- Checks what reads as a connector behind a closing parenthesis. -/
def isSpacedBehind (behind : Text) : Bool :=
  [BoolOp.and, BoolOp.or].all fun op =>
    match after? true op.keyword (trimStart behind) with
    | none => true
    | some rest =>
      if rest.head?.all (· == ')') then (trimStart behind).take op.keyword.length == op.keyword
      else !(rest.head?.any fun c => isAsciiBlank c || c == '(')
        || (behind.takeWhile isBlank).getLast? == some ' ' && rest.head? == some ' '

/-- Checks what reads as a connector behind each closing parenthesis. -/
def isSpaced : Text → Bool
  | [] => true
  | c :: t => (c != ')' || isSpacedBehind t) && isSpaced t

theorem isSpacedBehind_of_isSpaced {front behind : Text}
    (checked : isSpaced (front ++ ')' :: behind) = true) : isSpacedBehind behind = true := by
  induction front with
  | nil =>
    rw [List.nil_append, isSpaced, Bool.and_eq_true] at checked
    simpa using checked.1
  | cons c front ih =>
    rw [List.cons_append, isSpaced, Bool.and_eq_true] at checked
    exact ih checked.2

theorem spaced_of_isSpaced {t : Text} (checked : isSpaced t = true) : Spaced t := by
  rintro front gap word rest op rfl blank same
  have all := sameLetters_iff.1 same
  have start : ∀ c ∈ (word ++ rest).head?, isBlank c = false := by
    intro c head
    cases word with
    | nil => cases op <;> cases all
    | cons d word =>
      cases head
      obtain ⟨a, member, same⟩ := exists_agree_of_mem all (List.mem_cons_self ..)
      exact isBlank_of_isAsciiWord
        (isAsciiWord_of_agree (letters_keywords _ (mem_keywords op) a member) same)
  obtain ⟨taken, dropped⟩ := takeWhile_append_of_head blank start
  have trimmed : trimStart (gap ++ (word ++ rest)) = word ++ rest := dropped
  have behind := isSpacedBehind_of_isSpaced checked
  rw [isSpacedBehind, List.all_eq_true] at behind
  have here := behind op (by cases op <;> simp)
  rw [trimmed, taken, after?_eq_some_iff.2 ⟨word, all, rfl⟩, all.length_eq, List.take_left] at here
  dsimp only at here
  split at here
  · rename_i ends
    refine ⟨fun _ => beq_iff_eq.1 here, fun more => ?_⟩
    cases rest with
    | nil => cases more
    | cons c rest =>
      obtain rfl : c = ')' := by simpa using ends
      cases more
  · rename_i goes
    refine ⟨fun ends => absurd ends goes, fun more => ?_⟩
    rw [more] at here
    simpa using here

/-- What may follow a group is blank, or starts with a connector behind blanks. -/
theorem exists_of_isGroup {behind : Text} (stands : isGroup [] behind = true) :
    (∀ c ∈ behind, isBlank c = true)
      ∨ ∃ gap word rest, ∃ op : BoolOp, behind = gap ++ (word ++ rest)
        ∧ (∀ c ∈ gap, isBlank c = true) ∧ sameLetters op.keyword word = true
        ∧ rest.head?.all (fun c => isAsciiBlank c || c == '(') = true := by
  rw [isGroup, Bool.and_eq_true, Bool.or_eq_true, List.isEmpty_iff, List.isEmpty_iff]
    at stands
  rcases stands.2 with empty | starts
  · exact .inl (List.dropWhile_eq_nil_iff.1 empty)
  · rw [startsConnector, List.any_eq_true] at starts
    obtain ⟨op, -, starts⟩ := starts
    split at starts
    · rename_i rest found
      obtain ⟨word, all, split⟩ := after?_eq_some_iff.1 found
      refine .inr ⟨behind.takeWhile isBlank, word, rest, op, ?_, ?_, sameLetters_iff.2 all, starts⟩
      · rw [← split, trimStart, List.takeWhile_append_dropWhile]
      · exact fun c mem => List.mem_takeWhile_imp mem
    · cases starts

/-- Blanks are passed, and no keyword was begun behind them. -/
theorem passes_gap {gap rest : Text} (blank : ∀ c ∈ gap, isBlank c = true) :
    PassesQuietly inner [] gap rest := by
  have nested : ∀ before, NestedWith (avoids keywords) before gap rest := by
    induction gap with
    | nil => exact fun _ => .nil
    | cons c gap ih =>
      obtain ⟨first, others⟩ := List.forall_mem_cons.1 blank
      have mark := not_isAlpha_of_not_word (isAsciiWord_of_isWord (isWord_of_isBlank first))
      exact fun _ => .cons_mark (isLoose_of_isBlank first).1 mark (avoids_keywords mark _ _)
        (ih others _)
  refine passes_nested (nestedWith_iff_nested.1 (nested none)) rfl (quiet_nil _) ?_
  rintro front contents back rfl
  cases blank '(' (by simp)

theorem isTrimmed_keyword (op : BoolOp) : IsTrimmed op.keyword := by
  cases op
  all_goals exact ⟨by simp [BoolOp.keyword], by simp [BoolOp.keyword, isBlank],
    by simp [BoolOp.keyword, isBlank]⟩

/-- **Behind a group comes a connector**, if the connector there is spaced. -/
theorem head_behind {front behind : Text} (spaced : Spaced (front ++ ')' :: behind))
    (stands : isGroup [] behind = true) :
    ∀ token ∈ (tokenizer.run inner [] .read behind).head?, token.IsConnector := by
  rcases exists_of_isGroup stands with blank | ⟨gap, word, rest, op, rfl, blank, same, ends⟩
  · have passed : tokenizer.Passes inner [] behind [] := (passes_gap blank).1
    rw [Tokenizer.run_last passed, List.reverse_nil, List.nil_append,
      Tokenizer.flat_eq_nil rfl (trim_eq_nil_iff.2 blank)]
    exact nofun
  · obtain ⟨last, between⟩ := spaced front gap word rest op rfl blank same
    cases rest with
    | nil =>
      obtain rfl := last rfl
      have passed : tokenizer.Passes inner [] (gap ++ op.keyword) [] := by
        exact .append (passes_gap blank).1 (passes_connector same _)
      rw [List.append_nil, Tokenizer.run_last passed, List.reverse_nil, List.nil_append,
        Tokenizer.flat_append rfl (isTrimmed_keyword op) blank]
      rintro token ⟨⟩
      exact ⟨op, rfl⟩
    | cons c rest =>
      obtain ⟨space, next⟩ := between ends
      cases next
      obtain ⟨gap, rfl⟩ := List.getLast?_eq_some_iff.1 space
      have blank' : ∀ c ∈ gap, isBlank c = true :=
        fun c mem => blank c (List.mem_append_left _ mem)
      have passed : PassesQuietly inner [] gap (' ' :: (word ++ ' ' :: rest)) := passes_gap blank'
      obtain ⟨passes, quiet⟩ := passed
      rw [List.append_nil] at quiet
      rw [List.append_assoc, List.singleton_append, passes, List.append_nil,
        run_connector same quiet, List.reverse_reverse,
        Tokenizer.flat_eq_nil rfl (trim_eq_nil_iff.2 blank')]
      rintro token ⟨⟩
      exact ⟨op, rfl⟩

/-! ### Groups in groups -/

/-- The tokens of a group are those of its contents. -/
theorem exists_of_divided {inner : Text → List Token} {whole : Text} {tokens group : List Token}
    (divided : separation.Divided tokenizer inner whole tokens) (mem : .nested group ∈ tokens) :
    ∃ front contents back, whole = front ++ '(' :: (contents ++ ')' :: back)
      ∧ group = inner contents := by
  have not_flat : ∀ x, .nested group ∉ tokenizer.flat x := by
    intro x mem
    obtain ⟨y, same⟩ := Tokenizer.mem_flat mem
    cases same
  induction divided with
  | last x => exact absurd mem (not_flat x)
  | @separated x _ word _ _ _ _ _ _ ih =>
    rw [List.mem_append, List.mem_append] at mem
    rcases mem with (mem | mem) | mem
    · exact absurd mem (not_flat _)
    · exact absurd mem (not_flat _)
    · obtain ⟨front, contents, back, rfl, same⟩ := ih mem
      exact ⟨x ++ (word ++ front), contents, back, by simp, same⟩
  | @grouped x contents _ _ _ _ _ _ ih =>
    rw [List.mem_append, List.mem_append, List.mem_singleton] at mem
    rcases mem with (mem | same) | mem
    · exact absurd mem (not_flat _)
    · cases same
      exact ⟨x, contents, _, rfl, rfl⟩
    · obtain ⟨front, contents', back, rfl, same⟩ := ih mem
      exact ⟨x ++ '(' :: (contents ++ ')' :: front), contents', back, by simp, same⟩

theorem exists_of_nested {t : Text} {group : List Token} (mem : .nested group ∈ tokens t) :
    ∃ front contents back, t = front ++ '(' :: (contents ++ ')' :: back)
      ∧ group = tokens contents := by
  have divided := Separation.divided_tokenizeWithin symbols_eq rfl t.length t
  obtain ⟨front, contents, back, split, same⟩ := exists_of_divided divided mem
  have shorter : contents.length < t.length := by
    simp only [split, List.length_append, List.length_cons]
    omega
  refine ⟨front, contents, back, split, same.trans ?_⟩
  exact Separation.tokenizeWithin_eq symbols_eq shorter (Nat.lt_succ_self _)

/-- **A group stands behind a connector or at the start**, and if the connectors behind parentheses
are spaced, in front of a connector or at the end: among the tokens of a condition and among those
of every group in it. -/
theorem groups_between_connectors {t : Text} {list : List Token}
    (within : Token.Within list (tokens t)) :
    list.IsChain (fun a b => b.IsNested → a.IsConnector)
      ∧ (Spaced t → list.IsChain (fun a b => a.IsNested → b.IsConnector)) := by
  generalize same : tokens t = all at within
  induction within generalizing t with
  | self =>
    subst same
    have run : tokens t = tokenizer.run (tokenizer.tokenizeWithin t.length) [] .read t := rfl
    rw [run]
    constructor
    · refine isChain_run (fun _ _ => nofun) (fun op _ _ => ⟨op, rfl⟩) ?_
      intro front behind _ stands tokens token first nested
      exact absurd nested (@head_run _ [] behind (start_of_isGroup stands) token first)
    · intro spaced
      refine isChain_run (fun _ _ => nofun) (fun _ _ => nofun) ?_
      rintro front behind rfl stands tokens token first -
      exact head_behind spaced stands token first
  | nested mem _ ih =>
    subst same
    obtain ⟨front, contents, back, split, rfl⟩ := exists_of_nested mem
    obtain ⟨before, behind⟩ := ih rfl
    exact ⟨before, fun spaced => behind (spaced.of_contents split)⟩

/-- The tokens of the outer group in `(({a} = 1) or {b} = 2) AND ({c} = 3)`. -/
theorem groups_between_connectors_nested : ∃ list,
    Token.Within list (tokens "(({a} = 1) or {b} = 2) AND ({c} = 3)".toList)
      ∧ list.head?.any (fun token => token.text?.isNone) = true ∧ list.length = 3
      ∧ list.IsChain (fun a b => b.IsNested → a.IsConnector)
      ∧ list.IsChain (fun a b => a.IsNested → b.IsConnector) := by
  have within : Token.Within
      [.nested [.text "{a} = 1".toList], .text ['O', 'R'], .text "{b} = 2".toList]
      (tokens "(({a} = 1) or {b} = 2) AND ({c} = 3)".toList) :=
    .nested (List.mem_cons_self ..) .self
  obtain ⟨behind, front⟩ := groups_between_connectors within
  exact ⟨_, within, rfl, rfl, behind, front (spaced_of_isSpaced (by decide))⟩

/-- The word behind this group reads as a connector to the group, but the condition is not divided
there. -/
theorem group_beside_text :
    ¬ (tokens "({a} = 1) AND({b} = 1)".toList).IsChain
      (fun a b => a.IsNested → b.IsConnector) := by
  have divided : tokens "({a} = 1) AND({b} = 1)".toList
      = [.nested [.text "{a} = 1".toList], .text "AND({b} = 1)".toList] := rfl
  rw [divided, List.isChain_cons]
  rintro ⟨next, -⟩
  obtain ⟨op, same⟩ := next _ rfl ⟨_, rfl⟩
  cases op <;> cases same

end Connected

end RecordMapper
