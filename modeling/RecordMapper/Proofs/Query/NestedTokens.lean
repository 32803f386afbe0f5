import RecordMapper.Proofs.Query.Tokens
import RecordMapper.Proofs.Token.Depth
import RecordMapper.Proofs.Token.Loose
import RecordMapper.Query.Grammar

/-!
The tokens of well-nested conditions.

A condition here is any trimmed, well-nested text that holds no connector outside literals,
parentheses and case distinctions. The tokenizer passes over it (`Connected.passes_nested`), unless
it is text in parentheses as a whole, which is taken out as a group. What is taken for a group does
not depend on what follows: nothing that may stand behind parentheses inside such a text starts with
a connector. So **such a condition is one token, alone and in front of a connector**
(`Connected.IsOperand.exists_isPiece`), **and the tokens of conditions joined by connectors are
those of the conditions with the connectors between them** (`Connected.tokens_joinLinks`).
-/

namespace RecordMapper.Connected

open Text

/-! ### Connectors -/

theorem exists_of_mem_keywords {word : Text} (mem : word ∈ keywords) :
    ∃ op : BoolOp, word = op.keyword := by
  obtain ⟨op, -, rfl⟩ := List.mem_map.1 mem
  exact ⟨op, rfl⟩

/-- No connector starts with any of these letters, and none goes on with an `E`. -/
theorem first_keywords {word : Text} (mem : word ∈ keywords) :
    ∃ a more, word = a :: more ∧ more.length ≤ 3 ∧ (∀ d ∈ 'C' :: endKeyword, agree true a d = false)
      ∧ ∀ b ∈ more.head?, agree true b 'E' = false := by
  obtain ⟨op, rfl⟩ := exists_of_mem_keywords mem
  cases op
  · exact ⟨'A', ['N', 'D'], rfl, by decide, by simp [endKeyword, agree], by simp [agree]⟩
  · exact ⟨'O', ['R'], rfl, by decide, by simp [endKeyword, agree], by simp [agree]⟩

theorem unlike_keywords (op : BoolOp) : ∀ a ∈ op.keyword, agree true 'E' a = false := by
  cases op <;> simp [BoolOp.keyword, agree]

/-- No connector is read where another one ends. -/
theorem diverges_keywords (other op : BoolOp) :
    other = op ∨ diverges false true other.keyword.reverse op.keyword.reverse = true := by
  cases other <;> cases op <;> decide

/-- So the separators are words between spaces that end in different letters. -/
theorem unambiguous (op : BoolOp) : ∀ separator ∈ separation.separators,
    ∃ other, separator = ' ' :: (other ++ [' '])
      ∧ (other = op.keyword ∨ diverges false true other.reverse op.keyword.reverse = true) := by
  intro separator mem
  obtain ⟨other, -, rfl⟩ := List.mem_map.1 mem
  exact ⟨other.keyword, rfl, (diverges_keywords other op).imp_left (congrArg BoolOp.keyword)⟩

/-! ### What is passed -/

/-- Nothing read last begins a keyword that opens a case distinction, or a connector. -/
structure Quiet (seen ahead : Text) : Prop where
  distinction : Unbegun standsAlone caseKeyword seen ahead
  connector : ∀ word ∈ keywords, Unbegun standsApart word seen ahead

theorem quiet_nil (ahead : Text) : Quiet [] ahead :=
  ⟨unbegun_nil, fun _ _ => unbegun_nil⟩

/-- No connector starts with a character that is not a letter. -/
theorem avoids_keywords {c : Char} (mark : c.isAlpha = false) (before : Option Char) (t : Text) :
    avoids keywords before (c :: t) := by
  refine avoids_mark (fun word mem => ⟨?_, letters_keywords word mem⟩) mark before t
  obtain ⟨a, more, rfl, -⟩ := first_keywords mem
  exact List.cons_ne_nil a more

/-- No separator ends at a loose character behind which no connector was begun. -/
def watch : separation.Watch (avoids keywords) where
  calm seen ahead := ∀ word ∈ keywords, Unbegun standsApart word seen ahead
  step _ avoid calm word mem := (calm word mem).cons (avoid word mem)
  misses := by
    intro seen c ahead _ _ calm separator mem
    obtain ⟨op, -, rfl⟩ := List.mem_map.1 mem
    have reversed : (' ' :: (op.keyword ++ [' '])).reverse
        = ' ' :: (op.keyword.reverse ++ [' ']) := by simp
    rw [reversed]
    by_cases space : c = ' '
    · subst space
      -- in front of this blank, a connector would stand on its own
      have step : after? separation.ignoreCase (' ' :: (op.keyword.reverse ++ [' '])) (' ' :: seen)
          = after? true (op.keyword.reverse ++ [' ']) seen := rfl
      rw [step, after?_append_left]
      cases found : after? true op.keyword.reverse seen with
      | none => rfl
      | some before =>
        have touched := (calm _ (mem_keywords op)).free_eq_false
          (by cases op <;> simp [BoolOp.keyword]) found
        cases before with
        | nil => rfl
        | cons d before =>
          refine after?_cons_eq_none rfl ?_ [] before
          rintro rfl
          cases touched
    · exact after?_cons_eq_none rfl (Ne.symm space) _ seen
  mark := by
    intro c mark seen ahead word mem
    refine unbegun_of_mark (letters_keywords word mem) ?_ seen ahead
    simp only [List.mem_cons, List.not_mem_nil, or_false] at mark
    rcases mark with rfl | rfl | rfl
    all_goals rfl
  ending := by
    intro closing closes seen ahead word mem
    obtain ⟨a, more, rfl, short, first, second⟩ := first_keywords mem
    exact unbegun_of_end short (fun d mem => first d (List.mem_cons_of_mem _ mem)) second closes
      seen ahead

section Passing

variable {inner : Text → List Token} {seen : Text}

theorem Quiet.watched {ahead : Text} (quiet : Quiet seen ahead) : watch.Quiet seen ahead :=
  ⟨quiet.distinction, quiet.connector⟩

/-- No text in parentheses inside this one is taken for a group of conditions. -/
def Ungrouped (seen t rest : Text) : Prop :=
  ∀ front contents back, t = front ++ '(' :: (contents ++ ')' :: back) →
    Nested [] none contents (')' :: (back ++ rest)) → Nested keywords (some ')') back rest →
      isGroup (seen.reverse ++ front) (back ++ rest) = false

/-- What is known where well-nested text is passed: behind it no keyword was begun. -/
def PassesQuietly (inner : Text → List Token) (seen t rest : Text) : Prop :=
  tokenizer.Passes inner seen t rest ∧ Quiet (t.reverse ++ seen) rest

/-- **Well-nested text is passed**, if no connector stands in it and nothing in it is taken for a
group of conditions. -/
theorem passes_nested {before : Option Char} {t rest : Text}
    (nested : Nested keywords before t rest) (last : before = seen.head?)
    (quiet : Quiet seen (t ++ rest)) (ungrouped : Ungrouped seen t rest) :
    PassesQuietly inner seen t rest := by
  have passed : watch.Passed tokenizer inner seen t rest := by
    refine Separation.passes_nested symbols_eq rfl (nestedWith_iff_nested.2 nested) last
      quiet.watched fun _ front contents back split enclosed more => ?_
    exact ungrouped front contents back split enclosed (nestedWith_iff_nested.1 more)
  exact ⟨passed.passes, passed.quiet.distinction, passed.quiet.calm⟩

end Passing

/-! ### What is taken for a group -/

/-- No connector stands at the start of well-nested text in which none stands. -/
theorem not_startsWord_of_nested {before : Option Char} {t rest : Text}
    (nested : Nested keywords before t rest) (nonempty : t ≠ []) :
    ∀ word ∈ keywords, startsWord standsApart word before (t ++ rest) = false := by
  intro word mem
  obtain ⟨a, more, rfl, -, first, -⟩ := first_keywords mem
  have mark : ∀ {c : Char} (t : Text), c.isAlpha = false →
      startsWord standsApart (a :: more) before (c :: t) = false := by
    intro c t mark
    exact startsWord_cons_of_not_isAlpha (List.cons_ne_nil a more) (letters_keywords _ mem) mark
      before t
  cases nested with
  | nil => exact absurd rfl nonempty
  | char _ _ _ noWord _ => exact noWord _ mem
  | literal _ _ => exact mark _ rfl
  | field _ _ => exact mark _ rfl
  | group _ _ => exact mark _ rfl
  | case opens _ _ _ _ _ =>
    obtain ⟨c, opening, rfl, same⟩ := exists_cons_of_sameLetters opens
    have differ := first 'C' (List.mem_cons_self ..)
    exact startsWord_cons_of_differ ((agree_congr same a).symm.trans differ) before _

/-- Without the blanks at its start, a well-nested text is one, behind the same character or a
blank. -/
theorem exists_nested_trimStart {words : List Text} {before : Option Char} {t rest : Text}
    (nested : Nested words before t rest) :
    ∃ before', (∀ c ∈ before', c ∈ before ∨ isBlank c = true)
      ∧ Nested words before' (trimStart t) rest := by
  have same : ∀ {before : Option Char} {t rest : Text}, Nested words before t rest →
      (∀ c ∈ t.head?, isBlank c = false) →
      ∃ before', (∀ c ∈ before', c ∈ before ∨ isBlank c = true)
        ∧ Nested words before' (trimStart t) rest := by
    intro before t rest nested start
    rw [trimStart_of_start start]
    exact ⟨before, fun c mem => .inl mem, nested⟩
  induction nested with
  | nil => exact same .nil nofun
  | @char words before c t rest loose noCase noEnd noWord more ih =>
    cases blank : isBlank c with
    | true =>
      obtain ⟨before', last, nested'⟩ := ih same
      have step : trimStart (c :: t) = trimStart t := by simp [trimStart, blank]
      rw [step]
      refine ⟨before', fun d mem => ?_, nested'⟩
      rcases last d mem with here | blank'
      · cases here
        exact .inr blank
      · exact .inr blank'
    | false => exact same (.char loose noCase noEnd noWord more) (by simpa using blank)
  | literal closed more => exact same (.literal closed more) (by simp [isBlank])
  | field reference more => exact same (.field reference more) (by simp [isBlank])
  | group enclosed more => exact same (.group enclosed more) (by simp [isBlank])
  | case opens alone enclosed closes alone' more =>
    refine same (.case opens alone enclosed closes alone' more) ?_
    obtain ⟨c, opening, rfl, first⟩ := exists_cons_of_sameLetters opens
    rintro d ⟨⟩
    exact isBlank_of_isAsciiWord (isAsciiWord_of_agree rfl first)

/-- What starts with no connector that stands apart starts with none at all. -/
theorem startsConnector_eq_false {before : Option Char} {t : Text}
    (apart : ∀ c ∈ before, isWord c = false)
    (missed : ∀ word ∈ keywords, startsWord standsApart word before t = false) :
    startsConnector t = false := by
  rw [startsConnector, List.any_eq_false]
  intro op _
  have touched := missed _ (mem_keywords op)
  have free : before.all (fun c => !isWord c) = true := by
    rw [Option.all_eq_true]
    intro c mem
    rw [apart c mem]
    rfl
  cases found : after? true op.keyword t with
  | none => exact Bool.false_ne_true
  | some rest =>
    simp only [startsWord, found, standsApart, free, Bool.true_and] at touched
    cases rest with
    | nil => cases touched
    | cons c rest =>
      have word : isWord c = true := by simpa using touched
      intro ends
      have mark : isAsciiBlank c = true ∨ c = '(' := by simpa using ends
      rcases mark with blank | rfl
      · rw [isWord_of_isBlank (isBlank_of_isAsciiBlank blank)] at word
        cases word
      · cases word

/-- **Parentheses with more behind them are not taken for a group**, if no connector stands in what
is behind. -/
theorem isGroup_eq_false {back rest : Text} (nested : Nested keywords (some ')') back rest)
    (more : trimStart back ≠ []) (front : Text) : isGroup front (back ++ rest) = false := by
  obtain ⟨before, last, nested'⟩ := exists_nested_trimStart nested
  have apart : ∀ c ∈ before, isWord c = false := by
    intro c mem
    rcases last c mem with here | blank
    · cases here
      rfl
    · exact isWord_of_isBlank blank
  have connector := startsConnector_eq_false apart (not_startsWord_of_nested nested' more)
  have split : trimStart (back ++ rest) = trimStart back ++ rest := by
    rw [trimStart, List.dropWhile_append, if_neg]
    · rfl
    · simpa [trimStart] using more
  rw [isGroup, split, connector]
  simp [more]

/-- A trimmed text that is no group as a whole holds none. -/
theorem ungrouped_of_trimmed {t rest : Text} (trimmed : IsTrimmed t)
    (other : ∀ contents, t = '(' :: (contents ++ [')']) →
      ¬ Nested [] none contents (')' :: rest)) : Ungrouped [] t rest := by
  rintro front contents back rfl enclosed more
  cases front with
  | nil =>
    refine isGroup_eq_false more (fun empty => ?_) _
    cases back using List.reverseRec with
    | nil => exact other contents rfl enclosed
    | append_singleton back c _ =>
      have blank : isBlank c = true := List.dropWhile_eq_nil_iff.1 empty c (by simp)
      have whole : '(' :: (contents ++ ')' :: (back ++ [c]))
          = '(' :: (contents ++ ')' :: back) ++ [c] := by simp
      rw [List.nil_append, whole] at trimmed
      have last := trimmed.stop c List.getLast?_concat
      rw [blank] at last
      cases last
  | cons c front => exact Separation.isGroup_of_mem (by simp) (trimmed.start c rfl) _

/-! ### Connectors between conditions -/

section Joining

variable {inner : Text → List Token} {seen : Text} {op : BoolOp} {k : Text}
  (spelled : sameLetters op.keyword k = true)
include spelled

/-- The blank behind a connector is where it is recognized. -/
theorem firstMatch?_connector (seen rest : Text) :
    tokenizer.firstMatch? (' ' :: (k.reverse ++ ' ' :: seen)) rest
      = some (.split seen.reverse [.flat (' ' :: (op.keyword ++ [' ']))] 0) := by
  exact Separation.firstMatch?_word symbols_eq rfl (mem_separators op) spelled (unambiguous op) seen
    rest

theorem passes_connector (rest : Text) : tokenizer.Passes inner seen k rest := by
  refine .of_each (fun c mem seen rest => ?_) rest
  obtain ⟨a, member, same⟩ := exists_agree_of_mem (sameLetters_iff.1 spelled) mem
  have letter := letters_keywords _ (mem_keywords op) a member
  refine Separation.passes_unlike symbols_eq rfl
    (Separation.isPlain_of_isAsciiWord (isAsciiWord_of_agree letter same)) ?_ rest
  rw [← agree_congr same]
  exact unlike_keywords op a member

/-- **A connector in any letter case ends the current token** and becomes one of its own. -/
theorem run_connector {more : Text} (quiet : Quiet seen (' ' :: (k ++ ' ' :: more))) :
    tokenizer.run inner seen .read (' ' :: (k ++ ' ' :: more))
      = tokenizer.flat seen.reverse ++ .text op.keyword :: tokenizer.run inner [] .read more := by
  have noCase : startsKeyword caseKeyword seen.head? (' ' :: (k ++ ' ' :: more)) = false :=
    startsKeyword_cons_of_not_isAlpha (by simp [caseKeyword]) letters_caseKeyword rfl _
  have first : tokenizer.Passes inner seen [' '] (k ++ ' ' :: more) :=
    Separation.passes_loose symbols_eq (by decide) (avoids_keywords rfl _ _) quiet.watched noCase
  have word : tokenizer.Passes inner (' ' :: seen) k (' ' :: more) := passes_connector spelled _
  have passed : tokenizer.Passes inner seen (' ' :: k) (' ' :: more) := .cons first word
  have step : tokenizer.run inner seen .read (' ' :: (k ++ ' ' :: more))
      = tokenizer.run inner ((' ' :: k).reverse ++ seen) .read (' ' :: more) := passed
  have reversed : ' ' :: ((' ' :: k).reverse ++ seen) = ' ' :: (k.reverse ++ ' ' :: seen) := by simp
  have keyword : tokenizer.flat (' ' :: (op.keyword ++ [' '])) = [.text op.keyword] := by
    cases op <;> rfl
  rw [step, Tokenizer.run_read_cons, reversed, firstMatch?_connector spelled]
  simp only [List.flatMap_cons, List.flatMap_nil, Tokenizer.ofPiece, keyword,
    Tokenizer.run_drop_zero]
  simp

end Joining

/-! ### Tokens -/

/-- A trimmed, well-nested text in which no connector stands, outside literals, parentheses and case
distinctions. -/
structure IsOperand (t : Text) : Prop where
  trimmed : IsTrimmed t
  nested : Nested keywords none t []

/-- The text is one token, alone and in front of a connector in any letter case. -/
structure IsPiece (inner : Text → List Token) (t : Text) (token : Token) : Prop where
  proper : Grammar.connector? token = none
  last : tokenizer.run inner [] .read t = [token]
  front : ∀ {op : BoolOp} {k : Text}, sameLetters op.keyword k = true → ∀ more,
    tokenizer.run inner [] .read (t ++ ' ' :: (k ++ ' ' :: more))
      = token :: .text op.keyword :: tokenizer.run inner [] .read more

/-- No operand is a connector. -/
theorem IsOperand.proper {t : Text} (operand : IsOperand t) :
    Grammar.connector? (.text t) = none := by
  have missed : ∀ op : BoolOp, sameLetters op.keyword t = false := by
    intro op
    have starts := not_startsWord_of_nested operand.nested operand.trimmed.nonempty _
      (mem_keywords op)
    rw [List.append_nil] at starts
    refine Bool.eq_false_iff.2 fun same => ?_
    have found : after? true op.keyword t = some [] := by simpa [sameLetters] using same
    rw [startsWord, found] at starts
    cases starts
  show BoolOp.ofKeyword? t = none
  rw [BoolOp.ofKeyword?, missed, missed]
  rfl

/-- An operand that is no text in parentheses as a whole stays as it is. -/
theorem IsOperand.isPiece {t : Text} (operand : IsOperand t)
    (other : ∀ contents, t = '(' :: (contents ++ [')']) → ¬ Nested [] none contents [')'])
    (inner : Text → List Token) : IsPiece inner t (.text t) := by
  -- words end both at the end of the text and in front of a connector
  have passed : ∀ {rest : Text}, IsStop rest → PassesQuietly inner [] t rest := by
    intro rest stop
    have nested : Nested keywords none t ([] ++ rest) :=
      Nested.of_stop (x := []) operand.nested isStop_nil stop letters_keywords
    refine passes_nested nested rfl (quiet_nil _) (ungrouped_of_trimmed operand.trimmed ?_)
    intro contents whole enclosed
    exact other contents whole (Nested.of_stop (x := [')']) enclosed stop isStop_nil nofun)
  have flat := Tokenizer.flat_trimmed (t := tokenizer) rfl operand.trimmed
  refine ⟨operand.proper, ?_, fun {op k} spelled more => ?_⟩
  · rw [Tokenizer.run_last (passed isStop_nil).1]
    exact flat
  · have stop : IsStop (' ' :: (k ++ ' ' :: more)) := isStop_cons rfl (by decide) _
    obtain ⟨passes, quiet⟩ := passed stop
    rw [passes, run_connector spelled quiet, List.append_nil, List.reverse_reverse, flat]
    rfl

/-- **An operand is one token**: text in parentheses as a whole becomes a group, and any other stays
as it is. -/
theorem IsOperand.exists_isPiece {t : Text} (operand : IsOperand t) (inner : Text → List Token) :
    ∃ token, IsPiece inner t token := by
  by_cases group : ∃ contents, t = '(' :: (contents ++ [')']) ∧ Nested [] none contents [')']
  · obtain ⟨contents, rfl, enclosed⟩ := group
    have taken : ∀ {rest : Text}, IsStop rest → isGroup [] rest = true →
        tokenizer.run inner [] .read ('(' :: (contents ++ [')']) ++ rest)
          = .nested (inner contents) :: tokenizer.run inner [] .read rest := by
      intro rest stop free
      have enclosed' : Nested [] none contents ([')'] ++ rest) :=
        Nested.of_stop (x := [')']) enclosed isStop_nil stop nofun
      exact run_group inner (fun p => p.close?_nested enclosed') free
    refine ⟨.nested (inner contents), rfl, ?_, fun {op k} spelled more => ?_⟩
    · have found := taken isStop_nil rfl
      rwa [List.append_nil] at found
    · have stop : IsStop (' ' :: (k ++ ' ' :: more)) := isStop_cons rfl (by decide) _
      rw [taken stop (isGroup_connector spelled more), run_connector spelled (quiet_nil _),
        List.reverse_nil, Tokenizer.flat_nil, List.nil_append]
  · exact ⟨.text t, operand.isPiece (fun contents whole enclosed =>
      group ⟨contents, whole, enclosed⟩) inner⟩

/-- Another condition, with the connector in front of it and the letter case that is written in. -/
structure Link where
  op : BoolOp
  word : Text
  spelled : sameLetters op.keyword word = true
  operand : Text

/-- Conditions with connectors between them. -/
def joinLinks (first : Text) : List Link → Text
  | [] => first
  | link :: links => first ++ ' ' :: (link.word ++ ' ' :: joinLinks link.operand links)

/-- The tokens of connectors and what they join. -/
def linkTokens (parts : List (BoolOp × Token)) : List Token :=
  parts.flatMap fun part => [.text part.1.keyword, part.2]

/-- **Operands joined by connectors are divided at these.** -/
theorem run_joinLinks {inner : Text → List Token} {first : Text} {links : List Link}
    (operand : IsOperand first) (operands : ∀ link ∈ links, IsOperand link.operand) :
    ∃ token parts, IsPiece inner first token
      ∧ List.Forall₂ (fun (link : Link) part =>
          part.1 = link.op ∧ IsPiece inner link.operand part.2) links parts
      ∧ tokenizer.run inner [] .read (joinLinks first links) = token :: linkTokens parts := by
  obtain ⟨token, piece⟩ := operand.exists_isPiece inner
  induction links generalizing first token with
  | nil => exact ⟨token, [], piece, .nil, piece.last⟩
  | cons link links ih =>
    obtain ⟨second, others⟩ := List.forall_mem_cons.1 operands
    obtain ⟨token', piece'⟩ := second.exists_isPiece inner
    obtain ⟨next, parts, pieceNext, all, run⟩ := ih second others token' piece'
    refine ⟨token, (link.op, next) :: parts, piece, .cons ⟨rfl, pieceNext⟩ all, ?_⟩
    rw [joinLinks, piece.front link.spelled, run]
    rfl

/-- The text, taken for itself, is this one token. -/
def IsToken (t : Text) (token : Token) : Prop :=
  Grammar.connector? token = none ∧ tokens t = [token]

theorem length_le_joinLinks (first : Text) (links : List Link) :
    first.length ≤ (joinLinks first links).length
      ∧ ∀ link ∈ links, link.operand.length ≤ (joinLinks first links).length := by
  induction links generalizing first with
  | nil => exact ⟨Nat.le_refl _, List.forall_mem_nil _⟩
  | cons link links ih =>
    obtain ⟨second, others⟩ := ih link.operand
    have behind : (joinLinks link.operand links).length
        ≤ (joinLinks first (link :: links)).length := by
      simp only [joinLinks, List.length_append, List.length_cons]
      omega
    refine ⟨by simp [joinLinks], List.forall_mem_cons.2 ⟨Nat.le_trans second behind, ?_⟩⟩
    exact fun link mem => Nat.le_trans (others link mem) behind

/-- A text that is one token with enough depth is that token for itself. -/
theorem IsPiece.isToken {t : Text} {token : Token} {depth : Nat}
    (piece : IsPiece (tokenizer.tokenizeWithin depth) t token) (enough : t.length ≤ depth) :
    IsToken t token := by
  refine ⟨piece.proper, Eq.trans ?_ piece.last⟩
  exact Separation.tokenizeWithin_eq symbols_eq (Nat.lt_succ_self _) (Nat.lt_succ_of_le enough)

/-- **The tokens of joined operands** are those of the operands alone, with the connectors between
them. -/
theorem tokens_joinLinks {first : Text} {links : List Link} (operand : IsOperand first)
    (operands : ∀ link ∈ links, IsOperand link.operand) :
    ∃ token parts, IsToken first token
      ∧ List.Forall₂ (fun (link : Link) part =>
          part.1 = link.op ∧ IsToken link.operand part.2) links parts
      ∧ tokens (joinLinks first links) = token :: linkTokens parts := by
  obtain ⟨token, parts, piece, pieces, run⟩ := run_joinLinks operand operands
  obtain ⟨enough, enoughs⟩ := length_le_joinLinks first links
  refine ⟨token, parts, piece.isToken enough, ?_, run⟩
  rw [List.forall₂_iff_get] at pieces ⊢
  exact ⟨pieces.1, fun i h h' => ⟨(pieces.2 i h h').1,
    (pieces.2 i h h').2.isToken (enoughs _ (List.get_mem _ _))⟩⟩

end RecordMapper.Connected
