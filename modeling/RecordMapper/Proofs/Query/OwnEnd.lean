import RecordMapper.Proofs.Query.MissingPart

/-!
Case distinctions with something behind their own end.

The tokenizers count the keywords and so take a case distinction up to an `END` of its own. The rule
that reads one pairs the `CASE` at the start of the text with the last `END` that nothing but an
alias follows. Where more than an alias stands behind its own end, the text is taken if that ends in
an `END` again (`Form.lastCaseEnding?_of_case?`). If it does not, or if an arithmetic operator
between spaces divides the text, **the text is not read as one case distinction**
(`Parser.expression_ne_case`).
-/

namespace RecordMapper

open Text

namespace Form

/-- The text starts with a case distinction, as the tokenizers take it, and `rest` stands behind. -/
def Spans (t rest : Text) : Prop :=
  ∃ word inside, t = word ++ (inside ++ rest) ∧ sameLetters caseKeyword word = true
    ∧ Symbol.caseDistinction.match? word.reverse (inside ++ rest) = some (.extend inside.length)

variable {t rest : Text}

/-- It ends with the letters of the keyword. -/
theorem Spans.exists_end (spans : Spans t rest) :
    ∃ d w contents x y z, t = d :: (w ++ (contents ++ ([x, y, z] ++ rest)))
      ∧ d ∈ ['c', 'C'] ∧ z ∈ ['d', 'D'] ∧ ∀ b ∈ [x, y, z], isBlank b = false := by
  obtain ⟨word, inside, rfl, spelled, taken⟩ := spans
  obtain ⟨contents, stop, behind, split, closes, length⟩ :=
    Symbol.exists_end_of_caseDistinction taken
  rw [← List.append_assoc] at split
  injection length with length
  obtain ⟨rfl, rfl⟩ := List.append_inj split length
  obtain ⟨d, w, rfl, first⟩ := exists_cons_of_sameLetters spelled
  have visible := isAsciiWord_of_mem_of_agree letters_endKeyword (sameLetters_iff.1 closes)
  obtain ⟨x, y, z, rfl, last⟩ : ∃ x y z, stop = [x, y, z] ∧ agree true 'D' z = true := by
    rcases sameLetters_iff.1 closes with _ | ⟨_, _ | ⟨_, _ | ⟨last, ⟨⟩⟩⟩⟩
    exact ⟨_, _, _, rfl, last⟩
  refine ⟨d, w, contents, x, y, z, by simp, ?_, ?_, fun b mem => ?_⟩
  · rcases eq_or_of_agree (by decide) first with rfl | rfl
    all_goals decide
  · rcases eq_or_of_agree (by decide) last with rfl | rfl
    all_goals decide
  · exact isBlank_of_isAsciiWord (visible b mem)

/-- A text from which one suffix ends a case distinction has a last such suffix. -/
theorem lastCaseEnding?_append_ne_none {tail : Text} {ending : Bool × Option String}
    (found : caseEnding? tail = some ending) (front : Text) :
    lastCaseEnding? (front ++ tail) ≠ none := by
  obtain ⟨⟨front', ending'⟩, last⟩ : ∃ last, lastCaseEnding? tail = some last := by
    cases tail with
    | nil => cases found
    | cons c tail =>
      rw [lastCaseEnding?]
      cases lastCaseEnding? tail with
      | some later => exact ⟨_, rfl⟩
      | none => exact ⟨([], ending), by simp [found]⟩
  rw [lastCaseEnding?_later last front]
  exact Option.some_ne_none _

/-- The last letter of `END` is neither a blank nor a letter of `AS`. -/
theorem not_mem_of_letter {front word back : Text} (blank : IsBlanks front)
    (written : IsWritten ['A', 'S'] word) (blank' : IsBlanks back) {z : Char}
    (letter : z ∈ ['d', 'D']) : z ∉ front ++ (word ++ back) := by
  have other : ∀ z ∈ ['d', 'D'], isBlank z = false ∧ fold z ∉ ['A', 'S'].map fold := by
    simp [isBlank, fold]
  obtain ⟨visible, folded⟩ := other z letter
  have solid : ∀ {gap : Text}, IsBlanks gap → z ∉ gap := by
    intro gap blanks mem
    rw [blanks.2 z mem] at visible
    cases visible
  simp only [List.mem_append, not_or]
  refine ⟨solid blank, fun mem => folded ?_, solid blank'⟩
  exact written ▸ List.mem_map_of_mem mem

/-- So in an alias that letter stands in the name, and what follows it does too. -/
theorem ending?_eq_none_of_letter {u : Text} {z : Char} (letter : z ∈ ['d', 'D'])
    (mark : ∃ e ∈ rest, isWord e = false) : ending? (u ++ z :: rest) = none := by
  rw [Option.eq_none_iff_forall_ne_some]
  intro a named
  rcases exists_of_ending? named with ⟨nothing, -⟩ | ⟨name, -, gap, naming, gap', same, aliasing⟩
  · simp at nothing
  obtain ⟨blanks, written, blanks', isName⟩ := aliasing
  obtain ⟨e, mem, mark⟩ := mark
  obtain ⟨before, after, rfl⟩ := List.append_of_mem mem
  have unnamed : e ∉ name := by
    intro mem
    rw [isName.2 e mem] at mark
    cases mark
  have split : u ++ z :: before ++ e :: after = gap ++ (naming ++ gap') ++ name := by
    simpa using same
  obtain ⟨_, inside, -⟩ := exists_of_not_mem split unnamed
  refine not_mem_of_letter blanks written blanks' letter ?_
  simp [inside]

/-- One of the last characters of a text is one of those. -/
theorem mem_of_short {l front u stop : Text} {b : Char} (split : l ++ stop = front ++ b :: u)
    (short : u.length < stop.length) : b ∈ stop := by
  rcases List.append_eq_append_iff.1 split with ⟨v, -, same⟩ | ⟨v, -, same⟩
  · simp [same]
  · have lengths := congrArg List.length same
    simp only [List.length_append, List.length_cons] at lengths
    obtain rfl : v = [] := List.length_eq_zero_iff.1 (by omega)
    rw [← show b :: u = stop from same]
    exact List.mem_cons_self ..

/-- What starts with the keyword is read up to an `END`, with nothing but an alias behind it. -/
theorem exists_ending_of_case? {c : Case} (found : case? t = some c) (both : c.opened = c.closed)
    (start : ∀ d ∈ t.head?, d ≠ '(') (stop : ∀ d ∈ t.getLast?, isBlank d = false) :
    ∃ front b word r a, t = front ++ b :: (word ++ r) ∧ isBlank b = true
      ∧ IsWritten endKeyword word ∧ ending? r = some a
      ∧ caseEnding? (b :: (word ++ r)) = some (false, c.aliasName) := by
  obtain ⟨lead, keyword, gap, tail, whole, -, -, -, -, ending⟩ := exists_of_case? found
  have unopened : c.opened = false := by
    cases opened : c.opened with
    | false => rfl
    | true =>
      rw [opened] at whole
      exact absurd rfl (start '(' (whole ▸ rfl))
  rw [← both, unopened] at ending
  obtain ⟨b, word, r, rfl, blank, written, form⟩ := exists_of_caseEnding? ending
  have split : t = lead ++ (keyword ++ (gap ++ c.body)) ++ b :: (word ++ r) := by
    rw [whole, unopened]
    simp
  have named : ∃ a, ending? r = some a := by
    rcases form with ⟨-, ⟨-, blanks⟩ | named⟩ | ⟨⟨⟩, -⟩
    · rcases List.eq_nil_or_concat r with rfl | ⟨r, e, rfl⟩
      · exact ⟨none, rfl⟩
      · have ends : t = lead ++ (keyword ++ (gap ++ c.body)) ++ b :: (word ++ r) ++ [e] := by
          rw [split]
          simp
        have solid := stop e (by rw [ends, List.getLast?_concat]; rfl)
        rw [blanks e (by simp)] at solid
        cases solid
    · exact ⟨_, named⟩
  obtain ⟨a, named⟩ := named
  exact ⟨_, b, word, r, a, split, blank, written, named, ending⟩

/-- **Where more than an alias stands behind the end of its own, a case distinction is read if an
ending stands in what is behind.** -/
theorem lastCaseEnding?_of_case? {c : Case} (spans : Spans t rest) (found : case? t = some c)
    (both : c.opened = c.closed) (stop : ∀ d ∈ t.getLast?, isBlank d = false)
    (more : ending? rest = none) (mark : ∃ d ∈ rest, isWord d = false) :
    lastCaseEnding? rest ≠ none := by
  obtain ⟨d, w, contents, x, y, z, split, first, last, visible⟩ := spans.exists_end
  have start : ∀ d ∈ t.head?, d ≠ '(' := by
    rw [split]
    rintro _ ⟨⟩ rfl
    simp at first
  obtain ⟨front, b, word, r, a, whole, blank, written, named, ending⟩ :=
    exists_ending_of_case? found both start stop
  have split' : d :: (w ++ contents) ++ [x, y, z] ++ rest = front ++ b :: (word ++ r) := by
    rw [← whole, split]
    simp
  rcases List.append_eq_append_iff.1 split' with ⟨u, -, behind⟩ | ⟨u, inside, tail⟩
  · rw [behind]
    exact lastCaseEnding?_append_ne_none ending u
  cases u with
  | nil =>
    have same : b :: (word ++ r) = rest := tail
    exact same ▸ lastCaseEnding?_append_ne_none ending []
  | cons b' u =>
  -- otherwise the text is read up to an earlier word, and its own end stands in the alias
  exfalso
  obtain ⟨rfl, behind⟩ := List.cons.inj tail
  have other : r ≠ rest := by
    rintro rfl
    rw [more] at named
    cases named
  rcases List.append_eq_append_iff.1 behind with ⟨u', rfl, rfl⟩ | ⟨u', rfl, rfl⟩
  · rcases List.eq_nil_or_concat u' with rfl | ⟨u', z', rfl⟩
    · exact other rfl
    obtain rfl : z = z' := by
      have ends : d :: (w ++ contents) ++ [x, y] ++ [z] = front ++ b :: (word ++ u') ++ [z'] := by
        simpa using inside
      exact List.singleton_inj.1 (List.append_inj' ends rfl).2
    have unnamed := ending?_eq_none_of_letter (u := u') last mark
    simp [unnamed] at named
  · have length := written.length_eq
    have pos := List.length_pos_iff.2 (fun (empty : u' = []) => other (by simp [empty]))
    rw [List.length_append] at length
    have short : u.length < [x, y, z].length := by
      simp only [endKeyword, List.length_cons, List.length_nil] at length ⊢
      omega
    rw [visible b (mem_of_short inside short)] at blank
    cases blank

/-- What is left of a trimmed text without its alias is trimmed. -/
theorem isTrimmed_splitAlias (trimmed : IsTrimmed t) : IsTrimmed (splitAlias t).1 := by
  cases split : splitAlias t with
  | mk body a =>
    cases a with
    | none => exact splitAlias_eq_of_none split ▸ trimmed
    | some name =>
      obtain ⟨-, nonempty, stop, naming, -, rfl⟩ := exists_of_splitAlias split
      refine ⟨nonempty, fun c mem => trimmed.start c ?_, stop⟩
      rw [List.head?_append, mem]
      rfl

end Form

namespace Chain

/-- A text with something else than a space in front of its last character ends in no operator. -/
theorem not_endsInWord {c d : Char} (other : d ≠ ' ') (seen : Text) :
    ¬ separation.EndsInWord (c :: d :: seen) := by
  rintro ⟨y, front, ⟨w, mem, all⟩, same⟩
  obtain ⟨op, -, spaced⟩ := List.mem_map.1 mem
  obtain rfl : [op.symbol] = w := spaced_inj spaced
  rcases all with _ | ⟨_, ⟨⟩⟩
  exact other (List.cons.inj (List.cons.inj same).2).1

/-- An operator with spaces of its own stands where nothing encloses it. -/
def IsDivided (t : Text) : Prop :=
  ∃ (op : MathOp) (l r : Text), t = l ++ ' ' :: op.symbol :: ' ' :: r
    ∧ ¬ separation.EndsInWord l.reverse ∧ IsFree l.reverse (' ' :: op.symbol :: ' ' :: r)

variable {t : Text} (trimmed : IsTrimmed t)
include trimmed

theorem three_le_of_isDivided (divided : IsDivided t) : 3 ≤ (tokens t).length := by
  obtain ⟨op, l, r, rfl, own, free⟩ := divided
  have begun : ∃ c ∈ l, isBlank c = false := by
    cases l with
    | nil => cases trimmed.start ' ' rfl
    | cons c l => exact ⟨c, List.mem_cons_self .., trimmed.start c rfl⟩
  have ended : ∃ c ∈ r, isBlank c = false := by
    rcases List.eq_nil_or_concat r with rfl | ⟨r, c, rfl⟩
    · have ends : l ++ ' ' :: op.symbol :: [' '] = l ++ [' ', op.symbol] ++ [' '] := by simp
      cases trimmed.stop ' ' (by rw [ends, List.getLast?_concat]; rfl)
    · have ends : l ++ ' ' :: op.symbol :: ' ' :: r.concat c
          = l ++ ' ' :: op.symbol :: ' ' :: r ++ [c] := by simp
      exact ⟨c, by simp, trimmed.stop c (by rw [ends, List.getLast?_concat]; rfl)⟩
  obtain ⟨c, mem, solid⟩ := ended
  have long : r.length ≤ (l ++ ' ' :: op.symbol :: ' ' :: r).length := by
    simp only [List.length_append, List.length_cons]
    omega
  have behind := List.length_pos_iff.2 (run_ne_nil long mem solid)
  obtain ⟨front, run, more⟩ := Separation.exists_word_of_isFree symbols_eq isWordy rfl
    (tokenizer.tokenizeWithin (l ++ ' ' :: op.symbol :: ' ' :: r).length) (splits op) rfl own free
  have before := List.length_pos_iff.2 (more begun)
  have found : tokenizer.tokenize (l ++ ' ' :: op.symbol :: ' ' :: r) = front ++ _ := run
  have several : 3 ≤ (tokenizer.tokenize (l ++ ' ' :: op.symbol :: ' ' :: r)).length := by
    rw [found, List.length_append, List.length_cons]
    omega
  rw [tokens_eq_tokenize fun one single => ?_]
  · exact several
  · rw [single, List.length_singleton] at several
    omega

/-- A text that is a single token is that token. -/
theorem eq_of_tokenize_single {one : Text} (single : tokenizer.tokenize t = [.text one]) :
    one = t := by
  refine Separation.run_induction symbols_eq
    (motive := fun seen ahead tokens => IsTrimmed (seen.reverse ++ ahead) → tokens = [.text one] →
      one = seen.reverse ++ ahead) ?last ?passed ?drawn ?grouped ?separated [] t trimmed single
  case last =>
    intro seen trimmed single
    rw [List.append_nil] at trimmed ⊢
    rw [Tokenizer.flat_trimmed rfl trimmed] at single
    cases single
    rfl
  case passed =>
    intro c seen rest tokens _ ih trimmed single
    simpa using ih (by simpa using trimmed) single
  case drawn =>
    intro c seen x rest tokens _ _ ih trimmed single
    simpa using ih (by simpa using trimmed) single
  case grouped =>
    intro seen contents rest tokens _ groups
    cases groups
  case separated =>
    intro c seen separator word before rest tokens mem read all _ _ trimmed single
    have written := List.length_pos_iff.2 (Separation.flat_ne_nil (t := tokenizer) isWordy rfl mem)
    have whole : seen.reverse ++ c :: rest = before.reverse ++ (word ++ rest) := by
      have turned := congrArg List.reverse read
      rw [List.reverse_append, List.reverse_reverse, List.reverse_cons] at turned
      rw [← List.append_assoc, ← turned]
      simp
    rw [whole] at trimmed
    have front : 0 < (tokenizer.flat before.reverse).length := by
      cases visible : before.reverse with
      | nil =>
        -- a separator starts with a space
        obtain ⟨op, -, rfl⟩ := List.mem_map.1 mem
        rw [visible] at trimmed
        cases all with
        | cons same _ => cases eq_of_agree rfl same ▸ trimmed.start _ rfl
      | cons d front =>
        rw [visible] at trimmed
        exact List.length_pos_iff.2
          (Tokenizer.flat_ne_nil_of_mem rfl (List.mem_cons_self ..) (trimmed.start d rfl))
    have lengths := congrArg List.length single
    simp only [List.length_append, List.length_singleton] at lengths
    omega

/-- A text that is a single token and no parentheses is that token. -/
theorem eq_of_tokens_single {inner : Text} (unwrapped : unwrapped? t = none)
    (single : tokens t = [.text inner]) : inner = t := by
  have same : tokens t = tokenizer.tokenize t := by
    refine tokens_eq_tokenize fun one single => ?_
    rw [eq_of_tokenize_single trimmed single, trimmed.trim_eq]
    exact unwrapped
  exact eq_of_tokenize_single trimmed (same ▸ single)

end Chain

namespace Grammar

variable {bindings : Option Bindings} {parse : Text → Result Expr} {t : Text}
  {branches : List (Condition × Expr)} {default : Option Expr} {a : Option String}

/-- As a chain only what stands in parentheses is read as a case distinction. -/
theorem chain?_ne_case (trimmed : IsTrimmed t)
    (unwrapped : unwrapped? (Form.splitAlias t).1 = none) :
    chain? parse t ≠ .ok (some (.case branches default a)) := by
  intro read
  have inside := Form.isTrimmed_splitAlias trimmed
  cases split : Form.splitAlias t with
  | mk body alias? =>
    rw [split] at unwrapped inside
    by_cases several : 3 ≤ (Chain.tokens body).length
    · obtain ⟨operands, same⟩ := exists_of_chain? split several read
      cases same
    · obtain ⟨-, inner, single, -, -⟩ := exists_of_short split (by omega) read
      obtain rfl := Chain.eq_of_tokens_single inside unwrapped single
      rw [chain?_of_whole split single] at read
      cases read

/-- So a text that is divided by an operator is not read as a case distinction, and one that is not
has the form of one. -/
theorem exists_case?_of_expression (trimmed : IsTrimmed t.trim)
    (unwrapped : unwrapped? (Form.splitAlias t.trim).1 = none)
    (read : expression bindings parse t = .ok (.case branches default a)) :
    (Chain.tokens (Form.splitAlias t.trim).1).length < 3
      ∧ ∃ c, Form.case? t.trim = some c ∧ c.opened = c.closed := by
  cases readBy_of_expression read with
  | bound found =>
    obtain ⟨_, _, same⟩ := exists_var_of_bound? found
    cases same
  | scalar found =>
    obtain ⟨_, _, same⟩ := exists_value_of_scalar? found
    cases same
  | chain found => exact absurd found (chain?_ne_case trimmed unwrapped)
  | call _ found =>
    obtain ⟨_, _, _, _, same⟩ := exists_func_of_call? found
    cases same
  | case noChain _ found =>
    obtain ⟨c, _, _, case, both, -⟩ := exists_parts_of_case? found
    refine ⟨Nat.lt_of_not_le fun several => ?_, c, case, both⟩
    cases split : Form.splitAlias t.trim with
    | mk body alias? =>
      rw [split] at several
      obtain ⟨operands, same⟩ := exists_of_chain? split several noChain
      cases same

/-- A text with parentheses on one side only, or with no such form, is passed on. -/
theorem case?_eq_none (refused : ∀ c, Form.case? t = some c → c.opened ≠ c.closed) :
    case? bindings parse t = .ok none := by
  rw [case?]
  split
  · rfl
  · rename_i c found
    exact if_pos (refused c found)

end Grammar

namespace Parser

/-- **A case distinction ends at its own end.** Where more than an alias stands behind that, the rule
for case distinctions passes the text on, if nothing in what stands there ends one. It is not read as
one case distinction then, and neither is it if an operator with spaces of its own stands where
nothing encloses it. -/
theorem expression_ne_case {t rest : Text} (bindings : Option Bindings)
    (spans : Form.Spans t.trim rest) (more : Form.ending? rest = none) :
    (Form.lastCaseEnding? rest = none → (∃ c ∈ rest, isWord c = false) →
      (∀ parse, Grammar.case? bindings parse t.trim = .ok none)
        ∧ ∀ branches default a, expression t bindings ≠ .ok (.case branches default a))
    ∧ (Chain.IsDivided (Form.splitAlias t.trim).1 →
      ∀ branches default a, expression t bindings ≠ .ok (.case branches default a)) := by
  obtain ⟨d, w, contents, x, y, z, split, first, -, -⟩ := spans.exists_end
  have trimmed : IsTrimmed t.trim := isTrimmed_trim (by rw [split]; exact List.cons_ne_nil _ _)
  have unwrapped : unwrapped? (Form.splitAlias t.trim).1 = none := by
    rw [Option.eq_none_iff_forall_ne_some]
    intro inner unwraps
    obtain ⟨naming, whole, -⟩ := Form.exists_naming t.trim
    rw [(exists_of_unwrapped? unwraps).1, split] at whole
    obtain ⟨rfl, -⟩ := List.cons.inj whole
    simp at first
  refine ⟨fun unended mark => ?_, fun divided branches default a read => ?_⟩
  · have refused : ∀ c, Form.case? t.trim = some c → c.opened ≠ c.closed :=
      fun c found both => Form.lastCaseEnding?_of_case? spans found both trimmed.stop more mark unended
    refine ⟨fun _ => Grammar.case?_eq_none refused, fun branches default a read => ?_⟩
    obtain ⟨-, c, found, both⟩ := Grammar.exists_case?_of_expression trimmed unwrapped read
    exact refused c found both
  · obtain ⟨short, -⟩ := Grammar.exists_case?_of_expression trimmed unwrapped read
    have several := Chain.three_le_of_isDivided (Form.isTrimmed_splitAlias trimmed) divided
    omega

/-- A case distinction that is joined to a field, and one that an operator joins to another one. -/
theorem expression_ne_case_joined :
    (∀ branches default a,
      expression "CASE WHEN {a} = 1 THEN 1 END || {b}".toList none ≠ .ok (.case branches default a))
    ∧ ∀ branches default a,
      expression "CASE WHEN {a} = 1 THEN 1 END + CASE WHEN {b} = 1 THEN 2 END".toList none
        ≠ .ok (.case branches default a) := by
  have free : IsFree "CASE WHEN {a} = 1 THEN 1 END".toList.reverse
      " + CASE WHEN {b} = 1 THEN 2 END".toList :=
    @IsFree.span "SAC".toList 'E' " WHEN {a} = 1 THEN 1 END".toList _
      (.char (.char (.char (.start _) (by cbv)) (by cbv)) (by cbv)) (by cbv)
  have divided : Chain.IsDivided
      "CASE WHEN {a} = 1 THEN 1 END + CASE WHEN {b} = 1 THEN 2 END".toList :=
    ⟨.add, "CASE WHEN {a} = 1 THEN 1 END".toList, "CASE WHEN {b} = 1 THEN 2 END".toList, by cbv,
      Chain.not_endsInWord (by decide) _, free⟩
  have joined := @expression_ne_case
    "CASE WHEN {a} = 1 THEN 1 END || {b}".toList " || {b}".toList none
    ⟨"CASE".toList, " WHEN {a} = 1 THEN 1 END".toList, by cbv, by cbv, by cbv⟩ (by cbv)
  have added := @expression_ne_case
    "CASE WHEN {a} = 1 THEN 1 END + CASE WHEN {b} = 1 THEN 2 END".toList
    " + CASE WHEN {b} = 1 THEN 2 END".toList none
    ⟨"CASE".toList, " WHEN {a} = 1 THEN 1 END".toList, by cbv, by cbv, by cbv⟩ (by cbv)
  exact ⟨(joined.1 (by cbv) ⟨'|', by decide, by decide⟩).2, added.2 divided⟩

/-- Where what is behind ends in an `END` again, the text is read up to that. -/
theorem expression_of_joined_cases :
    Form.Spans "CASE WHEN {a} = 1 THEN 1 END || CASE WHEN {b} = 1 THEN 2 END".toList
        " || CASE WHEN {b} = 1 THEN 2 END".toList
      ∧ Form.ending? " || CASE WHEN {b} = 1 THEN 2 END".toList = none
      ∧ expression "CASE WHEN {a} = 1 THEN 1 END || CASE WHEN {b} = 1 THEN 2 END".toList none
        = .ok (.case
          [(.simple (.field ⟨none, "a", none⟩) .eq (.scalar (.int 1) none), .raw "1 END || CASE"),
            (.simple (.field ⟨none, "b", none⟩) .eq (.scalar (.int 1) none), .scalar (.int 2) none)]
          none none) := by
  refine ⟨⟨"CASE".toList, " WHEN {a} = 1 THEN 1 END".toList, ?_, ?_, ?_⟩, ?_, ?_⟩
  all_goals cbv

end Parser

end RecordMapper
