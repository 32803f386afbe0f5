import RecordMapper.Proofs.Text.Words
import RecordMapper.Query.Form

/-!
What the readers of forms take off a text.

A reader that succeeds has split the text into parts: a word or a run of blanks and the rest, the
names of a field reference and what stands behind it, a literal and its end. An alias that was read
stands at the end of the text, behind blanks, the word `AS` and blanks again (`Form.IsNaming`). So
there is nothing in it but blanks and word characters (`Form.IsNaming.mem`), and in front of it
stands what is left when it is split off (`Form.exists_of_splitAlias`).
-/

namespace RecordMapper.Form

open Text

variable {t rest : Text}

/-! ### Words and blanks -/

theorem exists_of_word? {word : Text} (found : word? t = some (word, rest)) :
    IsName word ∧ t = word ++ rest := by
  rw [word?] at found
  split at found
  · cases found
  · rename_i nonempty
    obtain ⟨rfl, rfl⟩ := Prod.mk.inj (Option.some.inj found)
    refine ⟨⟨?_, fun c => List.mem_takeWhile_imp⟩, List.takeWhile_append_dropWhile.symm⟩
    simpa [List.isEmpty_iff] using nonempty

/-- At least one blank and nothing else. -/
def IsBlanks (t : Text) : Prop :=
  t ≠ [] ∧ ∀ c ∈ t, isBlank c = true

theorem exists_of_afterBlanks? (found : afterBlanks? t = some rest) :
    ∃ blanks, t = blanks ++ rest ∧ IsBlanks blanks ∧ ∀ c ∈ rest.head?, isBlank c = false := by
  cases t with
  | nil => cases found
  | cons c t =>
    rw [afterBlanks?] at found
    split at found
    · rename_i blank
      obtain rfl := Option.some.inj found
      refine ⟨c :: t.takeWhile isBlank, ?_, ⟨List.cons_ne_nil _ _, ?_⟩, trimStart_start t⟩
      · rw [List.cons_append, trimStart, List.takeWhile_append_dropWhile]
      · exact List.forall_mem_cons.2 ⟨blank, fun d => List.mem_takeWhile_imp⟩
    · cases found

/-- The word as it is written, in any letters that keywords are recognized in. -/
def IsWritten (word x : Text) : Prop :=
  x.map fold = word.map fold

theorem exists_of_afterWord? {word : Text} (found : afterWord? word t = some rest) :
    ∃ x, t = x ++ rest ∧ IsWritten word x := by
  induction word generalizing t with
  | nil => exact ⟨[], Option.some.inj found, rfl⟩
  | cons a word ih =>
    cases t with
    | nil => cases found
    | cons b t =>
      rw [afterWord?] at found
      split at found
      · rename_i same
        obtain ⟨x, rfl, written⟩ := ih found
        exact ⟨b :: x, rfl, List.cons_eq_cons.2 ⟨same.symm, written⟩⟩
      · cases found

theorem afterWord?_of_written {word x : Text} (written : IsWritten word x) (rest : Text) :
    afterWord? word (x ++ rest) = some rest := by
  induction word generalizing x with
  | nil =>
    obtain rfl := List.map_eq_nil_iff.1 written
    rfl
  | cons a word ih =>
    obtain ⟨c, y, rfl, same, more⟩ := List.map_eq_cons_iff.1 written
    rw [List.cons_append, afterWord?, if_pos same.symm]
    exact ih more

theorem IsWritten.length_eq {word x : Text} (written : IsWritten word x) :
    x.length = word.length := by
  simpa using congrArg List.length written

/-- Apart from the long s, letters are taken for the same as elsewhere. -/
theorem agree_of_fold {a c : Char} (letter : a.isAlpha = true) (same : fold c = fold a) :
    agree true a c = true ∨ c = 'ſ' ∧ fold a = 's' := by
  by_cases long : c = 'ſ'
  · rw [← same, long]
    exact .inr ⟨rfl, rfl⟩
  · have short : a ≠ 'ſ' := by
      rintro rfl
      cases letter
    rw [fold, fold, if_neg long, if_neg short] at same
    exact .inl (by simp [agree, same])

theorem isWord_of_fold {a c : Char} (letter : a.isAlpha = true) (same : fold c = fold a) :
    isWord c = true := by
  rcases agree_of_fold letter same with agrees | ⟨rfl, -⟩
  · exact isWord_of_isAsciiWord (isAsciiWord_of_agree letter agrees)
  · decide

/-- A keyword without an S is written in the same letters as elsewhere. -/
theorem IsWritten.sameLetters {word x : Text} (written : IsWritten word x)
    (letters : ∀ a ∈ word, a.isAlpha = true) (other : ∀ a ∈ word, fold a ≠ 's') :
    Text.sameLetters word x = true := by
  rw [sameLetters_iff]
  induction word generalizing x with
  | nil =>
    obtain rfl := List.map_eq_nil_iff.1 written
    exact .nil
  | cons a word ih =>
    obtain ⟨letter, letters⟩ := List.forall_mem_cons.1 letters
    obtain ⟨short, other⟩ := List.forall_mem_cons.1 other
    obtain ⟨c, y, rfl, same, more⟩ := List.map_eq_cons_iff.1 written
    refine .cons ?_ (ih more letters other)
    exact (agree_of_fold letter same).resolve_right fun long => short long.2

/-- A keyword consists of word characters, however it is written. -/
theorem IsWritten.isWord {word x : Text} (written : IsWritten word x)
    (letters : ∀ a ∈ word, a.isAlpha = true) : ∀ c ∈ x, Text.isWord c = true := by
  intro c mem
  have folded : fold c ∈ word.map fold := written ▸ List.mem_map_of_mem mem
  obtain ⟨a, member, same⟩ := List.mem_map.1 folded
  exact isWord_of_fold (letters a member) same.symm

theorem IsWritten.isBlank {word x : Text} (written : IsWritten word x)
    (letters : ∀ a ∈ word, a.isAlpha = true) : ∀ c ∈ x, Text.isBlank c = false := by
  intro c mem
  cases blank : Text.isBlank c with
  | false => rfl
  | true =>
    have word := written.isWord letters c mem
    rw [isWord_of_isBlank blank] at word
    cases word

/-- A keyword starts and ends with a word character, however it is written. -/
theorem IsWritten.exists_ends {word x : Text} (written : IsWritten word x)
    (letters : ∀ a ∈ word, a.isAlpha = true) (nonempty : word ≠ []) :
    (∃ d y, x = d :: y ∧ Text.isWord d = true) ∧ ∃ y d, x = y ++ [d] ∧ Text.isWord d = true := by
  have all := written.isWord letters
  have same := written.length_eq
  have length := List.length_pos_iff.2 nonempty
  constructor
  · cases x with
    | nil =>
      rw [List.length_nil] at same
      omega
    | cons d y => exact ⟨d, y, rfl, all d (List.mem_cons_self ..)⟩
  · rcases List.eq_nil_or_concat x with rfl | ⟨y, d, rfl⟩
    · rw [List.length_nil] at same
      omega
    · exact ⟨y, d, List.concat_eq_append, all d (by simp)⟩

/-! ### Aliases -/

/-- The text is an alias as it is written behind what has this name. -/
def IsNaming (naming name : Text) : Prop :=
  ∃ front word back, naming = front ++ (word ++ (back ++ name)) ∧ IsBlanks front
    ∧ IsWritten ['A', 'S'] word ∧ IsBlanks back ∧ IsName name

theorem letters_asKeyword : ∀ a ∈ ['A', 'S'], a.isAlpha = true := by
  simp

/-- An alias is written with nothing but blanks and word characters. -/
theorem IsNaming.mem {naming name : Text} (named : IsNaming naming name) :
    ∀ c ∈ naming, isBlank c = true ∨ isWord c = true := by
  obtain ⟨front, word, back, rfl, blank, written, blank', isName⟩ := named
  simp only [List.forall_mem_append]
  exact ⟨fun c mem => .inl (blank.2 c mem), fun c mem => .inr (written.isWord letters_asKeyword c mem),
    fun c mem => .inl (blank'.2 c mem), fun c mem => .inr (isName.2 c mem)⟩

/-- The text ends in an alias that starts with an ASCII letter or underscore. -/
def EndsNamed (t : Text) : Prop :=
  ∃ body naming name, t = body ++ naming ∧ IsNaming naming name ∧ IsCallName name

/-- A text that ends in no word ends in no alias. -/
theorem not_endsNamed_of_mark {c : Char} (other : Text.isWord c = false) (front : Text) :
    ¬ EndsNamed (front ++ [c]) := by
  rintro ⟨body, naming, name, whole, ⟨x, word, y, rfl, -, -, -, isName⟩, -⟩
  obtain ⟨init, d, rfl⟩ := (List.eq_nil_or_concat name).resolve_left isName.1
  rw [List.concat_eq_append] at whole isName
  have last : c = d := by
    have split : body ++ (x ++ (word ++ (y ++ (init ++ [d]))))
        = body ++ (x ++ (word ++ (y ++ init))) ++ [d] := by simp
    rw [split] at whole
    exact List.singleton_inj.1 (List.append_inj_right' whole rfl)
  subst last
  rw [isName.2 c (by simp)] at other
  cases other

/-- **The end of an expression is nothing or an alias.** -/
theorem exists_of_ending? {a : Option String} (found : ending? t = some a) :
    t = [] ∧ a = none ∨ ∃ name, a = some (String.ofList name) ∧ IsNaming t name := by
  cases t with
  | nil =>
    cases found
    exact .inl ⟨rfl, rfl⟩
  | cons c t =>
    rw [ending?.eq_def] at found
    obtain ⟨keyword, blanks, found⟩ := Option.bind_eq_some_iff.1 found
    obtain ⟨behind, named, found⟩ := Option.bind_eq_some_iff.1 found
    obtain ⟨name, more, found⟩ := Option.bind_eq_some_iff.1 found
    obtain ⟨⟨word, rest⟩, read, last⟩ := Option.bind_eq_some_iff.1 found
    obtain ⟨front, same, blank, -⟩ := exists_of_afterBlanks? blanks
    obtain ⟨y, rfl, written⟩ := exists_of_afterWord? named
    obtain ⟨back, rfl, blank', -⟩ := exists_of_afterBlanks? more
    obtain ⟨isName, rfl⟩ := exists_of_word? read
    obtain ⟨empty, result⟩ := Option.ite_none_right_eq_some.1 last
    obtain rfl := List.isEmpty_iff.1 empty
    cases result
    rw [List.append_nil] at same
    exact .inr ⟨word, rfl, front, y, back, same, blank, written, blank', isName⟩

theorem mem_of_ending? {a : Option String} (found : ending? t = some a) :
    ∀ c ∈ t, isBlank c = true ∨ isWord c = true := by
  rcases exists_of_ending? found with ⟨rfl, -⟩ | ⟨name, -, named⟩
  · exact nofun
  · exact named.mem

/-- **An alias that is split off a chain stands behind what is left**, which does not end in a
blank, and it starts with an ASCII letter or underscore. -/
theorem exists_of_splitAlias {body name : Text} (found : splitAlias t = (body, some name)) :
    IsCallName name ∧ body ≠ [] ∧ (∀ c ∈ body.getLast?, isBlank c = false)
      ∧ ∃ naming, IsNaming naming name ∧ t = body ++ naming := by
  have either : ∀ split : Option (Text × Option Text), split.getD (t, none) = (body, some name) →
      split = some (body, some name) := by
    rintro (_ | split) same
    · cases same
    · exact congrArg some same
  rw [splitAlias] at found
  obtain ⟨⟨word, rest⟩, read, more⟩ := Option.bind_eq_some_iff.1 (either _ found)
  obtain ⟨first, last, more⟩ := Option.bind_eq_some_iff.1 more
  dsimp only at more
  split at more
  · rename_i start
    obtain ⟨keyword, blanks, more⟩ := Option.bind_eq_some_iff.1 more
    obtain ⟨behind, named, more⟩ := Option.bind_eq_some_iff.1 more
    obtain ⟨front, blanks', split⟩ := Option.bind_eq_some_iff.1 more
    obtain ⟨isName, reversed⟩ := exists_of_word? read
    obtain ⟨x, rfl, blank, -⟩ := exists_of_afterBlanks? blanks
    obtain ⟨y, rfl, written⟩ := exists_of_afterWord? named
    obtain ⟨z, rfl, blank', stop⟩ := exists_of_afterBlanks? blanks'
    obtain ⟨nonempty, same⟩ := Option.ite_none_left_eq_some.1 split
    cases same
    have turned : ∀ {x : Text}, IsBlanks x → IsBlanks x.reverse := by
      intro x blank
      exact ⟨fun empty => blank.1 (List.reverse_eq_nil_iff.1 empty),
        fun c mem => blank.2 c (List.mem_reverse.1 mem)⟩
    have isName' : IsName word.reverse :=
      ⟨fun empty => isName.1 (List.reverse_eq_nil_iff.1 empty),
        fun c mem => isName.2 c (List.mem_reverse.1 mem)⟩
    have written' : IsWritten ['A', 'S'] y.reverse := by
      have turned := congrArg List.reverse written
      rwa [← List.map_reverse, ← List.map_reverse] at turned
    refine ⟨⟨isName', fun c head => ?_⟩, ?_, ?_, z.reverse ++ (y.reverse ++ (x.reverse ++ word.reverse)),
      ⟨_, _, _, rfl, turned blank', written', turned blank, isName'⟩, ?_⟩
    · rw [List.head?_reverse, last] at head
      cases head
      exact start
    · simpa using nonempty
    · rwa [List.getLast?_reverse]
    · rw [← List.reverse_reverse t, reversed]
      simp
  · cases more

theorem splitAlias_eq_of_none {body : Text} (found : splitAlias t = (body, none)) : body = t := by
  rw [splitAlias] at found
  generalize read : (word? t.reverse >>= _) = split at found
  cases split with
  | none => exact (Prod.mk.inj found).1.symm
  | some split =>
    obtain rfl : split = (body, none) := found
    obtain ⟨⟨word, rest⟩, -, more⟩ := Option.bind_eq_some_iff.1 read
    obtain ⟨first, -, more⟩ := Option.bind_eq_some_iff.1 more
    dsimp only at more
    split at more
    · obtain ⟨keyword, -, more⟩ := Option.bind_eq_some_iff.1 more
      obtain ⟨behind, -, more⟩ := Option.bind_eq_some_iff.1 more
      obtain ⟨front, -, last⟩ := Option.bind_eq_some_iff.1 more
      cases (Option.ite_none_left_eq_some.1 last).2
    · cases more

/-! ### Field references -/

theorem exists_of_field? {ref : FieldRef} (found : field? t = some ref) :
    ∃ tail, ending? tail = some ref.aliasName
      ∧ ((∃ name, IsName name ∧ t = '\x7b' :: (name ++ '\x7d' :: tail))
        ∨ ∃ table name, IsName table ∧ IsName name
          ∧ t = '\x7b' :: (table ++ '.' :: (name ++ '\x7d' :: tail))
          ∧ ref.table = some (String.ofList table) ∧ ref.name = String.ofList name) := by
  rw [field?.eq_def] at found
  split at found
  · obtain ⟨⟨first, rest⟩, read, parts⟩ := Option.bind_eq_some_iff.1 found
    obtain ⟨isName, rfl⟩ := exists_of_word? read
    dsimp only at parts
    split at parts
    · rename_i tail
      obtain ⟨a, ending, same⟩ := Option.bind_eq_some_iff.1 parts
      cases same
      exact ⟨tail, ending, .inl ⟨first, isName, rfl⟩⟩
    · obtain ⟨⟨second, rest⟩, read', more⟩ := Option.bind_eq_some_iff.1 parts
      obtain ⟨isName', rfl⟩ := exists_of_word? read'
      dsimp only at more
      split at more
      · rename_i tail
        obtain ⟨a, ending, same⟩ := Option.bind_eq_some_iff.1 more
        cases same
        exact ⟨tail, ending, .inr ⟨first, second, isName, isName', rfl, rfl, rfl⟩⟩
      · cases more
    · cases parts
  · cases found

/-! ### Literals -/

/-- At least one digit of any script, and nothing else. -/
def AreDigits (t : Text) : Prop :=
  t ≠ [] ∧ ∀ c ∈ t, Text.isDigit c = true

theorem exists_of_digits? {digits : Text} (found : digits? t = some (digits, rest)) :
    t = digits ++ rest ∧ AreDigits digits := by
  rw [digits?] at found
  split at found
  · cases found
  · rename_i nonempty
    obtain ⟨rfl, rfl⟩ := Prod.mk.inj (Option.some.inj found)
    refine ⟨List.takeWhile_append_dropWhile.symm, ?_, fun c => List.mem_takeWhile_imp⟩
    simpa [List.isEmpty_iff] using nonempty

/-- Digits of any script with an optional fraction. -/
inductive IsNumeral : Text → Prop
  | whole {w : Text} (digits : AreDigits w) : IsNumeral w
  | fraction {w f : Text} (digits : AreDigits w) (digits' : AreDigits f) :
    IsNumeral (w ++ '.' :: f)

theorem IsNumeral.chars {number : Text} (numeral : IsNumeral number) :
    ∀ c ∈ number, Text.isDigit c = true ∨ c = '.' := by
  cases numeral with
  | whole digits => exact fun c mem => .inl (digits.2 c mem)
  | fraction digits digits' =>
    refine List.forall_mem_append.2 ⟨fun c mem => .inl (digits.2 c mem), ?_⟩
    exact List.forall_mem_cons.2 ⟨.inr rfl, fun c mem => .inl (digits'.2 c mem)⟩

theorem exists_of_unsigned? {number : Text} (found : unsigned? t = some (number, rest)) :
    t = number ++ rest ∧ IsNumeral number := by
  obtain ⟨⟨whole, behind⟩, read, more⟩ := Option.bind_eq_some_iff.1 found
  obtain ⟨rfl, digits⟩ := exists_of_digits? read
  dsimp only at more
  split at more
  · rename_i tail
    split at more
    · rename_i fraction tail' read'
      obtain ⟨rfl, rfl⟩ := Prod.mk.inj (Option.some.inj more)
      obtain ⟨rfl, digits'⟩ := exists_of_digits? read'
      exact ⟨by simp, .fraction digits digits'⟩
    · obtain ⟨rfl, rfl⟩ := Prod.mk.inj (Option.some.inj more)
      exact ⟨rfl, .whole digits⟩
  · obtain ⟨rfl, rfl⟩ := Prod.mk.inj (Option.some.inj more)
    exact ⟨rfl, .whole digits⟩

/-- A literal is a number, perhaps with a sign, or stands between quotes, and its end follows. -/
theorem exists_of_literal? {l : Literal} {a : Option String} (found : literal? t = some (l, a)) :
    ∃ tail, ending? tail = some a
      ∧ ((∃ sign number, l = .number (sign ++ number) ∧ (sign = [] ∨ sign = ['-'])
          ∧ IsNumeral number ∧ t = sign ++ (number ++ tail))
        ∨ ∃ contents behind, l = .string contents ∧ t = '"' :: behind
          ∧ Text.literal? behind = some (contents, tail)) := by
  obtain ⟨⟨l', tail⟩, start, more⟩ := Option.bind_eq_some_iff.1 found
  obtain ⟨a', ending, same⟩ := Option.bind_eq_some_iff.1 more
  cases same
  refine ⟨tail, ending, ?_⟩
  unfold literalStart? at start
  split at start
  · rename_i behind
    obtain ⟨⟨contents, rest'⟩, read, pair⟩ := Option.map_eq_some_iff.1 start
    cases pair
    exact .inr ⟨contents, behind, rfl, rfl, read⟩
  · obtain ⟨⟨number, rest'⟩, read, pair⟩ := Option.map_eq_some_iff.1 start
    cases pair
    obtain ⟨rfl, numeral⟩ := exists_of_unsigned? read
    exact .inl ⟨['-'], number, rfl, .inr rfl, numeral, rfl⟩
  · obtain ⟨⟨number, rest'⟩, read, pair⟩ := Option.map_eq_some_iff.1 start
    cases pair
    obtain ⟨rfl, numeral⟩ := exists_of_unsigned? read
    exact .inl ⟨[], number, rfl, .inl rfl, numeral, rfl⟩

/-! ### Calls -/

/-- A call is a name and parentheses behind it, and its end follows. -/
theorem exists_of_call? {call : Call} (found : call? t = some call) :
    ∃ name gap behind tail, t = name ++ (gap ++ '(' :: behind) ∧ IsCallName name
      ∧ call.name = String.ofList name ∧ (∀ c ∈ gap, isBlank c = true)
      ∧ closing? behind = some (call.arguments, tail) ∧ ending? tail = some call.aliasName := by
  obtain ⟨⟨name, rest⟩, read, more⟩ := Option.bind_eq_some_iff.1 found
  obtain ⟨first, head, more⟩ := Option.bind_eq_some_iff.1 more
  obtain ⟨start, more⟩ := Option.ite_none_right_eq_some.1 more
  obtain ⟨isName, rfl⟩ := exists_of_word? read
  dsimp only at more
  split at more
  · rename_i behind opened
    obtain ⟨⟨arguments, tail⟩, closed, more⟩ := Option.bind_eq_some_iff.1 more
    obtain ⟨a, ending, same⟩ := Option.bind_eq_some_iff.1 more
    cases same
    refine ⟨name, rest.takeWhile isBlank, behind, tail, ?_, ⟨isName, fun c mem => ?_⟩, rfl,
      fun c => List.mem_takeWhile_imp, closed, ending⟩
    · rw [← opened, trimStart, List.takeWhile_append_dropWhile]
    · rw [head] at mem
      cases mem
      exact start
  · cases more

/-! ### Case distinctions -/

/-- Reads a case distinction, once it is known whether a parenthesis stands before it. -/
def caseBehind? (opened : Bool) (t : Text) : Option Case :=
  (afterWord? caseKeyword (Text.trimStart t)).bind fun t =>
    (lastCaseEnding? t).bind fun (front, closed, a) =>
      if (t.takeWhile isBlank).isEmpty || front.isEmpty then none
      else some ⟨opened, front.drop (t.takeWhile isBlank).length, closed, a⟩

theorem case?_unopened {t : Text} (other : ∀ rest, t ≠ '(' :: rest) :
    case? t = caseBehind? false t := by
  rw [case?.eq_def]
  split
  rename_i split
  split at split
  · rename_i rest
    exact absurd rfl (other rest)
  · cases split
    rfl

/-- Reads what stands behind `END`: nothing, a parenthesis and perhaps an alias, or an alias. -/
def behindEnding? (rest : Text) : Option (Bool × Option String) :=
  match Text.trimStart rest with
  | [] => some (false, none)
  | ')' :: behind => (ending? behind).map fun a => (true, a)
  | _ => (ending? rest).map fun a => (false, a)

theorem caseEnding?_cons {b : Char} (blank : isBlank b = true) (t : Text) :
    caseEnding? (b :: t) = (afterWord? endKeyword t).bind behindEnding? := by
  rw [caseEnding?, if_pos blank]
  rfl

theorem caseEnding?_visible {c : Char} (visible : isBlank c = false) (t : Text) :
    caseEnding? (c :: t) = none := by
  rw [caseEnding?, visible, if_neg Bool.false_ne_true]
  rfl

theorem lastCaseEnding?_later {t front : Text} {ending : Bool × Option String}
    (found : lastCaseEnding? t = some (front, ending)) (x : Text) :
    lastCaseEnding? (x ++ t) = some (x ++ front, ending) := by
  induction x with
  | nil => exact found
  | cons c x ih => rw [List.cons_append, lastCaseEnding?, ih, List.cons_append]

theorem lastCaseEnding?_missed {x t : Text} (none : lastCaseEnding? t = none)
    (missed : ∀ front back, x = front ++ back → back ≠ [] → caseEnding? (back ++ t) = .none) :
    lastCaseEnding? (x ++ t) = .none := by
  induction x with
  | nil => exact none
  | cons c x ih =>
    have behind := ih fun front back split nonempty =>
      missed (c :: front) back (by rw [split, List.cons_append]) nonempty
    have here := missed [] (c :: x) rfl nofun
    rw [List.cons_append] at here
    rw [List.cons_append, lastCaseEnding?, behind, here]
    rfl

/-- No case distinction ends in what holds no blank. -/
theorem lastCaseEnding?_visible {x : Text} (visible : ∀ d ∈ x, isBlank d = false)
    (later : lastCaseEnding? t = none) : lastCaseEnding? (x ++ t) = none := by
  refine lastCaseEnding?_missed later fun front back split nonempty => ?_
  obtain ⟨d, back, rfl⟩ := List.exists_cons_of_ne_nil nonempty
  exact caseEnding?_visible (visible d (by simp [split])) _

/-- A case distinction ends with `END` behind a blank, and behind that come blanks or an alias,
perhaps behind a parenthesis. -/
theorem exists_of_caseEnding? {closed : Bool} {a : Option String}
    (found : caseEnding? t = some (closed, a)) :
    ∃ c word rest, t = c :: (word ++ rest) ∧ isBlank c = true ∧ IsWritten endKeyword word
      ∧ (closed = false ∧ (a = none ∧ (∀ d ∈ rest, isBlank d = true) ∨ ending? rest = some a)
        ∨ closed = true ∧ ∃ gap behind, rest = gap ++ ')' :: behind
          ∧ (∀ d ∈ gap, isBlank d = true) ∧ ending? behind = some a) := by
  cases t with
  | nil => cases found
  | cons c t =>
    rw [caseEnding?] at found
    dsimp only at found
    split at found
    · rename_i blank
      obtain ⟨rest, keyword, more⟩ := Option.bind_eq_some_iff.1 found
      obtain ⟨word, rfl, written⟩ := exists_of_afterWord? keyword
      refine ⟨c, word, rest, rfl, blank, written, ?_⟩
      split at more
      · rename_i nothing
        cases more
        exact .inl ⟨rfl, .inl ⟨rfl, List.dropWhile_eq_nil_iff.1 nothing⟩⟩
      · rename_i behind close
        obtain ⟨a', ending, same⟩ := Option.map_eq_some_iff.1 more
        cases same
        refine .inr ⟨rfl, rest.takeWhile isBlank, behind, ?_, fun d => List.mem_takeWhile_imp,
          ending⟩
        rw [← close, trimStart, List.takeWhile_append_dropWhile]
      · obtain ⟨a', ending, same⟩ := Option.map_eq_some_iff.1 more
        cases same
        exact .inl ⟨rfl, .inr ending⟩
    · cases found

theorem exists_of_lastCaseEnding? {front : Text} {ending : Bool × Option String}
    (found : lastCaseEnding? t = some (front, ending)) :
    ∃ tail, t = front ++ tail ∧ caseEnding? tail = some ending := by
  induction t generalizing front with
  | nil => cases found
  | cons c t ih =>
    rw [lastCaseEnding?] at found
    split at found
    · rename_i front' ending' later
      obtain ⟨rfl, rfl⟩ := Prod.mk.inj (Option.some.inj found)
      obtain ⟨tail, rfl, here⟩ := ih later
      exact ⟨tail, rfl, here⟩
    · obtain ⟨ending', here, same⟩ := Option.map_eq_some_iff.1 found
      obtain ⟨rfl, rfl⟩ := Prod.mk.inj same
      exact ⟨c :: t, rfl, here⟩

/-- The blanks at the start of a text are those of its front, unless that is blank as a whole. -/
theorem drop_takeWhile_append (front tail : Text) :
    front.drop ((front ++ tail).takeWhile isBlank).length = trimStart front := by
  have split := List.takeWhile_append_dropWhile (p := isBlank) (l := front)
  rw [List.takeWhile_append, trimStart]
  split
  · rename_i all
    have none : front.dropWhile isBlank = [] := by
      have lengths := congrArg List.length split
      rw [List.length_append] at lengths
      exact List.length_eq_zero_iff.1 (by omega)
    rw [none, List.drop_eq_nil_iff, List.length_append]
    exact Nat.le_add_right ..
  · calc front.drop (front.takeWhile isBlank).length
        = (front.takeWhile isBlank ++ front.dropWhile isBlank).drop
            (front.takeWhile isBlank).length := by rw [split]
      _ = front.dropWhile isBlank := List.drop_left

/-- **A case distinction is the word `CASE`, blanks, the body and the end**, perhaps behind a
parenthesis. -/
theorem exists_of_case? {c : Case} (found : case? t = some c) :
    ∃ lead word gap tail, t = (if c.opened then ['('] else [])
        ++ (lead ++ (word ++ (gap ++ (c.body ++ tail))))
      ∧ (∀ d ∈ lead, isBlank d = true) ∧ IsWritten caseKeyword word ∧ IsBlanks gap
      ∧ (∀ d ∈ c.body.head?, isBlank d = false)
      ∧ caseEnding? tail = some (c.closed, c.aliasName) := by
  rw [case?.eq_def] at found
  split at found
  rename_i opened behind split
  obtain ⟨rest, keyword, more⟩ := Option.bind_eq_some_iff.1 found
  obtain ⟨⟨front, closed, a⟩, ending, last⟩ := Option.bind_eq_some_iff.1 more
  obtain ⟨solid, same⟩ := Option.ite_none_left_eq_some.1 last
  cases same
  obtain ⟨word, begun, written⟩ := exists_of_afterWord? keyword
  obtain ⟨tail, rfl, here⟩ := exists_of_lastCaseEnding? ending
  rw [drop_takeWhile_append]
  have whole : behind = behind.takeWhile isBlank ++ (word ++ (front ++ tail)) := by
    rw [← begun, trimStart, List.takeWhile_append_dropWhile]
  have start : t = (if opened then ['('] else []) ++ behind := by
    split at split
    · cases split
      rfl
    · cases split
      rfl
  refine ⟨behind.takeWhile isBlank, word, front.takeWhile isBlank, tail, ?_,
    fun d => List.mem_takeWhile_imp, written, ⟨fun none => solid ?_, fun d => List.mem_takeWhile_imp⟩,
    trimStart_start front, here⟩
  · rw [← List.append_assoc (front.takeWhile isBlank), trimStart,
      List.takeWhile_append_dropWhile, ← whole, start]
  · cases front with
    | nil => simp
    | cons d front =>
      have other : isBlank d = false := by
        cases blank : isBlank d with
        | true => simp [blank] at none
        | false => rfl
      simp [other]

end RecordMapper.Form
