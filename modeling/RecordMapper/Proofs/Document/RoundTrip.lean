import Mathlib.Data.Char
import RecordMapper.Document.Reading
import RecordMapper.Proofs.Document.Printing
import RecordMapper.Proofs.Text.Basic

/-!
Documents are read back from their text.

The reader is a machine over characters whose lexemes feed a machine over documents. `resume` runs
both from any of their states, and every lemma here says what it does with one more piece of text:
with a character inside a lexeme (`resume_silent`), with a lexeme (`resume_number`, `resume_word`,
`resume_string`, `resume_sign`) and with a whole document (`resume_print`), which is settled into
what is open. `read?_print` is the result.
-/

namespace RecordMapper.Document

variable {frames : List Frame} {expect : Expect}

/-! ### Running both machines -/

/-- Reads on from a state of both machines. -/
def resume (frames : List Frame) (expect : Expect) (state : LexState) (t : Text) :
    Option Document :=
  (lexemes state t).bind fun found => assemble frames expect found

/-- Takes one lexeme, and reads on between lexemes. -/
def resumeAfter (frames : List Frame) (expect : Expect) (l : Lexeme) (t : Text) :
    Option Document :=
  (build frames expect l).bind fun s => resume s.1 s.2 .between t

/-- Settles a document into what is open, and reads on between lexemes. -/
def resumeSettled (frames : List Frame) (d : Document) (t : Text) : Option Document :=
  (settle d frames).bind fun s => resume s.1 s.2 .between t

theorem lexemes_cons (state : LexState) (c : Char) (t : Text) :
    lexemes state (c :: t)
      = (step state c).bind fun s => (lexemes s.2 t).bind fun rest => some (s.1 ++ rest) :=
  rfl

theorem assemble_cons (l : Lexeme) (rest : List Lexeme) :
    assemble frames expect (l :: rest)
      = (build frames expect l).bind fun s => assemble s.1 s.2 rest := by
  rw [assemble]
  rfl

/-- A character inside a lexeme changes the state of the first machine only. -/
theorem resume_silent {state next : LexState} {c : Char} (inside : step state c = some ([], next))
    (t : Text) : resume frames expect state (c :: t) = resume frames expect next t := by
  simp [resume, lexemes, inside]

/-- A character that completes a lexeme hands it to the second machine. -/
theorem resume_found {state next : LexState} {c : Char} {l : Lexeme}
    (found : step state c = some ([l], next)) (t : Text) :
    resume frames expect state (c :: t)
      = (build frames expect l).bind fun s => resume s.1 s.2 next t := by
  simp only [resume, lexemes, found, Option.bind_eq_bind, Option.bind_some]
  cases lexemes next t with
  | none => simp
  | some rest => exact assemble_cons l rest

/-- A character that does not belong to a lexeme ends it, and is read after it. -/
theorem resume_ended {state : LexState} {c : Char} {l : Lexeme} (ended : finish state = some [l])
    (outside : step state c = finishAt state c) (t : Text) :
    resume frames expect state (c :: t) = resumeAfter frames expect l (c :: t) := by
  have between : step .between c = start c := rfl
  simp only [resumeAfter, resume, lexemes_cons, outside, finishAt, ended, between]
  cases start c with
  | none => simp
  | some s =>
    simp only [Option.bind_eq_bind, Option.bind_some, List.singleton_append]
    cases lexemes s.2 t with
    | none => simp
    | some rest => exact assemble_cons l (s.1 ++ rest)

/-- The end of the text ends a lexeme. -/
theorem resume_end {state : LexState} {l : Lexeme} (ended : finish state = some [l]) :
    resume frames expect state [] = resumeAfter frames expect l [] := by
  simp only [resumeAfter, resume, lexemes, ended, Option.bind_some]
  exact assemble_cons l []

/-- Signs are lexemes by themselves. -/
theorem resume_sign {c : Char} (sign : isSign c = true) (t : Text) :
    resume frames expect .between (c :: t) = resumeAfter frames expect (.sign c) t := by
  have gap : isGap c = false := by
    simp only [isSign, List.contains_eq_mem, List.mem_cons, List.not_mem_nil, or_false,
      decide_eq_true_eq] at sign
    rcases sign with rfl | rfl | rfl | rfl | rfl | rfl <;> rfl
  have found : step .between c = some ([.sign c], .between) := by
    simp [step, start, gap, sign]
  exact resume_found found t

/-! ### Numbers and words

A number or a word is ended by what follows it, which is a sign or the end of the text. -/

/-- The text starts with a sign if it is not empty. -/
def Apart (t : Text) : Prop :=
  ∀ c ∈ t.head?, isSign c = true

theorem apart_nil : Apart [] := by
  intro c head
  cases head

theorem apart_cons {c : Char} (sign : isSign c = true) (t : Text) : Apart (c :: t) := by
  intro d head
  cases head
  exact sign

/-- Signs belong to no number and to no word. -/
theorem outside_of_isSign {c : Char} (sign : isSign c = true) :
    isNumeric c = false ∧ c.isAlpha = false := by
  simp only [isSign, List.contains_eq_mem, List.mem_cons, List.not_mem_nil, or_false,
    decide_eq_true_eq] at sign
  rcases sign with rfl | rfl | rfl | rfl | rfl | rfl <;> exact ⟨rfl, rfl⟩

/-- What follows a complete lexeme that nothing closes is read after it. -/
theorem resume_finished {state : LexState} {l : Lexeme} (ended : finish state = some [l])
    (outside : ∀ c, isSign c = true → step state c = finishAt state c) {t : Text}
    (apart : Apart t) :
    resume frames expect state t = resumeAfter frames expect l t := by
  cases t with
  | nil => exact resume_end ended
  | cons c t => exact resume_ended ended (outside c (apart c rfl)) t

/-- The characters of a number are collected. -/
theorem resume_number_append {t : Text} (numeric : ∀ c ∈ t, isNumeric c = true) (seen rest : Text) :
    resume frames expect (.number seen) (t ++ rest)
      = resume frames expect (.number (t.reverse ++ seen)) rest := by
  induction t generalizing seen with
  | nil => rfl
  | cons c t ih =>
    have inside : step (.number seen) c = some ([], .number (c :: seen)) := by
      simp [step, numeric c (List.mem_cons_self ..)]
    rw [List.cons_append, resume_silent inside,
      ih (fun d mem => numeric d (List.mem_cons_of_mem _ mem)), List.reverse_cons,
      List.append_assoc, List.singleton_append]

/-- The letters of a word are collected. -/
theorem resume_word_append {t : Text} (letters : ∀ c ∈ t, c.isAlpha = true) (seen rest : Text) :
    resume frames expect (.word seen) (t ++ rest)
      = resume frames expect (.word (t.reverse ++ seen)) rest := by
  induction t generalizing seen with
  | nil => rfl
  | cons c t ih =>
    have inside : step (.word seen) c = some ([], .word (c :: seen)) := by
      simp [step, letters c (List.mem_cons_self ..)]
    rw [List.cons_append, resume_silent inside,
      ih (fun d mem => letters d (List.mem_cons_of_mem _ mem)), List.reverse_cons,
      List.append_assoc, List.singleton_append]

/-- Digits are read up to the first character that is none. -/
theorem digits?_append {digits : Text} (all : Text.IsDigits digits) (rest : Text)
    (stop : ∀ c ∈ rest.head?, c.isDigit = false) :
    digits? (digits ++ rest) = some (digits, rest) := by
  obtain ⟨nonempty, all⟩ := all
  have none_left : rest.takeWhile Char.isDigit = [] ∧ rest.dropWhile Char.isDigit = rest := by
    cases rest with
    | nil => exact ⟨rfl, rfl⟩
    | cons c rest => simp [stop c rfl]
  have taken : (digits ++ rest).takeWhile Char.isDigit = digits := by
    rw [List.takeWhile_append_of_pos all, none_left.1, List.append_nil]
  have left : (digits ++ rest).dropWhile Char.isDigit = rest := by
    rw [List.dropWhile_append_of_pos all, none_left.2]
  simp [digits?, taken, left, nonempty]

theorem exponent?_print {exponent : Option (Bool × Text)}
    (digits : ∀ e ∈ exponent, Text.IsDigits e.2) :
    exponent? (Numeral.printExponent exponent) = some exponent := by
  match exponent with
  | none => rfl
  | some (true, t) =>
    have read := digits?_append (digits (true, t) rfl) [] (by simp)
    rw [List.append_nil] at read
    simp [Numeral.printExponent, exponent?, read]
  | some (false, t) =>
    have read := digits?_append (digits (false, t) rfl) [] (by simp)
    rw [List.append_nil] at read
    have unsigned := digits (false, t) rfl
    obtain ⟨c, t, rfl⟩ := List.exists_cons_of_ne_nil unsigned.1
    have digit : c.isDigit := unsigned.2 c (List.mem_cons_self ..)
    have plus : c ≠ '+' := by rintro rfl; cases digit
    have minus : c ≠ '-' := by rintro rfl; cases digit
    simp [Numeral.printExponent, exponent?, plus, minus, read]

/-- An exponent does not start with a digit. -/
theorem not_isDigit_of_mem_head?_printExponent {exponent : Option (Bool × Text)} :
    ∀ c ∈ (Numeral.printExponent exponent).head?, c.isDigit = false := by
  intro c head
  match exponent with
  | none => cases head
  | some (true, _) => cases head; rfl
  | some (false, _) => cases head; rfl

/-- Reads a number behind its sign. -/
def unsigned? (negative : Bool) (t : Text) : Option Numeral := do
  let (whole, t) ← digits? t
  if whole.head? = some '0' ∧ 1 < whole.length then none
  else
    match t with
    | '.' :: t =>
      let (fraction, t) ← digits? t
      let exponent ← exponent? t
      some ⟨negative, whole, some fraction, exponent⟩
    | t =>
      let exponent ← exponent? t
      some ⟨negative, whole, none, exponent⟩

theorem numeral?_minus (t : Text) : numeral? ('-' :: t) = unsigned? true t :=
  rfl

theorem numeral?_of_ne_minus {c : Char} (unsigned : c ≠ '-') (t : Text) :
    numeral? (c :: t) = unsigned? false (c :: t) := by
  unfold numeral?
  split
  rename_i negative rest sign
  split at sign
  · rename_i minus
    exact absurd (List.cons.inj minus).1 unsigned
  · cases sign
    rfl

/-- The parts of a well-formed number are read one after the other. -/
theorem unsigned?_printUnsigned {n : Numeral} (wf : n.WellFormed) :
    unsigned? n.negative n.printUnsigned = some n := by
  obtain ⟨negative, whole, fraction, exponent⟩ := n
  have leading : ¬ (whole.head? = some '0' ∧ 1 < whole.length) := by
    rintro ⟨zero, longer⟩
    have alone : whole.length = 1 := wf.no_leading_zero zero
    omega
  have power : exponent? (Numeral.printExponent exponent) = some exponent :=
    exponent?_print wf.exponent
  cases fraction with
  | none =>
    have read : digits? (whole ++ Numeral.printExponent exponent)
        = some (whole, Numeral.printExponent exponent) :=
      digits?_append wf.whole _ not_isDigit_of_mem_head?_printExponent
    have no_point : ∀ t, Numeral.printExponent exponent ≠ '.' :: t := by
      intro t
      match exponent with
      | none => simp [Numeral.printExponent]
      | some (true, _) => simp [Numeral.printExponent]
      | some (false, _) => simp [Numeral.printExponent]
    simp only [unsigned?, Numeral.printUnsigned, Numeral.printFraction, List.nil_append, read,
      Option.bind_eq_bind, Option.bind_some, if_neg leading]
    rw [power, Option.bind_some]
  | some digits =>
    have read : digits? (whole ++ '.' :: (digits ++ Numeral.printExponent exponent))
        = some (whole, '.' :: (digits ++ Numeral.printExponent exponent)) :=
      digits?_append wf.whole _ (by rintro c ⟨⟩; rfl)
    have behind : digits? (digits ++ Numeral.printExponent exponent)
        = some (digits, Numeral.printExponent exponent) :=
      digits?_append (wf.fraction digits rfl) _ not_isDigit_of_mem_head?_printExponent
    simp only [unsigned?, Numeral.printUnsigned, Numeral.printFraction, List.cons_append, read,
      behind, power, Option.bind_eq_bind, Option.bind_some, if_neg leading]

/-- A number without its sign starts with a digit. -/
theorem printUnsigned_eq_cons {n : Numeral} (wf : n.WellFormed) :
    ∃ c t, n.printUnsigned = c :: t ∧ c.isDigit = true := by
  obtain ⟨c, t, whole⟩ := List.exists_cons_of_ne_nil wf.whole.1
  refine ⟨c, t ++ (Numeral.printFraction n.fraction ++ Numeral.printExponent n.exponent), ?_, ?_⟩
  · rw [Numeral.printUnsigned, whole, List.cons_append]
  · exact wf.whole.2 c (by rw [whole]; exact List.mem_cons_self ..)

theorem ne_minus_of_isDigit {c : Char} (digit : c.isDigit = true) : c ≠ '-' := by
  rintro rfl
  cases digit

/-- A well-formed number is read back from its text. -/
theorem numeral?_print {n : Numeral} (wf : n.WellFormed) : numeral? n.print = some n := by
  have parts := unsigned?_printUnsigned wf
  rw [Numeral.print]
  split
  · rename_i negative
    rw [negative] at parts
    rw [numeral?_minus, parts]
  · rename_i natural
    obtain ⟨c, t, unsigned, digit⟩ := printUnsigned_eq_cons wf
    rw [Bool.eq_false_iff.2 natural, unsigned] at parts
    rw [unsigned, numeral?_of_ne_minus (ne_minus_of_isDigit digit), parts]

/-- A number consists of numeric characters. -/
theorem isNumeric_of_mem_print {n : Numeral} (wf : n.WellFormed) :
    ∀ c ∈ n.print, isNumeric c = true := by
  have digits : ∀ t : Text, t.IsDigits → ∀ c ∈ t, isNumeric c = true := by
    intro t all c mem
    simp [isNumeric, all.2 c mem]
  have fraction : ∀ c ∈ Numeral.printFraction n.fraction, isNumeric c = true := by
    intro c mem
    cases point : n.fraction with
    | none => simp [point, Numeral.printFraction] at mem
    | some t =>
      rw [point, Numeral.printFraction, List.mem_cons] at mem
      rcases mem with rfl | mem
      · rfl
      · exact digits t (wf.fraction t point) c mem
  have exponent : ∀ c ∈ Numeral.printExponent n.exponent, isNumeric c = true := by
    intro c mem
    match power : n.exponent with
    | none => simp [power, Numeral.printExponent] at mem
    | some (true, t) =>
      rw [power, Numeral.printExponent, List.mem_cons, List.mem_cons] at mem
      rcases mem with rfl | rfl | mem
      · rfl
      · rfl
      · exact digits t (wf.exponent _ power) c mem
    | some (false, t) =>
      rw [power, Numeral.printExponent, List.mem_cons] at mem
      rcases mem with rfl | mem
      · rfl
      · exact digits t (wf.exponent _ power) c mem
  have unsigned : ∀ c ∈ n.printUnsigned, isNumeric c = true := by
    intro c mem
    rw [Numeral.printUnsigned, List.mem_append, List.mem_append] at mem
    rcases mem with mem | mem | mem
    · exact digits n.whole wf.whole c mem
    · exact fraction c mem
    · exact exponent c mem
  intro c mem
  rw [Numeral.print] at mem
  split at mem
  · rcases List.mem_cons.1 mem with rfl | mem
    · rfl
    · exact unsigned c mem
  · exact unsigned c mem

/-- A digit starts a number. -/
theorem start_of_isDigit {c : Char} (digit : c.isDigit = true) :
    start c = some ([], .number [c]) := by
  have gap : isGap c = false := by
    rw [← Bool.not_eq_true]
    intro gap
    simp only [isGap, Bool.or_eq_true, beq_iff_eq] at gap
    rcases gap with ((rfl | rfl) | rfl) | rfl <;> cases digit
  have sign : isSign c = false := by
    rw [← Bool.not_eq_true]
    intro sign
    have numeric := (outside_of_isSign sign).1
    simp [isNumeric, digit] at numeric
  have quote : c ≠ '"' := by
    rintro rfl
    cases digit
  simp [start, gap, sign, quote, digit]

/-- The first character of a number starts to collect its characters. -/
theorem start_print {n : Numeral} (wf : n.WellFormed) :
    ∃ c t, n.print = c :: t ∧ start c = some ([], .number [c]) := by
  rw [Numeral.print]
  split
  · exact ⟨'-', n.printUnsigned, rfl, rfl⟩
  · obtain ⟨c, t, unsigned, digit⟩ := printUnsigned_eq_cons wf
    exact ⟨c, t, unsigned, start_of_isDigit digit⟩

/-- **A number is one lexeme.** -/
theorem resume_number {n : Numeral} (wf : n.WellFormed) {t : Text} (apart : Apart t) :
    resume frames expect .between (n.print ++ t)
      = resumeAfter frames expect (.scalar (.number n)) t := by
  obtain ⟨c, rest, print, started⟩ := start_print wf
  have numeric := isNumeric_of_mem_print wf
  have collected : resume frames expect .between (n.print ++ t)
      = resume frames expect (.number n.print.reverse) t := by
    rw [print] at numeric ⊢
    rw [List.cons_append, resume_silent (show step .between c = _ from started),
      resume_number_append (fun d mem => numeric d (List.mem_cons_of_mem _ mem)),
      List.reverse_cons]
  have ended : finish (.number n.print.reverse) = some [.scalar (.number n)] := by
    simp [finish, numeral?_print wf]
  rw [collected]
  refine resume_finished ended ?_ apart
  intro d sign
  simp [step, (outside_of_isSign sign).1]

/-- **A word is one lexeme.** -/
theorem resume_word (d : Document) {c : Char} {word : Text}
    (letters : (c :: word).all Char.isAlpha = true) (started : start c = some ([], .word [c]))
    (known : word? (c :: word) = some d) {t : Text} (apart : Apart t) :
    resume frames expect .between (c :: word ++ t) = resumeAfter frames expect (.scalar d) t := by
  have collected : resume frames expect .between (c :: word ++ t)
      = resume frames expect (.word (c :: word).reverse) t := by
    rw [List.cons_append, resume_silent (show step .between c = _ from started),
      resume_word_append fun a mem =>
        List.all_eq_true.1 letters a (List.mem_cons_of_mem _ mem),
      List.reverse_cons]
  have ended : finish (.word (c :: word).reverse) = some [.scalar d] := by
    rw [finish, List.reverse_reverse, known]
    rfl
  rw [collected]
  refine resume_finished ended ?_ apart
  intro a sign
  simp [step, (outside_of_isSign sign).2]

/-! ### Strings -/

/-- The value of a hexadecimal digit is read back. -/
theorem hexDigit?_hexDigit {n : Nat} (small : n < 16) : hexDigit? (Blob.hexDigit n) = some n := by
  revert n
  decide

/-- A part of a string is collected. -/
theorem resume_part {p : StringPart} (wf : p.WellFormed) (seen : List StringPart) (t : Text) :
    resume frames expect (.string seen) (p.print ++ t)
      = resume frames expect (.string (p :: seen)) t := by
  cases p with
  | unit n =>
    have small : n < 0x10000 := wf
    have value : 16 * (16 * (16 * (16 * 0 + n / 4096) + n / 256 % 16) + n / 16 % 16) + n % 16
        = n := by omega
    have hex : ∀ (left value k : Nat) (rest : Text), k < 16 →
        resume frames expect (.hex seen (left + 1) value) (Blob.hexDigit k :: rest)
          = resume frames expect (.hex seen left (16 * value + k)) rest := by
      intro left value k rest small
      refine resume_silent ?_ rest
      simp [step, hexDigit?_hexDigit small]
    have last : step (.hex seen 0 (16 * (16 * (16 * 0 + n / 4096) + n / 256 % 16) + n / 16 % 16))
        (Blob.hexDigit (n % 16)) = some ([], .string (.unit n :: seen)) := by
      simp only [step, hexDigit?_hexDigit (Nat.mod_lt n (by decide)), Option.map_some, value]
    simp only [StringPart.print, List.cons_append, List.nil_append]
    rw [resume_silent (show step (.string seen) '\\' = some ([], .escape seen) from rfl),
      resume_silent (show step (.escape seen) 'u' = some ([], .hex seen 3 0) from rfl),
      hex 2 _ _ _ (by omega), hex 1 _ _ _ (by omega), hex 0 _ _ _ (by omega), resume_silent last]
  | char c =>
    have escape : ∀ {letter : Char} (rest : Text), letter ≠ 'u' → escaped? letter = some c →
        resume frames expect (.string seen) ('\\' :: letter :: rest)
          = resume frames expect (.string (.char c :: seen)) rest := by
      intro letter rest other letter_of
      rw [resume_silent (show step (.string seen) '\\' = some ([], .escape seen) from rfl)]
      refine resume_silent ?_ rest
      simp [step, other, letter_of]
    simp only [StringPart.print, Blob.escapeChar]
    split
    · subst c; exact escape t (by decide) rfl
    split
    · subst c; exact escape t (by decide) rfl
    split
    · subst c; exact escape t (by decide) rfl
    split
    · subst c; exact escape t (by decide) rfl
    split
    · subst c; exact escape t (by decide) rfl
    split
    · subst c; exact escape t (by decide) rfl
    split
    · subst c; exact escape t (by decide) rfl
    split
    · rename_i control
      rcases wf with printable | lettered
      · omega
      · simp_all [StringPart.lettered]
    · rename_i quote backslash _ _ _ _ _ printable
      refine resume_silent ?_ t
      simp [step, quote, backslash, printable]

/-- The parts of a string are collected. -/
theorem resume_parts {parts : List StringPart} (wf : ∀ p ∈ parts, p.WellFormed)
    (seen : List StringPart) (t : Text) :
    resume frames expect (.string seen) (parts.flatMap StringPart.print ++ t)
      = resume frames expect (.string (parts.reverse ++ seen)) t := by
  induction parts generalizing seen with
  | nil => rfl
  | cons p parts ih =>
    rw [List.flatMap_cons, List.append_assoc, resume_part (wf p (List.mem_cons_self ..)),
      ih (fun q mem => wf q (List.mem_cons_of_mem _ mem)), List.reverse_cons, List.append_assoc,
      List.singleton_append]

/-- **A string is one lexeme.** Its quotes end it, whatever follows. -/
theorem resume_string {parts : List StringPart} (wf : ∀ p ∈ parts, p.WellFormed) (t : Text) :
    resume frames expect .between (printString parts ++ t)
      = resumeAfter frames expect (.scalar (.string parts)) t := by
  have opened : step .between '"' = some ([], .string []) := rfl
  have closed : step (.string parts.reverse) '"'
      = some ([.scalar (.string parts)], .between) := by
    simp [step]
  rw [printString, List.cons_append, resume_silent opened, List.append_assoc, resume_parts wf,
    List.append_nil, List.singleton_append]
  exact resume_found closed t

/-! ### Documents -/

/-- A value may start here. -/
def Expect.StartsValue : Expect → Prop
  | .value | .item => True
  | _ => False

/-- Where a value may start, every lexeme but the end of an array opens one. -/
theorem build_of_startsValue (start : expect.StartsValue) {l : Lexeme} (opens : l ≠ .sign ']') :
    build frames expect l = openValue frames l := by
  cases expect with
  | value => cases frames <;> rfl
  | item =>
    unfold build
    split <;> simp_all
  | firstKey _ => cases start
  | key _ => cases start
  | colon => cases start
  | more => cases start
  | done _ => cases start

/-- A document without parts is settled at once. -/
theorem resumeAfter_scalar (start : expect.StartsValue) (d : Document) (t : Text) :
    resumeAfter frames expect (.scalar d) t = resumeSettled frames d t := by
  have other : Lexeme.scalar d ≠ .sign ']' := by simp
  rw [resumeAfter, build_of_startsValue start other, openValue, resumeSettled]

mutual

/-- **A document is settled into what is open.** -/
theorem resume_print (d : Document) (wf : d.WellFormed) (frames : List Frame) (expect : Expect)
    (start : expect.StartsValue) {t : Text} (apart : Apart t) :
    resume frames expect .between (d.print ++ t) = resumeSettled frames d t := by
  have opened : ∀ {c : Char} (rest : Text), isSign c = true → c ≠ ']' →
      resume frames expect .between (c :: rest)
        = (openValue frames (.sign c)).bind fun s => resume s.1 s.2 .between rest := by
    intro c rest sign other
    have opens : Lexeme.sign c ≠ .sign ']' := by simp [other]
    rw [resume_sign sign, resumeAfter, build_of_startsValue start opens]
  cases d with
  | null =>
    rw [print, resume_word .null rfl rfl rfl apart, resumeAfter_scalar start]
  | bool b =>
    cases b with
    | true =>
      rw [print, resume_word (.bool true) rfl rfl rfl apart, resumeAfter_scalar start]
    | false =>
      rw [print, resume_word (.bool false) rfl rfl rfl apart, resumeAfter_scalar start]
  | number n => rw [print, resume_number wf apart, resumeAfter_scalar start]
  | string parts => rw [print, resume_string wf, resumeAfter_scalar start]
  | array items =>
    rw [print, List.cons_append, opened _ rfl (by decide), List.append_assoc,
      List.singleton_append]
    by_cases empty : items = []
    · subst empty
      exact resume_sign rfl t
    · exact resume_printItems items empty wf [] frames .item trivial t
  | object members =>
    rw [print, List.cons_append, opened _ rfl (by decide), List.append_assoc,
      List.singleton_append]
    by_cases empty : members = []
    · subst empty
      exact resume_sign rfl t
    · exact resume_printMembers members empty wf [] frames _ (.inr rfl) t

/-- The items of an array are read up to its end, behind those that are there already. -/
theorem resume_printItems (items : List Document) (nonempty : items ≠ [])
    (wf : WellFormedItems items) (read : List Document) (frames : List Frame)
    (expect : Expect) (start : expect.StartsValue) (t : Text) :
    resume (.array read :: frames) expect .between
        (Text.join [','] (printItems items) ++ ']' :: t)
      = resumeSettled frames (.array (read.reverse ++ items)) t := by
  cases items with
  | nil => exact absurd rfl nonempty
  | cons d rest =>
    have first : ∀ {u : Text}, Apart u →
        resume (.array read :: frames) expect .between (d.print ++ u)
          = resume (.array (d :: read) :: frames) .more .between u :=
      fun apart => resume_print d wf.1 (.array read :: frames) expect start apart
    cases rest with
    | nil =>
      rw [printItems, printItems, Text.join_singleton, first (apart_cons rfl t), resume_sign rfl,
        ← List.reverse_cons]
      rfl
    | cons e rest =>
      have others := resume_printItems (e :: rest) (by simp) wf.2 (d :: read) frames
        .value trivial t
      rw [List.reverse_cons, List.append_assoc, List.singleton_append] at others
      rw [← others, printItems, printItems, Text.join_cons_cons, List.append_assoc,
        List.append_assoc, List.singleton_append, first (apart_cons rfl _), resume_sign rfl]
      rfl

/-- The members of an object are read up to its end, behind those that are there already. -/
theorem resume_printMembers (members : List (List StringPart × Document))
    (nonempty : members ≠ []) (wf : WellFormedMembers members)
    (read : List (List StringPart × Document)) (frames : List Frame) (expect : Expect)
    (start : expect = .key read ∨ expect = .firstKey read) (t : Text) :
    resume frames expect .between (Text.join [','] (printMembers members) ++ '\x7d' :: t)
      = resumeSettled frames (.object (read.reverse ++ members)) t := by
  cases members with
  | nil => exact absurd rfl nonempty
  | cons member rest =>
    obtain ⟨key, d⟩ := member
    have keyed : ∀ u : Text, resume frames expect .between (printString key ++ u)
        = resume (.object read key :: frames) .colon .between u := by
      intro u
      rw [resume_string wf.1]
      rcases start with rfl | rfl <;> rfl
    have first : ∀ {u : Text}, Apart u →
        resume frames expect .between (printString key ++ ':' :: (d.print ++ u))
          = resume (.object ((key, d) :: read) key :: frames) .more .between u := by
      intro u apart
      rw [keyed, resume_sign rfl]
      exact resume_print d wf.2.1 (.object read key :: frames) .value trivial apart
    cases rest with
    | nil =>
      rw [printMembers, printMembers, Text.join_singleton, List.append_assoc, List.cons_append,
        first (apart_cons rfl t), resume_sign rfl, ← List.reverse_cons]
      rfl
    | cons other rest =>
      obtain ⟨key', e⟩ := other
      have others := resume_printMembers ((key', e) :: rest) (by simp) wf.2.2 ((key, d) :: read)
        frames _ (.inl rfl) t
      rw [List.reverse_cons, List.append_assoc, List.singleton_append] at others
      rw [← others, printMembers, printMembers, Text.join_cons_cons, List.append_assoc,
        List.append_assoc, List.append_assoc, List.cons_append, List.singleton_append,
        first (apart_cons rfl _), resume_sign rfl]
      rfl

end

/-- **A well-formed document is read back from its text.** -/
theorem read?_print {d : Document} (wf : d.WellFormed) : read? d.print = some d := by
  calc read? d.print = resume [] .value .between d.print := rfl
    _ = resume [] .value .between (d.print ++ []) := by rw [List.append_nil]
    _ = resumeSettled [] d [] := resume_print d wf [] .value trivial apart_nil
    _ = some d := rfl

end RecordMapper.Document
