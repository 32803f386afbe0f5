import RecordMapper.Proofs.Text.Keywords
import RecordMapper.Proofs.Token.Passing

/-!
The close of a span among the characters of a text.

The search for the close walks over bytes. If the delimiters of a span are ASCII, it stops in front
of whole characters only, and `Span.seek?` is the same search on characters
(`Span.close?_eq_seek?`): a character that is not ASCII is none of a delimiter, and its bytes are
passed as one. So **the interior, a closing delimiter and the rest make up the text**
(`Span.exists_of_seek?`), for every text and not only for balanced ones.
-/

namespace RecordMapper

theorem Text.length_bytes_of_isAscii {t : Text} (ascii : ∀ c ∈ t, Text.IsAscii c) :
    (Text.bytes t).length = t.length := by
  induction t with
  | nil => rfl
  | cons c t ih =>
    rw [Text.bytes_cons_of_isAscii (ascii c (List.mem_cons_self ..)), List.length_cons,
      List.length_cons, ih fun d mem => ascii d (List.mem_cons_of_mem _ mem)]

namespace Span

open Text

/-! ### The search on characters -/

/-- The character is the quote of the span. -/
def isQuote (s : Span) (c : Char) : Bool :=
  decide (IsAscii c) && s.quote == some (Byte.ofAscii c)

/-- The character is the escape of the span. -/
def isEscape (s : Span) (c : Char) : Bool :=
  decide (IsAscii c) && s.escape == some (Byte.ofAscii c)

/-- What follows a delimiter that stands at the start of the text. -/
def standing? (s : Span) (delimiter : Text) (before : Option Char) (t : Text) : Option Text :=
  (Text.after? s.keyword delimiter t).filter fun rest =>
    !s.keyword || Text.standsAlone before rest.head?

/-- Finds the delimiter that closes a span, and gives what stands before and behind it. The
arguments are those of the search on bytes. -/
def seek? (s : Span) : (depth skip : Nat) → (quoted : Bool) → (before : Option Char) → Text →
    Option (Text × Text)
  | _, _, _, _, [] => none
  | depth, skip + 1, quoted, _, c :: t => prependFound c (seek? s depth skip quoted (some c) t)
  | depth, 0, true, _, c :: t =>
    if c = '\\' then prependFound c (seek? s depth 1 true (some c) t)
    else prependFound c (seek? s depth 0 (!s.isQuote c) (some c) t)
  | depth, 0, false, before, c :: t =>
    if s.isEscape c then prependFound c (seek? s depth 1 false (some c) t)
    else if s.isQuote c then prependFound c (seek? s depth 0 true (some c) t)
    else
      match s.standing? s.closing before (c :: t), depth with
      | some rest, 0 => some ([], rest)
      | some _, depth + 1 =>
        prependFound c (seek? s depth (s.closing.length - 1) false (some c) t)
      | none, depth =>
        if s.opening ≠ s.closing ∧ (s.standing? s.opening before (c :: t)).isSome then
          prependFound c (seek? s (depth + 1) (s.opening.length - 1) false (some c) t)
        else prependFound c (seek? s depth 0 false (some c) t)

/-- Where the search on bytes finds what the search on characters found. -/
def places (s : Span) (position : Nat) (found : Text × Text) : Nat × Nat :=
  (position + (bytes found.1).length, position + (bytes found.1).length + (bytes s.closing).length)

theorem map_prependFound (s : Span) (position : Nat) (c : Char) (found : Option (Text × Text)) :
    (prependFound c found).map (s.places position)
      = found.map (s.places (position + c.utf8Size)) := by
  cases found with
  | none => rfl
  | some found =>
    simp only [prependFound, Option.map_some, places, length_bytes_cons, Nat.add_assoc]

/-- The delimiters, the quote and the escape of the span are ASCII. -/
structure IsAscii (s : Span) : Prop where
  opening : s.opening ≠ [] ∧ ∀ c ∈ s.opening, Text.IsAscii c
  closing : s.closing ≠ [] ∧ ∀ c ∈ s.closing, Text.IsAscii c
  quote : ∀ b ∈ s.quote, b.toNat < 128
  escape : ∀ b ∈ s.escape, b.toNat < 128

/-! ### Delimiters -/

section Delimiters

variable {s : Span} {delimiter : Text} {before : Option Char}

theorem delimits_eq (ascii : ∀ c ∈ delimiter, Text.IsAscii c) (t : Text) :
    s.delimits (bytes delimiter) (lastByte? before) (bytes t)
      = (s.standing? delimiter before t).isSome := by
  rw [delimits, Byte.after?_bytes ascii, standing?]
  cases Text.after? s.keyword delimiter t with
  | none => rfl
  | some rest =>
    rw [Option.map_some]
    simp only [Byte.standsAlone_eq, Option.filter_some]
    split <;> simp_all

theorem exists_of_standing? {t rest : Text} (found : s.standing? delimiter before t = some rest) :
    ∃ word, List.Forall₂ (fun a b => agree s.keyword a b = true) delimiter word
      ∧ t = word ++ rest := by
  obtain ⟨after, -⟩ := Option.filter_eq_some_iff.1 found
  exact after?_eq_some_iff.1 after

theorem isAscii_of_forall₂ {ignoreCase : Bool} {word : Text}
    (ascii : ∀ c ∈ delimiter, Text.IsAscii c)
    (all : List.Forall₂ (fun a b => agree ignoreCase a b = true) delimiter word) :
    ∀ c ∈ word, Text.IsAscii c := by
  intro c mem
  obtain ⟨a, member, same⟩ := exists_agree_of_mem all mem
  exact isAscii_of_agree (ascii a member) same

theorem isAscii_of_standing? (ascii : ∀ c ∈ delimiter, Text.IsAscii c) {t rest : Text}
    (found : s.standing? delimiter before t = some rest) :
    ∀ c ∈ t.take delimiter.length, Text.IsAscii c := by
  obtain ⟨word, all, rfl⟩ := exists_of_standing? found
  rw [all.length_eq, List.take_left]
  exact isAscii_of_forall₂ ascii all

theorem delimits_foreign (ascii : delimiter ≠ [] ∧ ∀ c ∈ delimiter, Text.IsAscii c) {c : Char}
    (other : ¬ Text.IsAscii c) {b : UInt8} (mem : b ∈ String.utf8EncodeChar c)
    (before : Option UInt8) (rest : List UInt8) :
    s.delimits (bytes delimiter) before (b :: rest) = false := by
  rw [delimits, Byte.after?_foreign ascii other mem]

/-- A character that is not ASCII starts no delimiter. -/
theorem standing?_foreign {delimiter : Text}
    (ascii : delimiter ≠ [] ∧ ∀ c ∈ delimiter, Text.IsAscii c) {c : Char}
    (other : ¬ Text.IsAscii c) (before : Option Char) (t : Text) :
    s.standing? delimiter before (c :: t) = none := by
  cases found : s.standing? delimiter before (c :: t) with
  | none => rfl
  | some rest =>
    obtain ⟨word, all, whole⟩ := exists_of_standing? found
    cases all with
    | nil => exact absurd rfl ascii.1
    | cons first _ =>
      obtain ⟨rfl, -⟩ := List.cons.inj whole
      exact absurd (isAscii_of_agree (ascii.2 _ (List.mem_cons_self ..)) first) other

end Delimiters

/-! ### Bytes and characters -/

section Bytes

variable {s : Span} (ascii : s.IsAscii) {depth skip : Nat} {quoted : Bool} {position : Nat}
include ascii

/-- Bytes of a character that is not ASCII mean nothing to the search. -/
theorem IsAscii.closeFrom?_foreign {c : Char} (other : ¬ Text.IsAscii c) {front : List UInt8}
    (sub : front ⊆ String.utf8EncodeChar c) (before : Option UInt8) (rest : List UInt8) :
    closeFrom? s depth 0 quoted before position (front ++ rest)
      = closeFrom? s depth 0 quoted (front.getLast?.or before) (position + front.length) rest := by
  induction front generalizing before position with
  | nil => rfl
  | cons b front ih =>
    have mem := sub (List.mem_cons_self ..)
    have high := le_of_mem_utf8EncodeChar other mem
    have backslash : b ≠ Byte.ofAscii '\\' := ne_ofAscii_of_le high (by decide)
    have quote : s.quote ≠ some b := by
      intro same
      have small := ascii.quote b same
      omega
    have escape : s.escape ≠ some b := by
      intro same
      have small := ascii.escape b same
      omega
    have others := @ih (position + 1) (List.subset_of_cons_subset sub) (some b)
    have step : closeFrom? s depth 0 quoted before position (b :: (front ++ rest))
        = closeFrom? s depth 0 quoted (some b) (position + 1) (front ++ rest) := by
      cases quoted with
      | true => rw [closeFrom?, if_neg backslash, bne_iff_ne.2 quote]
      | false =>
        exact closeFrom?_cons escape quote (delimits_foreign ascii.closing other mem _ _)
          (.inr (delimits_foreign ascii.opening other mem _ _))
    rw [List.cons_append, step, others, Byte.getLast?_cons_or, List.length_cons]
    congr 1
    omega

/-- A character that is not ASCII is passed as a whole, also if its first byte is hidden. -/
theorem IsAscii.closeFrom?_character {c : Char} (other : ¬ Text.IsAscii c) (small : skip ≤ 1)
    (before : Option UInt8) (rest : List UInt8) :
    closeFrom? s depth skip quoted before position (String.utf8EncodeChar c ++ rest)
      = closeFrom? s depth 0 quoted (lastByte? (some c)) (position + c.utf8Size) rest := by
  have nonempty : String.utf8EncodeChar c ≠ [] := String.utf8EncodeChar_ne_nil
  have last : ((String.utf8EncodeChar c).getLast?).or before = lastByte? (some c) := by
    rw [List.getLast?_eq_some_getLast nonempty]
    exact (List.getLast?_eq_some_getLast nonempty).symm
  rw [← String.length_utf8EncodeChar, ← last]
  rcases Nat.le_one_iff_eq_zero_or_eq_one.1 small with rfl | rfl
  · exact ascii.closeFrom?_foreign other (List.Subset.refl _) before rest
  · obtain ⟨b, front, split⟩ := List.exists_cons_of_ne_nil nonempty
    have sub : front ⊆ String.utf8EncodeChar c := split ▸ List.subset_cons_self b front
    have others := @IsAscii.closeFrom?_foreign s ascii depth quoted (position + 1) c other front sub
      (some b) rest
    rw [split, List.cons_append, closeFrom?, others, Byte.getLast?_cons_or, List.length_cons]
    congr 1
    omega

theorem IsAscii.seek?_foreign {c : Char} (other : ¬ Text.IsAscii c) (small : skip ≤ 1)
    (before : Option Char) (t : Text) :
    seek? s depth skip quoted before (c :: t)
      = prependFound c (seek? s depth 0 quoted (some c) t) := by
  have backslash : c ≠ '\\' := ne_of_not_isAscii other (by decide)
  have quote : s.isQuote c = false := by simp [isQuote, other]
  have escape : s.isEscape c = false := by simp [isEscape, other]
  have closing := standing?_foreign (s := s) ascii.closing other before t
  have opening := standing?_foreign (s := s) ascii.opening other before t
  rcases Nat.le_one_iff_eq_zero_or_eq_one.1 small with rfl | rfl
  · cases quoted with
    | true => rw [seek?, if_neg backslash, quote]; rfl
    | false => simp [seek?, quote, escape, closing, opening]
  · rw [seek?]

omit ascii in
/-- At most one character is hidden from the search, or characters that are one byte each are. -/
def Hidden (skip : Nat) (t : Text) : Prop :=
  skip ≤ 1 ∨ ∀ c ∈ t.take skip, Text.IsAscii c

omit ascii in
theorem hidden_of_le_one (small : skip ≤ 1) (t : Text) : Hidden skip t :=
  .inl small

omit ascii in
theorem Hidden.of_succ {c : Char} {t : Text} (hidden : Hidden (skip + 1) (c :: t)) :
    Hidden skip t := by
  rcases hidden with small | all
  · exact .inl (Nat.le_of_succ_le small)
  · exact .inr fun d mem => all d (List.mem_cons_of_mem c mem)

omit ascii in
/-- Behind its first character the rest of a delimiter is hidden. -/
theorem hidden_of_standing? {delimiter : Text} (letters : ∀ c ∈ delimiter, Text.IsAscii c)
    (nonempty : delimiter ≠ []) {before : Option Char} {c : Char} {t rest : Text}
    (found : s.standing? delimiter before (c :: t) = some rest) :
    Hidden (delimiter.length - 1) t := by
  obtain ⟨n, more⟩ := Nat.exists_eq_succ_of_ne_zero
    (Nat.ne_of_gt (List.length_pos_iff.2 nonempty))
  refine .inr fun d mem => isAscii_of_standing? letters found d ?_
  rw [more] at mem ⊢
  exact List.mem_cons_of_mem c mem

omit ascii in
/-- Behind a character of one byte the search on bytes finds what the one on characters finds. -/
def Follows (s : Span) (position : Nat) (c : Char) (t : Text) : Prop :=
  ∀ depth skip quoted, Hidden skip t →
    closeFrom? s depth skip quoted (some (Byte.ofAscii c)) (position + 1) (bytes t)
      = (prependFound c (seek? s depth skip quoted (some c) t)).map (s.places position)

omit ascii in
/-- A step between quotes. -/
theorem Follows.inside {c : Char} {t : Text} (follows : s.Follows position c t)
    (ascii_c : Text.IsAscii c) (before : Option Char) (byte : Option UInt8) :
    closeFrom? s depth 0 true byte position (Byte.ofAscii c :: bytes t)
      = (seek? s depth 0 true before (c :: t)).map (s.places position) := by
  have quote : (s.quote != some (Byte.ofAscii c)) = !s.isQuote c := by
    simp [isQuote, ascii_c, bne]
  have backslash : Text.IsAscii '\\' := by decide
  simp only [closeFrom?, seek?, ofAscii_inj ascii_c backslash, quote]
  split
  · exact follows _ _ _ (hidden_of_le_one (Nat.le_refl 1) t)
  · exact follows _ _ _ (hidden_of_le_one (Nat.zero_le 1) t)

/-- A step outside quotes. -/
theorem Follows.outside {c : Char} {t : Text} (follows : s.Follows position c t)
    (ascii_c : Text.IsAscii c) (before : Option Char) :
    closeFrom? s depth 0 false (lastByte? before) position (Byte.ofAscii c :: bytes t)
      = (seek? s depth 0 false before (c :: t)).map (s.places position) := by
  have escape : s.escape = some (Byte.ofAscii c) ↔ s.isEscape c = true := by
    simp [isEscape, ascii_c]
  have quote : s.quote = some (Byte.ofAscii c) ↔ s.isQuote c = true := by
    simp [isQuote, ascii_c]
  have closing := @delimits_eq s _ before ascii.closing.2 (c :: t)
  have opening := @delimits_eq s _ before ascii.opening.2 (c :: t)
  rw [bytes_cons_of_isAscii ascii_c] at closing opening
  have none_hidden := hidden_of_le_one (Nat.zero_le 1) t
  simp only [closeFrom?, seek?, escape, quote, closing, opening,
    length_bytes_of_isAscii ascii.closing.2, length_bytes_of_isAscii ascii.opening.2]
  split
  · exact follows _ _ _ (hidden_of_le_one (Nat.le_refl 1) t)
  split
  · exact follows _ _ _ none_hidden
  cases closed : s.standing? s.closing before (c :: t) with
  | some rest =>
    have hidden := hidden_of_standing? ascii.closing.2 ascii.closing.1 closed
    obtain ⟨n, more⟩ := Nat.exists_eq_succ_of_ne_zero
      (Nat.ne_of_gt (List.length_pos_iff.2 ascii.closing.1))
    cases depth with
    | zero =>
      rw [← length_bytes_of_isAscii ascii.closing.2]
      rfl
    | succ depth =>
      rw [more] at hidden
      simp only [Option.isSome_some, if_true, more]
      exact follows _ _ _ hidden
  | none =>
    simp only [Option.isSome_none, Bool.false_eq_true, if_false]
    split
    · rename_i opens
      obtain ⟨rest, opened⟩ := Option.isSome_iff_exists.1 opens.2
      exact follows _ _ _ (hidden_of_standing? ascii.opening.2 ascii.opening.1 opened)
    · exact follows _ _ _ none_hidden

/-- **The search on bytes finds what the search on characters finds.** -/
theorem IsAscii.closeFrom?_eq {t : Text} (hidden : Hidden skip t) (before : Option Char) :
    closeFrom? s depth skip quoted (lastByte? before) position (bytes t)
      = (seek? s depth skip quoted before t).map (s.places position) := by
  induction t generalizing depth skip quoted before position with
  | nil => simp [closeFrom?, seek?]
  | cons c t ih =>
    by_cases ascii_c : Text.IsAscii c
    · have follows : s.Follows position c t := by
        intro depth skip quoted hidden
        have last : lastByte? (some c) = some (Byte.ofAscii c) := by
          simp [lastByte?, utf8EncodeChar_of_isAscii ascii_c]
        have size : c.utf8Size = 1 := by
          rw [← String.length_utf8EncodeChar, utf8EncodeChar_of_isAscii ascii_c]
          rfl
        rw [map_prependFound, size, ← last]
        exact ih hidden _
      rw [bytes_cons_of_isAscii ascii_c]
      cases skip with
      | succ skip =>
        rw [closeFrom?, seek?]
        exact follows _ _ _ hidden.of_succ
      | zero =>
        cases quoted with
        | true => exact follows.inside ascii_c before _
        | false => exact follows.outside ascii ascii_c before
    · have small : skip ≤ 1 := by
        rcases hidden with small | all
        · exact small
        · cases skip with
          | zero => exact Nat.zero_le 1
          | succ skip => exact absurd (all c (by simp)) ascii_c
      rw [bytes_cons, ascii.closeFrom?_character ascii_c small,
        ih (hidden_of_le_one (Nat.zero_le 1) t), ascii.seek?_foreign ascii_c small,
        map_prependFound]

end Bytes

/-! ### What closes a span -/

section Close

variable {s : Span} {depth skip : Nat} {quoted : Bool} {before : Option Char}

/-- **The search stops in front of a closing delimiter.** -/
theorem exists_of_seek? {t inner behind : Text}
    (found : seek? s depth skip quoted before t = some (inner, behind)) :
    ∃ rest, t = inner ++ rest
      ∧ s.standing? s.closing (lastFrom before inner) rest = some behind := by
  induction t generalizing depth skip quoted before inner with
  | nil => simp [seek?] at found
  | cons c t ih =>
    have passed : ∀ {depth skip : Nat} {quoted : Bool},
        prependFound c (seek? s depth skip quoted (some c) t) = some (inner, behind) →
        ∃ rest, c :: t = inner ++ rest
          ∧ s.standing? s.closing (lastFrom before inner) rest = some behind := by
      intro depth skip quoted prepended
      obtain ⟨inner', later, rfl⟩ := exists_of_prependFound prepended
      obtain ⟨rest, rfl, closing⟩ := ih later
      exact ⟨rest, rfl, closing⟩
    cases skip with
    | succ skip =>
      rw [seek?] at found
      exact passed found
    | zero =>
      cases quoted with
      | true =>
        rw [seek?] at found
        split at found
        · exact passed found
        · exact passed found
      | false =>
        simp only [seek?] at found
        split at found
        · exact passed found
        · split at found
          · exact passed found
          · split at found
            · rename_i closing
              obtain ⟨rfl, rfl⟩ := Prod.mk.inj (Option.some.inj found)
              exact ⟨c :: t, rfl, closing⟩
            · exact passed found
            · split at found
              · exact passed found
              · exact passed found

/-- **The search on bytes splits a text as the search on characters does.** -/
theorem IsAscii.close?_eq_seek? (ascii : s.IsAscii) (t : Text) :
    s.close? t = seek? s 0 0 false none t := by
  have position : s.closePosition? t = (seek? s 0 0 false none t).map (s.places 0) :=
    ascii.closeFrom?_eq (hidden_of_le_one (Nat.zero_le 1) t) none
  rw [close?, position]
  cases found : seek? s 0 0 false none t with
  | none => rfl
  | some split =>
    obtain ⟨inner, behind⟩ := split
    obtain ⟨rest, rfl, closing⟩ := exists_of_seek? found
    obtain ⟨word, all, rfl⟩ := exists_of_standing? closing
    have size : (bytes s.closing).length = (bytes word).length := by
      rw [length_bytes_of_isAscii ascii.closing.2,
        length_bytes_of_isAscii (isAscii_of_forall₂ ascii.closing.2 all), all.length_eq]
    have start : splitBytes (bytes inner).length (inner ++ (word ++ behind))
        = (inner, word ++ behind) := splitBytes_append inner _
    have stop : splitBytes ((bytes inner).length + (bytes s.closing).length)
        (inner ++ (word ++ behind)) = (inner ++ word, behind) := by
      rw [size, ← List.length_append, ← bytes_append, ← List.append_assoc]
      exact splitBytes_append (inner ++ word) behind
    simp only [Option.map_some, places, Nat.zero_add, start, stop]

end Close

/-! ### The spans of the query language -/

theorem IsParenthesized.isAscii {s : Span} (parenthesized : s.IsParenthesized) : s.IsAscii := by
  obtain ⟨opening, closing, -, quote, escape⟩ := parenthesized
  constructor
  all_goals simp [opening, closing, quote, escape, Text.IsAscii, Byte.ofAscii]

theorem IsCase.isAscii {s : Span} (distinction : s.IsCase) : s.IsAscii := by
  obtain ⟨opening, closing, -, quote, escape⟩ := distinction
  constructor
  all_goals
    simp [opening, closing, quote, escape, caseKeyword, endKeyword, Text.IsAscii, Byte.ofAscii]

theorem IsLiteral.isAscii {s : Span} (literal : s.IsLiteral) : s.IsAscii := by
  obtain ⟨opening, closing, -, quote, escape⟩ := literal
  constructor
  all_goals simp [opening, closing, quote, escape, Text.IsAscii, Byte.ofAscii]

/-- A span that is opened has its delimiter at the end of what was read. -/
theorem exists_of_openAtEnd? {s : Span} {seen rest front : Text}
    (opened : s.openAtEnd? seen rest = some front) :
    ∃ before, Text.after? s.keyword s.opening.reverse seen = some before
      ∧ (s.keyword = true → Text.standsAlone before.head? rest.head? = true)
      ∧ front = before.reverse := by
  unfold openAtEnd? at opened
  split at opened
  · cases opened
  · split at opened
    · rename_i before found
      split at opened
      · rename_i alone
        refine ⟨before, found, fun keyword => ?_, (Option.some.inj opened).symm⟩
        simpa [keyword] using alone
      · cases opened
    · cases opened

end Span

/-- **A case distinction that is taken as a whole ends with its keyword**, and both keywords stand
on their own. -/
theorem Symbol.exists_of_caseDistinction {seen rest : Text} {m : Match}
    (found : Symbol.caseDistinction.match? seen rest = some m) :
    ∃ before contents word behind, Text.after? true Text.caseKeyword.reverse seen = some before
      ∧ Text.standsAlone before.head? rest.head? = true
      ∧ rest = contents ++ (word ++ behind)
      ∧ List.Forall₂ (fun a b => Text.agree true a b = true) Text.endKeyword word
      ∧ Text.standsAlone (Text.lastFrom none contents) behind.head? = true
      ∧ m = .extend (contents ++ word).length := by
  obtain ⟨_, contents, behind, opened, closed, rfl⟩ := exists_of_match? rfl found
  have ascii : Span.IsAscii { opening := Text.caseKeyword, closing := Text.endKeyword
                              interior := .inline, keyword := true, quote := Byte.ofAscii '"' } :=
    Span.IsCase.isAscii ⟨rfl, rfl, rfl, rfl, rfl⟩
  rw [ascii.close?_eq_seek?] at closed
  obtain ⟨rest, rfl, closing⟩ := Span.exists_of_seek? closed
  obtain ⟨after, alone⟩ := Option.filter_eq_some_iff.1 closing
  obtain ⟨word, all, rfl⟩ := Text.after?_eq_some_iff.1 after
  have length : (contents ++ (word ++ behind)).length - behind.length
      = (contents ++ word).length := by
    simp only [List.length_append]
    omega
  obtain ⟨before, opens, free, -⟩ := Span.exists_of_openAtEnd? opened
  exact ⟨before, contents, word, behind, opens, free rfl, rfl, all, by simpa using alone,
    by rw [length]⟩

end RecordMapper
