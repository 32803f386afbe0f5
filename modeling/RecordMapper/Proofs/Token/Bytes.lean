import RecordMapper.Proofs.Text.Scans
import RecordMapper.Token.Span

/-!
Texts as bytes.

An ASCII character is one byte, and the bytes of every other character are none of an ASCII
character (`ascii_or_of_mem_utf8EncodeChar`). So what a byte-wise comparison says of a keyword is
what a comparison of characters says: its letters in any case (`Byte.after?_bytes`), and that
nothing touches it (`Byte.standsAlone_eq`).
-/

namespace RecordMapper

/-! ### Bytes of characters -/

theorem utf8EncodeChar_of_isAscii {c : Char} (ascii : Text.IsAscii c) :
    String.utf8EncodeChar c = [Byte.ofAscii c] := by
  have small : c.val.toNat ≤ 127 := Nat.le_of_lt_succ ascii
  rw [String.utf8EncodeChar, if_pos small]
  rfl

/-- A byte of a longer character: a marker with some bits of the code point. -/
theorem le_toNat_marked (n : Nat) {size marker : Nat} (positive : 0 < size) (high : 128 ≤ marker)
    (fits : size + marker ≤ 256) : 128 ≤ (UInt8.ofNat (n % size + marker)).toNat := by
  have bits := Nat.mod_lt n positive
  rw [UInt8.toNat_ofNat', Nat.mod_eq_of_lt (by omega)]
  omega

theorem le_of_mem_utf8EncodeChar {c : Char} (other : ¬ Text.IsAscii c) {b : UInt8}
    (mem : b ∈ String.utf8EncodeChar c) : 128 ≤ b.toNat := by
  have large : ¬ c.val.toNat ≤ 127 := fun small => other (Nat.lt_succ_of_le small)
  simp only [String.utf8EncodeChar, if_neg large] at mem
  split at mem
  · simp only [List.mem_cons, List.not_mem_nil, or_false] at mem
    rcases mem with rfl | rfl
    all_goals exact le_toNat_marked _ (by decide) (by decide) (by decide)
  · split at mem
    all_goals simp only [List.mem_cons, List.not_mem_nil, or_false] at mem
    · rcases mem with rfl | rfl | rfl
      all_goals exact le_toNat_marked _ (by decide) (by decide) (by decide)
    · rcases mem with rfl | rfl | rfl | rfl
      all_goals exact le_toNat_marked _ (by decide) (by decide) (by decide)

/-- A byte of a character is the character, or none of an ASCII character. -/
theorem ascii_or_of_mem_utf8EncodeChar {c : Char} {b : UInt8}
    (mem : b ∈ String.utf8EncodeChar c) :
    (Text.IsAscii c ∧ b = Byte.ofAscii c) ∨ (¬ Text.IsAscii c ∧ 128 ≤ b.toNat) := by
  by_cases ascii : Text.IsAscii c
  · rw [utf8EncodeChar_of_isAscii ascii, List.mem_singleton] at mem
    exact .inl ⟨ascii, mem⟩
  · exact .inr ⟨ascii, le_of_mem_utf8EncodeChar ascii mem⟩

theorem isAsciiWord_of_not_isAscii {c : Char} (other : ¬ Text.IsAscii c) :
    Text.isAsciiWord c = false := by
  rw [← Bool.not_eq_true]
  exact fun word => other (Text.isAscii_of_isAsciiWord word)

theorem Text.IsInert.isAscii {c : Char} (inert : Text.IsInert c) : Text.IsAscii c := by
  rcases inert with word | glue | rfl
  · exact Text.isAscii_of_isAsciiWord word
  · exact of_decide_eq_true (Text.of_mem_glueChars (p := fun c => decide (Text.IsAscii c)) rfl glue)
  · decide

theorem isWord_of_le {b : UInt8} (large : 128 ≤ b.toNat) : Byte.isWord b = false := by
  simp only [Byte.isWord, Bool.or_eq_false_iff, decide_eq_false_iff_not, beq_eq_false_iff_ne,
    UInt8.le_iff_toNat_le, ne_eq, ← UInt8.toNat_inj, UInt8.reduceToNat]
  omega

theorem ne_ofAscii_of_le {b : UInt8} (large : 128 ≤ b.toNat) {c : Char} (ascii : Text.IsAscii c) :
    b ≠ Byte.ofAscii c := by
  rintro rfl
  have value : (Byte.ofAscii c).toNat = c.toNat % 256 := UInt8.toNat_ofNat'
  have small : c.toNat < 128 := ascii
  omega

theorem ne_of_not_isAscii {c d : Char} (other : ¬ Text.IsAscii c) (ascii : Text.IsAscii d) :
    c ≠ d := by
  rintro rfl
  exact other ascii

theorem ofAscii_inj {c d : Char} (ascii : Text.IsAscii c) (ascii' : Text.IsAscii d) :
    Byte.ofAscii c = Byte.ofAscii d ↔ c = d := by
  constructor
  · intro same
    have value : c.toNat % 256 = d.toNat % 256 := congrArg UInt8.toNat same
    have small : c.toNat < 128 := ascii
    have small' : d.toNat < 128 := ascii'
    have code : c.toNat = d.toNat := by omega
    exact Char.toNat_inj.1 code
  · exact congrArg Byte.ofAscii

/-- No byte of a character is another ASCII character. -/
theorem ne_ofAscii_of_mem {c d : Char} (ascii_d : Text.IsAscii d) (differ : c ≠ d) {b : UInt8}
    (mem : b ∈ String.utf8EncodeChar c) : b ≠ Byte.ofAscii d := by
  rcases ascii_or_of_mem_utf8EncodeChar mem with ⟨ascii, rfl⟩ | ⟨-, large⟩
  · rw [ne_eq, ofAscii_inj ascii ascii_d]
    exact differ
  · exact ne_ofAscii_of_le large ascii_d

/-- That a character is no word character, and not a certain other one, is told from its bytes. -/
theorem free_of_mem_utf8EncodeChar {brace : Char} (ascii_brace : Text.IsAscii brace) {c : Char}
    {b : UInt8} (mem : b ∈ String.utf8EncodeChar c) :
    (!Byte.isWord b && b != Byte.ofAscii brace) = (!Text.isAsciiWord c && c != brace) := by
  rcases ascii_or_of_mem_utf8EncodeChar mem with ⟨ascii, rfl⟩ | ⟨other, large⟩
  · have word : Byte.isWord (Byte.ofAscii c) = Text.isAsciiWord c :=
      eq_of_beq (Text.forall_isAscii
        (p := fun c => Byte.isWord (Byte.ofAscii c) == Text.isAsciiWord c) rfl ascii)
    have differ : (Byte.ofAscii c != Byte.ofAscii brace) = (c != brace) := by
      rw [Bool.eq_iff_iff, bne_iff_ne, bne_iff_ne, ne_eq, ne_eq, ofAscii_inj ascii ascii_brace]
    rw [word, differ]
  · rw [isWord_of_le large, isAsciiWord_of_not_isAscii other,
      bne_iff_ne.2 (ne_ofAscii_of_le large ascii_brace),
      bne_iff_ne.2 (ne_of_not_isAscii other ascii_brace)]

theorem toLower_of_not_isAscii {c : Char} (other : ¬ Text.IsAscii c) : c.toLower = c := by
  rcases Text.toLower_eq_or c with same | ⟨letter, -⟩
  · exact same
  · exact absurd (Text.isInert_of_isAlpha letter).isAscii other

theorem Byte.toLower_of_le {b : UInt8} (large : 128 ≤ b.toNat) : Byte.toLower b = b := by
  rw [Byte.toLower, if_neg]
  rintro ⟨-, small⟩
  have bound : b.toNat ≤ 90 := small
  omega

namespace Text

/-! ### Bytes of texts -/

@[simp] theorem bytes_nil : bytes [] = [] :=
  rfl

theorem bytes_cons (c : Char) (t : Text) : bytes (c :: t) = String.utf8EncodeChar c ++ bytes t :=
  rfl

@[simp] theorem bytes_append (x y : Text) : bytes (x ++ y) = bytes x ++ bytes y :=
  List.flatMap_append

theorem bytes_cons_of_isAscii {c : Char} (ascii : Text.IsAscii c) (t : Text) :
    bytes (c :: t) = Byte.ofAscii c :: bytes t := by
  rw [bytes_cons, utf8EncodeChar_of_isAscii ascii]
  rfl

theorem length_bytes_cons (c : Char) (t : Text) :
    (bytes (c :: t)).length = c.utf8Size + (bytes t).length := by
  rw [bytes_cons, List.length_append, String.length_utf8EncodeChar]

/-- A text is split behind the bytes of its start. -/
theorem splitBytes_append (x y : Text) : splitBytes (bytes x).length (x ++ y) = (x, y) := by
  induction x with
  | nil => simp [splitBytes]
  | cons c x ih =>
    obtain ⟨n, positive⟩ := Nat.exists_eq_succ_of_ne_zero (Nat.ne_of_gt c.utf8Size_pos)
    have size : (bytes (c :: x)).length = n + (bytes x).length + 1 := by
      rw [length_bytes_cons, positive]
      omega
    have ahead : n + (bytes x).length + 1 - c.utf8Size = (bytes x).length := by omega
    rw [size, List.cons_append, splitBytes, ahead, ih]

/-- The byte in front of what follows a character. -/
def lastByte? (before : Option Char) : Option UInt8 :=
  before.bind fun c => (String.utf8EncodeChar c).getLast?

end Text

namespace Byte

open Text

/-- The byte in front of what follows bytes. -/
theorem getLast?_cons_or (b : UInt8) (front : List UInt8) (before : Option UInt8) :
    (b :: front).getLast?.or before = front.getLast?.or (some b) := by
  rw [List.getLast?_cons]
  cases front.getLast? <;> rfl

theorem all_lastByte? (p : UInt8 → Bool) (q : Char → Bool)
    (same : ∀ {c b}, b ∈ String.utf8EncodeChar c → p b = q c) (before : Option Char) :
    (lastByte? before).all p = before.all q := by
  cases before with
  | none => rfl
  | some c =>
    have nonempty : String.utf8EncodeChar c ≠ [] := String.utf8EncodeChar_ne_nil
    have found : lastByte? (some c) = some ((String.utf8EncodeChar c).getLast nonempty) :=
      List.getLast?_eq_some_getLast nonempty
    rw [found, Option.all_some, Option.all_some, same (List.getLast_mem nonempty)]

theorem all_head?_bytes (p : UInt8 → Bool) (q : Char → Bool)
    (same : ∀ {c b}, b ∈ String.utf8EncodeChar c → p b = q c) (t : Text) :
    (bytes t).head?.all p = t.head?.all q := by
  cases t with
  | nil => rfl
  | cons c t =>
    obtain ⟨b, rest, split⟩ := List.exists_cons_of_ne_nil (String.utf8EncodeChar_ne_nil (c := c))
    have mem : b ∈ String.utf8EncodeChar c := by simp [split]
    rw [bytes_cons, split]
    exact same mem

theorem standsAlone_eq (before : Option Char) (rest : Text) :
    standsAlone (lastByte? before) (bytes rest).head? = Text.standsAlone before rest.head? := by
  rw [standsAlone, all_lastByte? _ mayPrecedeKeyword (free_of_mem_utf8EncodeChar (by decide)),
    all_head?_bytes _ mayFollowKeyword (free_of_mem_utf8EncodeChar (by decide))]
  rfl

/-- Letter case is told from the bytes as from the characters. -/
theorem toLower_beq_of_mem {a : Char} (ascii_a : Text.IsAscii a) {c : Char} {b : UInt8}
    (mem : b ∈ String.utf8EncodeChar c) :
    (toLower (ofAscii a) == toLower b) = agree true a c := by
  have lower : ∀ {d : Char}, Text.IsAscii d → toLower (ofAscii d) = ofAscii d.toLower :=
    fun ascii => eq_of_beq (Text.forall_isAscii
      (p := fun d => toLower (ofAscii d) == ofAscii d.toLower) rfl ascii)
  have closed : ∀ {d : Char}, Text.IsAscii d → Text.IsAscii d.toLower :=
    fun ascii => of_decide_eq_true (Text.forall_isAscii
      (p := fun d => decide (Text.IsAscii d.toLower)) rfl ascii)
  rcases ascii_or_of_mem_utf8EncodeChar mem with ⟨ascii, rfl⟩ | ⟨other, large⟩
  · rw [lower ascii_a, lower ascii, agree, if_pos rfl, Bool.eq_iff_iff, beq_iff_eq, beq_iff_eq,
      ofAscii_inj (closed ascii_a) (closed ascii)]
  · rw [lower ascii_a, toLower_of_le large, agree, if_pos rfl, toLower_of_not_isAscii other,
      beq_eq_false_iff_ne.2 (ne_ofAscii_of_le large (closed ascii_a)).symm,
      beq_eq_false_iff_ne.2 (ne_of_not_isAscii other (closed ascii_a)).symm]

/-- Whether an ASCII character agrees with another one is told from the first byte of that. -/
theorem agree_of_mem {a : Char} (ascii_a : Text.IsAscii a) (ignoreCase : Bool) {c : Char}
    {b : UInt8} (mem : b ∈ String.utf8EncodeChar c) :
    (if ignoreCase then toLower (ofAscii a) == toLower b else ofAscii a == b)
      = agree ignoreCase a c := by
  cases ignoreCase with
  | true => exact toLower_beq_of_mem ascii_a mem
  | false =>
    rw [if_neg Bool.false_ne_true, agree, if_neg Bool.false_ne_true, Bool.eq_iff_iff, beq_iff_eq,
      beq_iff_eq]
    rcases ascii_or_of_mem_utf8EncodeChar mem with ⟨ascii, rfl⟩ | ⟨other, large⟩
    · exact ofAscii_inj ascii_a ascii
    · constructor
      · intro same
        exact absurd same.symm (ne_ofAscii_of_le large ascii_a)
      · intro same
        exact absurd same.symm (ne_of_not_isAscii other ascii_a)

/-- A byte of a character that is not ASCII starts nothing that is. -/
theorem after?_foreign {start : Text} (ascii : start ≠ [] ∧ ∀ a ∈ start, Text.IsAscii a) {c : Char}
    (other : ¬ Text.IsAscii c) {b : UInt8} (mem : b ∈ String.utf8EncodeChar c) (ignoreCase : Bool)
    (rest : List UInt8) : after? ignoreCase (bytes start) (b :: rest) = none := by
  obtain ⟨a, more, rfl⟩ := List.exists_cons_of_ne_nil ascii.1
  have ascii_a := ascii.2 a (List.mem_cons_self ..)
  have differ : agree ignoreCase a c = false := by
    rw [← Bool.not_eq_true]
    exact fun same => other (isAscii_of_agree ascii_a same)
  rw [bytes_cons_of_isAscii ascii_a, after?, agree_of_mem ascii_a ignoreCase mem, differ]
  rfl

/-- What ASCII bytes stand in front of is told from the text. -/
theorem after?_bytes {start : Text} (ascii : ∀ a ∈ start, Text.IsAscii a) (ignoreCase : Bool)
    (t : Text) :
    after? ignoreCase (bytes start) (bytes t) = (Text.after? ignoreCase start t).map bytes := by
  induction start generalizing t with
  | nil => rfl
  | cons a start ih =>
    have ascii_a := ascii a (List.mem_cons_self ..)
    rw [bytes_cons_of_isAscii ascii_a]
    cases t with
    | nil => rfl
    | cons c t =>
      obtain ⟨b, rest, split⟩ := List.exists_cons_of_ne_nil (String.utf8EncodeChar_ne_nil (c := c))
      have same := agree_of_mem ascii_a ignoreCase (c := c) (b := b) (by simp [split])
      rw [bytes_cons, split, List.cons_append, after?, same, Text.after?]
      split
      · rename_i first
        have single : Text.IsAscii c := isAscii_of_agree ascii_a first
        rw [utf8EncodeChar_of_isAscii single] at split
        obtain ⟨rfl, rfl⟩ := List.cons.inj split
        exact ih (fun d mem => ascii d (List.mem_cons_of_mem _ mem)) t
      · rfl

end Byte

end RecordMapper
