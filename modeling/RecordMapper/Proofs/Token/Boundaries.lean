import RecordMapper.Proofs.Token.Span

/-!
Where the bytes of a delimiter stand in a text.

No character begins within the bytes of another one, so that the bytes of a text that is not empty
occur only where the text itself does (`Text.exists_of_bytes_eq`). Letter case is ignored byte by
byte, which changes ASCII letters only; so the same holds of bytes that agree with those of a text up
to letter case (`Text.exists_of_after?_bytes`).

The search for the close of a span may leave the boundaries of characters in between, behind an
escape or a quote that is one byte of a longer character; it stops at the bytes of the closing
delimiter all the same, and so at the delimiter. What a span encloses, its closing delimiter as it is
written, and the rest make up the text (`Span.exists_of_closePosition?`).
-/

namespace RecordMapper

namespace Text

/-! ### Bytes of texts -/

/-- The bytes in front tell the first character. -/
theorem eq_of_utf8EncodeChar_append {c d : Char} {front rest : List UInt8}
    (same : String.utf8EncodeChar c ++ front = String.utf8EncodeChar d ++ rest) : c = d := by
  have decoded : ∀ (c : Char) (rest : List UInt8),
      (String.utf8EncodeChar c ++ rest).toByteArray.utf8DecodeChar? 0 = some c := by
    intro c rest
    rw [List.toByteArray_append]
    exact ByteArray.utf8DecodeChar?_utf8EncodeChar_append
  exact Option.some.inj ((decoded c front).symm.trans (same ▸ decoded d rest))

/-- A text whose bytes start with those of another one starts with that. -/
theorem exists_of_bytes_eq_append {t x : Text} {rest : List UInt8}
    (starts : bytes t = bytes x ++ rest) : ∃ behind, t = x ++ behind ∧ bytes behind = rest := by
  induction x generalizing t with
  | nil => exact ⟨t, rfl, starts⟩
  | cons c x ih =>
    cases t with
    | nil =>
      have lengths := congrArg List.length starts
      rw [List.length_append, length_bytes_cons] at lengths
      have positive := c.utf8Size_pos
      simp only [bytes_nil, List.length_nil] at lengths
      omega
    | cons d t =>
      rw [bytes_cons, bytes_cons, List.append_assoc] at starts
      obtain rfl := eq_of_utf8EncodeChar_append starts
      obtain ⟨behind, rfl, same⟩ := ih (List.append_cancel_left starts)
      exact ⟨behind, rfl, same⟩

/-- The first byte of a character is no other byte of a character. -/
theorem eq_nil_of_first_byte {c d : Char} {b : UInt8} {more front within : List UInt8}
    (first : String.utf8EncodeChar c = b :: more)
    (inside : String.utf8EncodeChar d = front ++ b :: within) : front = [] := by
  have begins : b.IsUTF8FirstByte := by
    have index := (@UInt8.isUTF8FirstByte_getElem_utf8EncodeChar c 0 (by simp [first])).2 rfl
    simpa [first] using index
  have place :=
    @UInt8.isUTF8FirstByte_getElem_utf8EncodeChar d front.length (by simp [inside])
  simp only [inside, List.getElem_append_right (Nat.le_refl _), Nat.sub_self,
    List.getElem_cons_zero] at place
  exact List.eq_nil_of_length_eq_zero (place.1 begins)

/-- **The bytes of a text that is not empty occur only where the text does.** -/
theorem exists_of_bytes_eq {t : Text} {c : Char} {x : Text} {front rest : List UInt8}
    (occurs : bytes t = front ++ (bytes (c :: x) ++ rest)) :
    ∃ before behind, t = before ++ (c :: x ++ behind) ∧ bytes before = front := by
  induction t generalizing front with
  | nil =>
    obtain ⟨-, none⟩ := List.append_eq_nil_iff.1 occurs.symm
    rw [bytes_cons] at none
    simp [String.utf8EncodeChar_ne_nil] at none
  | cons d t ih =>
    cases front with
    | nil =>
      obtain ⟨behind, split, -⟩ := exists_of_bytes_eq_append occurs
      exact ⟨[], behind, split, rfl⟩
    | cons b front =>
      rw [bytes_cons] at occurs
      -- the first character ends before the occurrence, or the occurrence begins within it
      rcases List.append_eq_append_iff.1 occurs with ⟨later, split, ahead⟩ | ⟨within, split, ahead⟩
      · obtain ⟨before, behind, rfl, same⟩ := ih ahead
        exact ⟨d :: before, behind, rfl, by rw [bytes_cons, same, split]⟩
      · cases within with
        | nil =>
          obtain ⟨before, behind, rfl, same⟩ := @ih [] (by simpa using ahead.symm)
          exact ⟨d :: before, behind, rfl, by simp [bytes_cons, same, split]⟩
        | cons e within =>
          obtain ⟨first, more, begins⟩ :=
            List.exists_cons_of_ne_nil (String.utf8EncodeChar_ne_nil (c := c))
          rw [bytes_cons, begins] at ahead
          obtain ⟨rfl, -⟩ := List.cons.inj ahead
          cases eq_nil_of_first_byte begins split

/-! ### Letter case -/

/-- A character as it is compared: without its case, if that is ignored. -/
def caseless (ignoreCase : Bool) (c : Char) : Char :=
  if ignoreCase then c.toLower else c

theorem agree_iff {ignoreCase : Bool} {a b : Char} :
    agree ignoreCase a b = true ↔ caseless ignoreCase a = caseless ignoreCase b := by
  cases ignoreCase <;> simp [agree, caseless]

theorem forall₂_agree_iff {ignoreCase : Bool} {x y : Text} :
    List.Forall₂ (fun a b => agree ignoreCase a b = true) x y ↔
      x.map (caseless ignoreCase) = y.map (caseless ignoreCase) := by
  simp only [agree_iff]
  rw [← List.forall₂_eq_eq_eq, List.forall₂_map_left_iff, List.forall₂_map_right_iff]

end Text

/-- A byte as it is compared: without its case, if that is ignored. -/
def Byte.caseless (ignoreCase : Bool) (b : UInt8) : UInt8 :=
  if ignoreCase then Byte.toLower b else b

/-- The case of a character is ignored byte by byte. -/
theorem utf8EncodeChar_caseless (ignoreCase : Bool) (c : Char) :
    String.utf8EncodeChar (Text.caseless ignoreCase c)
      = (String.utf8EncodeChar c).map (Byte.caseless ignoreCase) := by
  cases ignoreCase with
  | false => exact (List.map_id' _).symm
  | true =>
    show String.utf8EncodeChar c.toLower = (String.utf8EncodeChar c).map Byte.toLower
    by_cases ascii : Text.IsAscii c
    · have lower : String.utf8EncodeChar c.toLower = [Byte.toLower (Byte.ofAscii c)] :=
        eq_of_beq (Text.forall_isAscii (p := fun c =>
          String.utf8EncodeChar c.toLower == [Byte.toLower (Byte.ofAscii c)]) rfl ascii)
      rw [lower, utf8EncodeChar_of_isAscii ascii]
      rfl
    · rw [toLower_of_not_isAscii ascii, eq_comm]
      refine (List.map_congr_left fun b mem => ?_).trans (List.map_id' _)
      exact Byte.toLower_of_le (le_of_mem_utf8EncodeChar ascii mem)

theorem Byte.after?_cons (ignoreCase : Bool) (a b : UInt8) (start bytes : List UInt8) :
    after? ignoreCase (a :: start) (b :: bytes)
      = if caseless ignoreCase a = caseless ignoreCase b then after? ignoreCase start bytes
        else none := by
  cases ignoreCase <;> simp [after?, caseless]

/-- What bytes stand in front of, if letter case may be ignored. -/
theorem Byte.after?_eq_some_iff {ignoreCase : Bool} {start bytes rest : List UInt8} :
    after? ignoreCase start bytes = some rest ↔
      ∃ word, bytes = word ++ rest
        ∧ start.map (caseless ignoreCase) = word.map (caseless ignoreCase) := by
  induction start generalizing bytes with
  | nil =>
    constructor
    · intro found
      cases found
      exact ⟨[], rfl, rfl⟩
    · rintro ⟨word, rfl, none⟩
      rw [List.map_eq_nil_iff.1 none.symm]
      rfl
  | cons a start ih =>
    cases bytes with
    | nil =>
      refine iff_of_false nofun ?_
      rintro ⟨word, whole, all⟩
      obtain ⟨rfl, -⟩ := List.append_eq_nil_iff.1 whole.symm
      cases all
    | cons b bytes =>
      rw [after?_cons]
      split
      · rename_i first
        rw [ih]
        constructor
        · rintro ⟨word, rfl, others⟩
          exact ⟨b :: word, rfl, by rw [List.map_cons, List.map_cons, first, others]⟩
        · rintro ⟨word, whole, all⟩
          obtain ⟨d, word, rfl, -, others⟩ := List.map_eq_cons_iff.1 all.symm
          obtain ⟨rfl, rfl⟩ := List.cons.inj whole
          exact ⟨word, rfl, others.symm⟩
      · rename_i differ
        refine iff_of_false nofun ?_
        rintro ⟨word, whole, all⟩
        obtain ⟨d, word, rfl, first, -⟩ := List.map_eq_cons_iff.1 all.symm
        obtain ⟨rfl, -⟩ := List.cons.inj whole
        exact differ first.symm

namespace Text

theorem bytes_map_caseless (ignoreCase : Bool) (t : Text) :
    bytes (t.map (caseless ignoreCase)) = (bytes t).map (Byte.caseless ignoreCase) := by
  induction t with
  | nil => rfl
  | cons c t ih =>
    rw [List.map_cons, bytes_cons, bytes_cons, List.map_append, ih, utf8EncodeChar_caseless]

/-- Texts that agree up to letter case have equally many bytes. -/
theorem length_bytes_of_agree {ignoreCase : Bool} {x y : Text}
    (agrees : List.Forall₂ (fun a b => agree ignoreCase a b = true) x y) :
    (bytes y).length = (bytes x).length := by
  have same := congrArg (fun t => (bytes t).length) (forall₂_agree_iff.1 agrees)
  simpa only [bytes_map_caseless, List.length_map] using same.symm

/-- The bytes of a text stand in front of what follows a text that agrees with it. -/
theorem after?_bytes_of_agree {ignoreCase : Bool} {start word : Text}
    (agrees : List.Forall₂ (fun a b => agree ignoreCase a b = true) start word)
    (rest : List UInt8) :
    Byte.after? ignoreCase (bytes start) (bytes word ++ rest) = some rest := by
  refine Byte.after?_eq_some_iff.2 ⟨bytes word, rfl, ?_⟩
  rw [← bytes_map_caseless, ← bytes_map_caseless, forall₂_agree_iff.1 agrees]

/-- **Bytes that agree with those of a text that is not empty occur only where a text does that
agrees with it.** -/
theorem exists_of_after?_bytes {ignoreCase : Bool} {start t : Text} (nonempty : start ≠ [])
    {front tail rest : List UInt8} (whole : bytes t = front ++ tail)
    (found : Byte.after? ignoreCase (bytes start) tail = some rest) :
    ∃ before word behind, t = before ++ (word ++ behind) ∧ bytes before = front
      ∧ bytes behind = rest
      ∧ List.Forall₂ (fun a b => agree ignoreCase a b = true) start word := by
  obtain ⟨w, rfl, same⟩ := Byte.after?_eq_some_iff.1 found
  have lowered : bytes (t.map (caseless ignoreCase))
      = front.map (Byte.caseless ignoreCase)
        ++ (bytes (start.map (caseless ignoreCase)) ++ rest.map (Byte.caseless ignoreCase)) := by
    rw [bytes_map_caseless, bytes_map_caseless, whole, List.map_append, List.map_append, same]
  obtain ⟨c, x, cons⟩ := List.exists_cons_of_ne_nil nonempty
  have cons' : start.map (caseless ignoreCase)
      = caseless ignoreCase c :: x.map (caseless ignoreCase) := by rw [cons, List.map_cons]
  rw [cons'] at lowered
  obtain ⟨before', behind', split, ends⟩ := exists_of_bytes_eq lowered
  obtain ⟨before, tail, rfl, rfl, split'⟩ := List.map_eq_append_iff.1 split
  obtain ⟨word, behind, rfl, spelled, -⟩ := List.map_eq_append_iff.1 split'
  have agrees : List.Forall₂ (fun a b => agree ignoreCase a b = true) start word :=
    forall₂_agree_iff.2 (cons'.trans spelled.symm)
  -- case does not change how many bytes there are, so the parts are as long as those of the bytes
  have length : (bytes before).length = front.length := by
    simpa only [bytes_map_caseless, List.length_map] using congrArg List.length ends
  have length' : (bytes word).length = w.length := by
    have all := congrArg List.length same
    rw [List.length_map, List.length_map] at all
    rw [length_bytes_of_agree agrees, all]
  rw [bytes_append, bytes_append] at whole
  obtain ⟨front_eq, whole⟩ := List.append_inj whole length
  exact ⟨before, word, behind, rfl, front_eq, (List.append_inj whole length').2, agrees⟩

end Text

/-! ### The search for the close -/

namespace Span

open Text

variable {s : Span}

/-- **The search stops at bytes of the closing delimiter**, whatever it passes, hides and counts on
its way. -/
theorem exists_of_closeFrom? {depth skip position start stop : Nat} {quoted : Bool}
    {before : Option UInt8} {all : List UInt8}
    (found : closeFrom? s depth skip quoted before position all = some (start, stop)) :
    ∃ front tail rest, all = front ++ tail
      ∧ Byte.after? s.keyword (bytes s.closing) tail = some rest
      ∧ start = position + front.length ∧ stop = start + (bytes s.closing).length := by
  induction all generalizing depth skip quoted before position with
  | nil => cases found
  | cons b all ih =>
    have passed : ∀ {depth skip : Nat} {quoted : Bool},
        closeFrom? s depth skip quoted (some b) (position + 1) all = some (start, stop) →
        ∃ front tail rest, b :: all = front ++ tail
          ∧ Byte.after? s.keyword (bytes s.closing) tail = some rest
          ∧ start = position + front.length ∧ stop = start + (bytes s.closing).length := by
      intro depth skip quoted later
      obtain ⟨front, tail, rest, rfl, closing, first, last⟩ := ih later
      refine ⟨b :: front, tail, rest, rfl, closing, ?_, last⟩
      rw [List.length_cons]
      omega
    cases skip with
    | succ skip =>
      rw [closeFrom?] at found
      exact passed found
    | zero =>
      cases quoted with
      | true =>
        rw [closeFrom?] at found
        split at found <;> exact passed found
      | false =>
        rw [closeFrom?] at found
        split at found
        · exact passed found
        split at found
        · exact passed found
        split at found
        · rename_i closing
          unfold delimits at closing
          split at closing
          · rename_i rest here
            dsimp only at found
            split at found
            · cases found
              exact ⟨[], b :: all, rest, rfl, here, rfl, rfl⟩
            · rename_i none
              cases found
              exact ⟨[], b :: all, rest, rfl, here, rfl, by rw [none]⟩
            · exact passed found
          · cases closing
        · split at found <;> exact passed found

/-- **What a span encloses, its closing delimiter as it is written, and the rest make up the
text.** -/
theorem exists_of_closePosition? (closing : s.closing ≠ []) {t : Text} {start stop : Nat}
    (found : s.closePosition? t = some (start, stop)) :
    ∃ inner word behind, t = inner ++ (word ++ behind)
      ∧ List.Forall₂ (fun a b => agree s.keyword a b = true) s.closing word
      ∧ start = (bytes inner).length ∧ stop = (bytes (inner ++ word)).length := by
  obtain ⟨front, tail, rest, whole, closes, first, last⟩ := exists_of_closeFrom? found
  obtain ⟨inner, word, behind, rfl, same, -, agrees⟩ := exists_of_after?_bytes closing whole closes
  rw [Nat.zero_add, ← same] at first
  refine ⟨inner, word, behind, rfl, agrees, first, ?_⟩
  rw [last, first, bytes_append, List.length_append, length_bytes_of_agree agrees]

/-- A text is split where its span is closed. -/
theorem close?_of_closePosition? {inner word behind : Text}
    (found : s.closePosition? (inner ++ (word ++ behind))
      = some ((bytes inner).length, (bytes (inner ++ word)).length)) :
    s.close? (inner ++ (word ++ behind)) = some (inner, behind) := by
  have start := splitBytes_append inner (word ++ behind)
  have stop := splitBytes_append (inner ++ word) behind
  rw [List.append_assoc] at stop
  simp only [close?, found, Option.map_some, start, stop]

theorem exists_of_close?_eq_some (closing : s.closing ≠ []) {t inner behind : Text}
    (closed : s.close? t = some (inner, behind)) :
    ∃ word, t = inner ++ (word ++ behind)
      ∧ List.Forall₂ (fun a b => agree s.keyword a b = true) s.closing word := by
  obtain ⟨⟨start, stop⟩, found, -⟩ := Option.map_eq_some_iff.1 closed
  obtain ⟨inner', word, behind', rfl, agrees, rfl, rfl⟩ := exists_of_closePosition? closing found
  obtain ⟨rfl, rfl⟩ := Prod.mk.inj (Option.some.inj ((close?_of_closePosition? found).symm.trans closed))
  exact ⟨word, rfl, agrees⟩

/-- Letter case counting, the closing delimiter stands between what a span encloses and the rest. -/
theorem eq_append_of_close? (plain : s.keyword = false) (closing : s.closing ≠ [])
    {t inner behind : Text} (closed : s.close? t = some (inner, behind)) :
    t = inner ++ (s.closing ++ behind) := by
  obtain ⟨word, whole, agrees⟩ := exists_of_close?_eq_some closing closed
  rw [plain] at agrees
  rw [whole, eq_of_forall₂_agree agrees]

end Span

end RecordMapper
