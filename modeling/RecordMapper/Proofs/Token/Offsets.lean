import RecordMapper.Proofs.Token.Boundaries

/-!
Byte offsets of a text.

A text may be cut at an offset at which a character begins or the text ends (`Text.IsBoundary`), and
nowhere else: `Text.cut?` fails beyond the text and within a character. The slices that a scanner
takes by its offsets are `Text.upTo?`, `Text.from?` and `Text.between?`; each of them is found behind
the bytes of a start of the text.
-/

namespace RecordMapper.Text

/-! ### Cutting a text -/

/-- A character begins at the offset, or the text ends there. -/
def IsBoundary (t : Text) (offset : Nat) : Prop :=
  ∃ front behind, t = front ++ behind ∧ offset = (bytes front).length

/-- Cuts a text in two at a byte offset; there is nothing beyond the text and within a character. -/
def cut? : (offset : Nat) → Text → Option (Text × Text)
  | 0, t => some ([], t)
  | _ + 1, [] => none
  | n + 1, c :: t =>
    if c.utf8Size ≤ n + 1 then
      (cut? (n + 1 - c.utf8Size) t).map fun (front, behind) => (c :: front, behind)
    else none

/-- The text up to an offset. -/
def upTo? (offset : Nat) (t : Text) : Option Text :=
  (cut? offset t).map Prod.fst

/-- The text from an offset on. -/
def from? (offset : Nat) (t : Text) : Option Text :=
  (cut? offset t).map Prod.snd

/-- The text between two offsets. -/
def between? (start stop : Nat) (t : Text) : Option Text :=
  (upTo? stop t).bind (from? start)

theorem drop_bytes (front rest : Text) :
    (bytes (front ++ rest)).drop (bytes front).length = bytes rest := by
  rw [bytes_append, List.drop_left]

/-- A text is cut behind the bytes of its start. -/
theorem cut?_append (front behind : Text) :
    cut? (bytes front).length (front ++ behind) = some (front, behind) := by
  induction front with
  | nil => rw [bytes_nil, List.length_nil, cut?]; rfl
  | cons c front ih =>
    obtain ⟨n, size⟩ := Nat.exists_eq_succ_of_ne_zero (Nat.ne_of_gt c.utf8Size_pos)
    have offset : (bytes (c :: front)).length = n + (bytes front).length + 1 := by
      rw [length_bytes_cons, size]
      omega
    have ahead : n + (bytes front).length + 1 - c.utf8Size = (bytes front).length := by omega
    rw [offset, List.cons_append, cut?, if_pos (by omega), ahead, ih]
    rfl

theorem cut?_eq_some_iff {offset : Nat} {t front behind : Text} :
    cut? offset t = some (front, behind) ↔
      t = front ++ behind ∧ offset = (bytes front).length := by
  constructor
  · intro found
    induction t generalizing offset front with
    | nil =>
      cases offset with
      | zero =>
        cases found
        exact ⟨rfl, rfl⟩
      | succ n => cases found
    | cons c t ih =>
      cases offset with
      | zero =>
        cases found
        exact ⟨rfl, rfl⟩
      | succ n =>
        rw [cut?] at found
        split at found
        · obtain ⟨⟨front', behind'⟩, later, same⟩ := Option.map_eq_some_iff.1 found
          cases same
          obtain ⟨rfl, size⟩ := ih later
          refine ⟨rfl, ?_⟩
          rw [length_bytes_cons]
          omega
        · cases found
  · rintro ⟨rfl, rfl⟩
    exact cut?_append front behind

theorem upTo?_append (front behind : Text) :
    upTo? (bytes front).length (front ++ behind) = some front := by
  rw [upTo?, cut?_append]
  rfl

theorem from?_append (front behind : Text) :
    from? (bytes front).length (front ++ behind) = some behind := by
  rw [from?, cut?_append]
  rfl

theorem length_bytes_eq_zero_iff {t : Text} : (bytes t).length = 0 ↔ t = [] := by
  cases t with
  | nil => exact iff_of_true rfl rfl
  | cons c t =>
    have positive := c.utf8Size_pos
    rw [length_bytes_cons]
    exact iff_of_false (by omega) (List.cons_ne_nil c t)

theorem length_bytes_concat (front : Text) (c : Char) :
    (bytes (front ++ [c])).length = (bytes front).length + c.utf8Size := by
  rw [bytes_append, List.length_append, length_bytes_cons]
  rfl

/-- What stands behind a character. -/
theorem from?_cons_append (front : Text) (c : Char) (rest : Text) :
    from? ((bytes front).length + c.utf8Size) (front ++ c :: rest) = some rest := by
  have found := from?_append (front ++ [c]) rest
  rwa [length_bytes_concat, List.append_assoc] at found

theorem upTo?_eq_some_iff {offset : Nat} {t front : Text} :
    upTo? offset t = some front ↔ ∃ behind, t = front ++ behind ∧ offset = (bytes front).length := by
  simp only [upTo?, Option.map_eq_some_iff, Prod.exists, cut?_eq_some_iff]
  constructor
  · rintro ⟨_, behind, split, rfl⟩
    exact ⟨behind, split⟩
  · rintro ⟨behind, split⟩
    exact ⟨front, behind, split, rfl⟩

theorem from?_eq_some_iff {offset : Nat} {t behind : Text} :
    from? offset t = some behind ↔ ∃ front, t = front ++ behind ∧ offset = (bytes front).length := by
  simp only [from?, Option.map_eq_some_iff, Prod.exists, cut?_eq_some_iff]
  constructor
  · rintro ⟨front, _, split, rfl⟩
    exact ⟨front, split⟩
  · rintro ⟨front, split⟩
    exact ⟨front, behind, split, rfl⟩

/-- The text between two offsets stands between their starts. -/
theorem between?_append (front middle behind : Text) :
    between? (bytes front).length ((bytes front).length + (bytes middle).length)
      (front ++ (middle ++ behind)) = some middle := by
  have stop := upTo?_append (front ++ middle) behind
  rw [List.append_assoc, bytes_append, List.length_append] at stop
  rw [between?, stop]
  exact from?_append front middle

/-- A text can be cut exactly at its boundaries. -/
theorem isBoundary_iff {t : Text} {offset : Nat} :
    t.IsBoundary offset ↔ (cut? offset t).isSome = true := by
  rw [Option.isSome_iff_exists, Prod.exists]
  simp only [cut?_eq_some_iff]
  rfl

/-! ### Bytes in front of a boundary -/

/-- The byte of an ASCII character occurs only where the character does. -/
theorem exists_of_byte {c : Char} (ascii : IsAscii c) {t : Text} {offset : Nat}
    (found : (bytes t)[offset]? = some (Byte.ofAscii c)) :
    ∃ front rest, t = front ++ c :: rest ∧ offset = (bytes front).length := by
  obtain ⟨inside, here⟩ := List.getElem?_eq_some_iff.1 found
  have whole : bytes t
      = (bytes t).take offset ++ (bytes [c] ++ (bytes t).drop (offset + 1)) := by
    rw [bytes_cons_of_isAscii ascii, ← here, bytes_nil, List.singleton_append,
      List.getElem_cons_drop, List.take_append_drop]
  obtain ⟨front, rest, rfl, same⟩ := exists_of_bytes_eq whole
  refine ⟨front, rest, rfl, ?_⟩
  rw [same, List.length_take, Nat.min_eq_left (Nat.le_of_lt inside)]

/-- Bytes that agree with those of a text begin and end at boundaries. -/
theorem isBoundary_of_after?_bytes {ignoreCase : Bool} {start t : Text} (nonempty : start ≠ [])
    {front tail rest : List UInt8} (whole : bytes t = front ++ tail)
    (found : Byte.after? ignoreCase (bytes start) tail = some rest) :
    t.IsBoundary front.length ∧ t.IsBoundary (front.length + (bytes start).length) := by
  obtain ⟨before, word, behind, rfl, rfl, -, agrees⟩ := exists_of_after?_bytes nonempty whole found
  refine ⟨⟨before, word ++ behind, rfl, rfl⟩, before ++ word, behind, by simp, ?_⟩
  rw [bytes_append, List.length_append, length_bytes_of_agree agrees]

end RecordMapper.Text
