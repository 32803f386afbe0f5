import RecordMapper.Proofs.Query.Placeholders
import RecordMapper.Proofs.Query.Substitution

/-!
Values spliced in for placeholders.

`Bindings.substitute` goes through the whole text once for each binding, so the text that one
binding leaves is read again for the next. A `Template` is a text taken apart before anything is put
into it: its slots are characters and the placeholders of bound names, read from left to right, and
`Bindings.splice` puts a value into each of them and looks at nothing twice. The two differ where a
value brings a percent sign along, where two placeholders share one, and where a value makes a name
of what stands around its placeholder. Elsewhere **substitution is one splice, whatever the order in
which the names were bound** (`Bindings.substitute_order_irrelevant`).
-/

namespace RecordMapper

open Text

/-! ### Templates -/

/-- A character of a text, or a place for a value. -/
inductive Slot where
  | char (c : Char)
  | hole (name : String)
  deriving DecidableEq, Repr

/-- A text with places for values. -/
abbrev Template := List Slot

namespace Template

/-- What a slot becomes if `fill` says what is put for each name. -/
def writeSlot (fill : String → Text) : Slot → Text
  | .char c => [c]
  | .hole name => fill name

/-- The text of a template with something put into each hole. -/
def write (fill : String → Text) (x : Template) : Text :=
  x.flatMap (writeSlot fill)

/-- The text of a template: a placeholder stands in each hole. -/
def text (x : Template) : Text :=
  x.write Bindings.placeholder

variable {fill : String → Text}

@[simp] theorem write_nil : write fill [] = [] :=
  rfl

@[simp] theorem write_char (c : Char) (x : Template) : write fill (.char c :: x) = c :: write fill x :=
  rfl

@[simp] theorem write_hole (name : String) (x : Template) :
    write fill (.hole name :: x) = fill name ++ write fill x :=
  rfl

@[simp] theorem text_nil : text [] = [] :=
  rfl

@[simp] theorem text_char (c : Char) (x : Template) : text (.char c :: x) = c :: x.text :=
  rfl

@[simp] theorem text_hole (name : String) (x : Template) :
    text (.hole name :: x) = '%' :: (name.toList ++ '%' :: x.text) := by
  simp [text, Bindings.placeholder]

theorem write_append (x y : Template) : write fill (x ++ y) = write fill x ++ write fill y :=
  List.flatMap_append

end Template

namespace Bindings

variable {b b' : Bindings}

/-! ### One splice -/

/-- The bound name whose placeholder the text starts with. -/
def nameAt? (bound : String → Bool) : Text → Option String
  | [] => none
  | c :: t =>
    let name := String.ofList (t.takeWhile (· != '%'))
    if c = '%' ∧ '%' ∈ t ∧ bound name = true then some name else none

/-- Takes a text apart from left to right; the first `skip` characters belong to a placeholder. -/
def slotsFrom (bound : String → Bool) : (skip : Nat) → Text → Template
  | _, [] => []
  | skip + 1, _ :: t => slotsFrom bound skip t
  | 0, c :: t =>
    match nameAt? bound (c :: t) with
    | some name => .hole name :: slotsFrom bound (name.length + 1) t
    | none => .char c :: slotsFrom bound 0 t

/-- The characters of a text and the placeholders of bound names in it. -/
def slots (b : Bindings) (t : Text) : Template :=
  slotsFrom b.bound 0 t

/-- What is put in the place of a name: the literal of its value, or its placeholder if it has
none. -/
def content (b : Bindings) (name : String) : Text :=
  match b.get? name with
  | some value => value.literal
  | none => placeholder name

/-- The text with the literals of the bound values in their places, in one pass: the places are
those of the text as it was, and no value is searched for placeholders. -/
def splice (b : Bindings) (t : Text) : Text :=
  (b.slots t).write b.content

/-! ### Texts whose placeholders do not meddle with each other -/

/-- The placeholders of a text keep to themselves: neither a value nor what stands around a
placeholder makes a percent sign part of another one. -/
structure Separate (b : Bindings) (t : Text) : Prop where
  /-- Names hold no percent signs. -/
  names : ∀ name, b.bound name = true → '%' ∉ name.toList
  /-- Neither do the values put in. -/
  values : ∀ name value, b.get? name = some value → placeholder name <:+: t → '%' ∉ value.literal
  /-- No percent sign belongs to two placeholders. -/
  shared : ∀ m n, b.bound m = true → b.bound n = true →
    ¬ '%' :: (m.toList ++ '%' :: (n.toList ++ ['%'])) <:+: t
  /-- Between two percent signs, what a value makes of the text around its placeholder does not
  start a bound name. -/
  beside : ∀ before name value behind m, '%' ∉ before → '%' ∉ behind → b.get? name = some value →
    '%' :: (before ++ placeholder name ++ behind ++ ['%']) <:+: t → b.bound m = true →
    ¬ before ++ value.literal ++ behind <+: m.toList

theorem Separate.of_isInfix {s t : Text} (separate : b.Separate t) (part : s <:+: t) :
    b.Separate s where
  names := separate.names
  values name value found inside := separate.values name value found (inside.trans part)
  shared m n isBound isBound' inside := separate.shared m n isBound isBound' (inside.trans part)
  beside before name value behind m free free' found inside :=
    separate.beside before name value behind m free free' found (inside.trans part)

/-- Whether placeholders keep to themselves depends on the pairs only. -/
theorem Separate.congr {t : Text} (separate : b.Separate t)
    (same : ∀ name, b'.get? name = b.get? name) : b'.Separate t := by
  have bound : b'.bound = b.bound := by
    funext name
    rw [Bindings.bound, Bindings.bound, same]
  constructor
  · rw [bound]
    exact separate.names
  · simpa only [same] using separate.values
  · rw [bound]
    exact separate.shared
  · simpa only [same, bound] using separate.beside

/-! ### Reading a text as a template -/

variable {bound : String → Bool}

theorem takeWhile_name {name : Text} (free : '%' ∉ name) (rest : Text) :
    (name ++ '%' :: rest).takeWhile (· != '%') = name := by
  refine (takeWhile_append_of_head (fun c mem => ?_) fun c first => ?_).1
  · rw [bne_iff_ne]
    rintro rfl
    exact free mem
  · cases first
    rfl

theorem nameAt?_eq_some_iff {t : Text} {name : String} :
    nameAt? bound t = some name
      ↔ bound name = true ∧ '%' ∉ name.toList ∧ placeholder name <+: t := by
  constructor
  · intro found
    cases t with
    | nil => cases found
    | cons c t =>
      simp only [nameAt?, Option.ite_none_right_eq_some] at found
      obtain ⟨⟨rfl, mem, isBound⟩, same⟩ := found
      obtain ⟨first, rest, rfl, free⟩ := List.eq_append_cons_of_mem mem
      rw [takeWhile_name free] at isBound same
      cases same
      refine ⟨isBound, by rwa [String.toList_ofList], rest, ?_⟩
      simp [placeholder]
  · rintro ⟨isBound, free, rest, rfl⟩
    simp [nameAt?, placeholder, takeWhile_name free, isBound]

/-- No placeholder of a bound name starts at a character of the template: each of them is a hole. -/
def Scanned (bound : String → Bool) : Template → Prop
  | [] => True
  | .char c :: x => nameAt? bound (c :: Template.text x) = none ∧ Scanned bound x
  | .hole name :: x => bound name = true ∧ Scanned bound x

theorem scanned_slotsFrom (skip : Nat) (t : Text) :
    (slotsFrom bound skip t).text = t.drop skip ∧ Scanned bound (slotsFrom bound skip t) := by
  induction t generalizing skip with
  | nil => exact ⟨by simp [slotsFrom], trivial⟩
  | cons c t ih =>
    cases skip with
    | succ skip => exact ih skip
    | zero =>
      rw [slotsFrom]
      split
      · rename_i name found
        obtain ⟨isBound, -, rest, split⟩ := nameAt?_eq_some_iff.1 found
        obtain ⟨read, scanned⟩ := ih (name.length + 1)
        obtain ⟨rfl, rfl⟩ := List.cons.inj split
        refine ⟨?_, isBound, scanned⟩
        have behind : (name.toList ++ ['%'] ++ rest).drop (name.length + 1) = rest :=
          List.drop_left' (by rw [List.length_append, String.length_toList]; rfl)
        rw [Template.text_hole, read]
        show '%' :: (name.toList ++ '%' :: (name.toList ++ ['%'] ++ rest).drop (name.length + 1))
          = '%' :: (name.toList ++ ['%'] ++ rest)
        rw [behind, List.append_assoc, List.singleton_append]
      · rename_i missed
        obtain ⟨read, scanned⟩ := ih 0
        rw [List.drop_zero] at read
        exact ⟨by rw [Template.text_char, read, List.drop_zero], by rwa [read], scanned⟩

theorem text_slots (b : Bindings) (t : Text) : (b.slots t).text = t :=
  (scanned_slotsFrom 0 t).1

theorem scanned_slots (b : Bindings) (t : Text) : Scanned b.bound (b.slots t) :=
  (scanned_slotsFrom 0 t).2

/-! ### One binding after the other -/

/-- Each hole of the template holds its placeholder or the value bound to it. -/
def Partly (b : Bindings) (fill : String → Text) (x : Template) : Prop :=
  ∀ name, .hole name ∈ x → fill name = placeholder name
    ∨ ∃ value, b.get? name = some value ∧ fill name = value.literal ∧ '%' ∉ value.literal

variable {fill : String → Text} {x : Template}

theorem Partly.of_cons {slot : Slot} (partly : Partly b fill (slot :: x)) : Partly b fill x :=
  fun name mem => partly name (List.mem_cons_of_mem slot mem)

/-- A name that stands in a partly filled text, up to the next percent sign, stands in the text of
the template, or a value between two percent signs makes a part of it. -/
theorem Partly.starts_or (partly : Partly b fill x) {name : Text} (free : '%' ∉ name)
    (starts : name ++ ['%'] <+: x.write fill) :
    name ++ ['%'] <+: x.text
      ∨ ∃ before n value behind, '%' ∉ before ∧ '%' ∉ behind ∧ b.get? n = some value
        ∧ before ++ placeholder n ++ behind ++ ['%'] <+: x.text
        ∧ before ++ value.literal ++ behind <+: name := by
  induction x generalizing name with
  | nil => simp at starts
  | cons slot x ih =>
    have later := fun {name : Text} => @ih partly.of_cons name
    cases slot with
    | char c =>
      cases name with
      | nil => exact .inl (by simpa using starts)
      | cons d name =>
        obtain ⟨rest, same⟩ := starts
        rw [List.cons_append, List.cons_append, Template.write_char] at same
        obtain ⟨rfl, tail⟩ := List.cons.inj same
        have other : d ≠ '%' := fun sign => free (sign ▸ List.mem_cons_self ..)
        rcases later (fun mem => free (List.mem_cons_of_mem d mem)) ⟨rest, tail⟩ with
          kept | ⟨before, n, value, behind, front, back, found, read, part⟩
        · exact .inl (List.cons_prefix_cons.2 ⟨rfl, kept⟩)
        · refine .inr ⟨d :: before, n, value, behind, ?_, back, found, ?_, ?_⟩
          · exact fun mem => (List.mem_cons.1 mem).elim (fun sign => other sign.symm) front
          · exact List.cons_prefix_cons.2 ⟨rfl, read⟩
          · exact List.cons_prefix_cons.2 ⟨rfl, part⟩
    | hole n =>
      rcases partly n (List.mem_cons_self ..) with same | ⟨value, found, same, clean⟩
      · cases name with
        | nil => exact .inl (by simp)
        | cons d name =>
          obtain ⟨rest, start⟩ := starts
          rw [Template.write_hole, same] at start
          obtain ⟨rfl, -⟩ := List.cons.inj start
          exact absurd (List.mem_cons_self ..) free
      · -- the value is a part of the name, since the sign that ends the name is not in it
        rw [Template.write_hole, same] at starts
        obtain ⟨rest, start⟩ := starts
        rw [List.append_assoc] at start
        obtain ⟨more, rfl, behind⟩ : ∃ more, name = value.literal ++ more
            ∧ more ++ (['%'] ++ rest) = Template.write fill x := by
          rcases List.append_eq_append_iff.1 start with ⟨more, split, rest'⟩ | ⟨more, split, rest'⟩
          · cases more with
            | nil => exact ⟨[], by simpa using split.symm, by simpa using rest'⟩
            | cons d more =>
              obtain ⟨rfl, -⟩ := List.cons.inj rest'
              exact absurd (split ▸ by simp) clean
          · exact ⟨more, split, rest'.symm⟩
        have free' : '%' ∉ more := fun mem => free (List.mem_append_right _ mem)
        have inner : ∃ behind, '%' ∉ behind ∧ behind ++ ['%'] <+: Template.text x ∧ behind <+: more := by
          rcases later free' ⟨rest, by rw [List.append_assoc]; exact behind⟩ with
            kept | ⟨before, m, value', behind', front, -, -, read, part⟩
          · exact ⟨more, free', kept, List.prefix_refl _⟩
          · refine ⟨before, front, List.IsPrefix.trans ?_ read, List.IsPrefix.trans ?_ part⟩
            · exact ⟨m.toList ++ ['%'] ++ behind' ++ ['%'], by simp [placeholder]⟩
            · exact ⟨value'.literal ++ behind', by simp⟩
        obtain ⟨last, none_, read, part⟩ := inner
        refine .inr ⟨[], n, value, last, List.not_mem_nil, none_, found, ?_, ?_⟩
        · obtain ⟨tail, tail_eq⟩ := read
          exact ⟨tail, by simp [placeholder, ← tail_eq]⟩
        · exact (List.prefix_append_right_inj _).2 part

/-- No placeholder of a bound name starts at a percent sign of a partly filled text if none starts
there in the text of the template. -/
theorem Separate.missed (separate : b.Separate ('%' :: x.text)) (partly : Partly b fill x)
    {name : String} (isBound : b.bound name = true) (other : ¬ name.toList ++ ['%'] <+: x.text) :
    after? false (placeholder name) ('%' :: x.write fill) = none := by
  rw [after?_false_eq_none_iff]
  intro starts
  rcases partly.starts_or (separate.names name isBound) (List.cons_prefix_cons.1 starts).2 with
    same | ⟨before, n, value, behind, front, back, found, read, part⟩
  · exact other same
  · exact separate.beside before n value behind name front back found
      (List.cons_prefix_cons.2 ⟨rfl, read⟩).isInfix isBound part

/-- Putting in the value of a name fills the holes of that name, unless it has been put in, and
leaves the others as they are. -/
theorem Separate.replace_write (separate : b.Separate x.text) (scanned : Scanned b.bound x)
    (partly : Partly b fill x) {name : String} (isBound : b.bound name = true) {new : Text}
    {next : String → Text} (others : ∀ n, n ≠ name → next n = fill n)
    (filled : .hole name ∈ x → fill name = placeholder name ∧ next name = new
      ∨ '%' ∉ fill name ∧ next name = fill name) :
    replaceFrom (placeholder name) new 0 (x.write fill) = x.write next := by
  induction x with
  | nil => rfl
  | cons slot x ih =>
    have inside : Template.text x <:+: Template.text (slot :: x) :=
      ⟨Template.text [slot], [], by rw [List.append_nil]; exact (Template.write_append [slot] x).symm⟩
    have later := fun scanned : Scanned b.bound x => ih (separate.of_isInfix inside) scanned
      partly.of_cons fun mem => filled (List.mem_cons_of_mem slot mem)
    cases slot with
    | char c =>
      obtain ⟨none_, scanned⟩ := scanned
      have missed : after? false (placeholder name) (c :: Template.write fill x) = none := by
        by_cases sign : c = '%'
        · subst sign
          refine separate.missed partly.of_cons isBound fun starts => ?_
          have found : nameAt? b.bound ('%' :: Template.text x) = some name :=
            nameAt?_eq_some_iff.2
              ⟨isBound, separate.names name isBound, List.cons_prefix_cons.2 ⟨rfl, starts⟩⟩
          rw [none_] at found
          cases found
        · exact after?_cons_eq_none rfl (fun same => sign same.symm) _ _
      rw [Template.write_char, Template.write_char, replaceFrom_cons missed, later scanned]
    | hole n =>
      obtain ⟨isBound', scanned⟩ := scanned
      rw [Template.write_hole, Template.write_hole]
      -- a hole whose value has been put in holds no percent sign
      have passed : '%' ∉ fill n → next n = fill n →
          replaceFrom (placeholder name) new 0 (fill n ++ Template.write fill x)
            = next n ++ Template.write next x := by
        intro clean same
        rw [placeholder, replaceFrom_of_not_mem clean, ← placeholder, later scanned, same]
      by_cases own : n = name
      · subst own
        rcases filled (List.mem_cons_self ..) with ⟨same, put⟩ | ⟨clean, kept⟩
        · have nonempty : placeholder n ≠ [] := List.cons_ne_nil _ _
          rw [same, put, replaceFrom_append_self nonempty, later scanned]
        · exact passed clean kept
      · rcases partly n (List.mem_cons_self ..) with same | ⟨value, -, same, clean⟩
        · have free := separate.names n isBound'
          have free' := separate.names name isBound
          have opening : after? false (placeholder name)
              ('%' :: (n.toList ++ '%' :: Template.write fill x)) = none := by
            rw [after?_false_eq_none_iff]
            intro starts
            refine own (String.toList_inj.1 ?_)
            rw [← takeWhile_name free (Template.write fill x)]
            obtain ⟨rest, split⟩ := (List.cons_prefix_cons.1 starts).2
            rw [← split, List.append_assoc]
            exact takeWhile_name free' rest
          have closing : after? false (placeholder name) ('%' :: Template.write fill x) = none := by
            refine (separate.of_isInfix ?_).missed partly.of_cons isBound ?_
            · exact ⟨'%' :: n.toList, [], by simp⟩
            · rintro ⟨rest, starts⟩
              refine separate.shared n name isBound' isBound ⟨[], rest, ?_⟩
              rw [Template.text_hole, ← starts]
              simp
          rw [others n own, same]
          show replaceFrom _ new 0 ('%' :: (n.toList ++ ['%'] ++ Template.write fill x))
            = '%' :: (n.toList ++ ['%'] ++ Template.write next x)
          rw [List.append_assoc, List.append_assoc, List.singleton_append, List.singleton_append,
            replaceFrom_cons opening, placeholder, replaceFrom_of_not_mem free, ← placeholder,
            replaceFrom_cons closing, later scanned]
        · exact passed (same ▸ clean) (others n own)

theorem isInfix_text {name : String} (mem : .hole name ∈ x) : placeholder name <:+: x.text := by
  obtain ⟨front, back, rfl⟩ := List.append_of_mem mem
  refine ⟨Template.text front, Template.text back, ?_⟩
  rw [Template.text, Template.text, List.append_assoc]
  exact (Template.write_append front (.hole name :: back)).symm

/-- One binding fills the holes of its name; the bindings before it have filled theirs. -/
theorem Separate.replace_content (separate : b.Separate x.text) (scanned : Scanned b.bound x)
    {done rest : List (String × Value)} {name : String} {value : Value}
    (split : b.values = done ++ (name, value) :: rest) :
    (x.write (content ⟨done⟩)).replace (placeholder name) value.literal
      = x.write (content ⟨done ++ [(name, value)]⟩) := by
  have lookup : ∀ n, b.get? n = (Assoc.get? n done).or
      (if name = n then some value else Assoc.get? n rest) := by
    intro n
    rw [get?, split, Assoc.get?_append]
    rfl
  have next : ∀ n, Assoc.get? n (done ++ [(name, value)])
      = (Assoc.get? n done).or (if name = n then some value else none) := by
    intro n
    rw [Assoc.get?_append]
    rfl
  have partly : Partly b (content ⟨done⟩) x := by
    intro n mem
    cases found : Assoc.get? n done with
    | none => exact .inl (by simp [content, get?, found])
    | some w =>
      have whole : b.get? n = some w := by rw [lookup, found, Option.some_or]
      exact .inr ⟨w, whole, by simp [content, get?, found],
        separate.values n w whole (isInfix_text mem)⟩
  have isBound : b.bound name = true := by
    rw [Bindings.bound, lookup]
    cases Assoc.get? name done <;> simp
  refine separate.replace_write scanned partly isBound (fun n other => ?_) fun mem => ?_
  · have same : Assoc.get? n (done ++ [(name, value)]) = Assoc.get? n done := by
      rw [next, if_neg (Ne.symm other), Option.or_none]
    simp [content, get?, same]
  · cases found : Assoc.get? name done with
    | none => exact .inl (by simp [content, get?, found, next])
    | some w =>
      have whole : b.get? name = some w := by rw [lookup, found, Option.some_or]
      have clean := separate.values name w whole (isInfix_text mem)
      exact .inr (by simp [content, get?, found, next, clean])

/-- **Substitution fills the holes of a template**, each with the value of its name. -/
theorem Separate.substitute_text (separate : b.Separate x.text) (scanned : Scanned b.bound x) :
    b.substitute x.text = x.write b.content := by
  have run : ∀ rest done, b.values = done ++ rest →
      rest.foldl (fun t pair => t.replace (placeholder pair.1) pair.2.literal)
        (x.write (content ⟨done⟩)) = x.write b.content := by
    intro rest
    induction rest with
    | nil =>
      intro done split
      rw [List.append_nil] at split
      rw [List.foldl_nil, ← split]
    | cons pair rest ih =>
      intro done split
      have more := ih (done ++ [pair]) (by rw [split, List.append_assoc, List.singleton_append])
      rwa [← separate.replace_content scanned split] at more
  exact run b.values [] rfl

/-- **Substitution is one splice** where placeholders keep to themselves. -/
theorem Separate.substitute_eq_splice {t : Text} (separate : b.Separate t) :
    b.substitute t = b.splice t := by
  have read := text_slots b t
  have filled : b.substitute (b.slots t).text = (b.slots t).write b.content :=
    Separate.substitute_text (read.symm ▸ separate) (scanned_slots b t)
  rwa [read] at filled

/-! ### Checking that placeholders keep to themselves -/

/-- The texts between two percent signs with none between them. -/
def between (t : Text) : List Text :=
  (t.splitOn '%').tail.dropLast

theorem isInfix_between {t : Text} {parts : List Text} (free : ∀ part ∈ parts, '%' ∉ part)
    (inside : '%' :: parts.flatMap (· ++ ['%']) <:+: t) : parts <:+: between t := by
  have read : ∀ rest : Text,
      (parts.flatMap (· ++ ['%']) ++ rest).splitOn '%' = parts ++ rest.splitOn '%' := by
    intro rest
    induction parts with
    | nil => rfl
    | cons part parts ih =>
      obtain ⟨first, others⟩ := List.forall_mem_cons.1 free
      have inside' : '%' :: parts.flatMap (· ++ ['%']) <:+: t :=
        List.IsInfix.trans ⟨'%' :: part, [], by simp⟩ inside
      rw [List.flatMap_cons, List.append_assoc, List.append_assoc, List.singleton_append,
        List.splitOn_append_cons_self, List.splitOn_eq_singleton first, ih others inside']
      rfl
  obtain ⟨front, back, rfl⟩ := inside
  obtain ⟨first, before, split⟩ := List.exists_cons_of_ne_nil (List.splitOn_ne_nil '%' front)
  obtain ⟨behind, last, split'⟩ :=
    (List.eq_nil_or_concat (back.splitOn '%')).resolve_left (List.splitOn_ne_nil '%' back)
  have whole : (front ++ ('%' :: parts.flatMap (· ++ ['%']) ++ back)).splitOn '%'
      = first :: (before ++ parts ++ behind ++ [last]) := by
    rw [List.cons_append, List.splitOn_append_cons_self, read, split, split']
    simp
  refine ⟨before, behind, ?_⟩
  rw [between, List.append_assoc front, whole, List.tail_cons, List.dropLast_concat]

/-- No two neighbours are bound, and what the value of the second of three texts makes of them does
not start a bound name. -/
def clears (b : Bindings) : List Text → Bool
  | x :: n :: rest =>
    !(b.bound (String.ofList x) && b.bound (String.ofList n))
      && (match b.get? (String.ofList n), rest with
        | some value, y :: _ =>
          b.values.all fun (name, _) => !(x ++ value.literal ++ y).isPrefixOf name.toList
        | _, _ => true)
      && clears b (n :: rest)
  | _ => true

/-- Neither names nor the values put in hold percent signs, and the text between such signs is
clear. -/
def keepsApart (b : Bindings) (t : Text) : Bool :=
  b.values.all (fun (name, _) => !name.toList.contains '%')
    && (between t).all (fun name =>
      (b.get? (String.ofList name)).all fun value => !value.literal.contains '%')
    && b.clears (between t)

theorem clears_of_isInfix {parts more : List Text} (clear : b.clears more = true)
    (part : parts <:+: more) (nonempty : parts ≠ []) :
    ∃ rest, b.clears (parts ++ rest) = true := by
  induction more with
  | nil => exact absurd (List.infix_nil.1 part) nonempty
  | cons text more ih =>
    rcases List.infix_cons_iff.1 part with ⟨rest, same⟩ | part
    · exact ⟨rest, by rwa [same]⟩
    · refine ih ?_ part
      cases more with
      | nil => rfl
      | cons other more =>
        simp only [clears, Bool.and_eq_true] at clear
        exact clear.2

theorem exists_mem_of_bound {name : String} (isBound : b.bound name = true) :
    ∃ value, (name, value) ∈ b.values := by
  obtain ⟨value, found⟩ := Option.isSome_iff_exists.1 isBound
  exact ⟨value, Assoc.mem_of_get? found⟩

theorem separate_of_keepsApart {t : Text} (apart : b.keepsApart t = true) : b.Separate t := by
  simp only [keepsApart, Bool.and_eq_true, List.all_eq_true, Bool.not_eq_true',
    List.contains_eq_mem, decide_eq_false_iff_not] at apart
  obtain ⟨⟨names, values⟩, clear⟩ := apart
  have free : ∀ name, b.bound name = true → '%' ∉ name.toList := by
    intro name isBound
    obtain ⟨value, mem⟩ := exists_mem_of_bound isBound
    exact names (name, value) mem
  have isBound_of_get? : ∀ {name value}, b.get? name = some value → b.bound name = true := by
    intro name value found
    rw [Bindings.bound, found, Option.isSome_some]
  refine ⟨free, fun name value found inside => ?_, fun m n isBound isBound' inside => ?_, ?_⟩
  · have mem : [name.toList] <:+: between t :=
      isInfix_between (List.forall_mem_singleton.2 (free name (isBound_of_get? found)))
        (by simpa [placeholder] using inside)
    have checked := values name.toList (mem.subset (List.mem_singleton_self _))
    rw [String.ofList_toList, found] at checked
    simpa using checked
  · have mem : [m.toList, n.toList] <:+: between t :=
      isInfix_between (by simp [free m isBound, free n isBound']) (by simpa using inside)
    obtain ⟨rest, checked⟩ := clears_of_isInfix clear mem (List.cons_ne_nil _ _)
    simp [clears, isBound, isBound'] at checked
  · intro before name value behind m front back found inside isBound start
    have mem : [before, name.toList, behind] <:+: between t :=
      isInfix_between (by simp [front, back, free name (isBound_of_get? found)])
        (by simpa [placeholder] using inside)
    obtain ⟨rest, checked⟩ := clears_of_isInfix clear mem (List.cons_ne_nil _ _)
    simp only [List.cons_append, clears, String.ofList_toList, found, Bool.and_eq_true,
      List.all_eq_true] at checked
    obtain ⟨value', mem'⟩ := exists_mem_of_bound isBound
    have other := checked.1.2 (m, value') mem'
    rw [Bool.not_eq_true', ← Bool.not_eq_true, List.isPrefixOf_iff_prefix] at other
    exact other start

/-- **The order of bindings does not matter** to substitution where placeholders keep to themselves,
and what is put in for one is not searched for others. -/
theorem substitute_order_irrelevant {t : Text} (same : ∀ name, b'.get? name = b.get? name)
    (separate : b.Separate t) : b'.substitute t = b.substitute t ∧ b.substitute t = b.splice t := by
  have content_eq : b'.content = b.content := by
    funext name
    rw [content, content, same]
  have bound_eq : b'.bound = b.bound := by
    funext name
    rw [Bindings.bound, Bindings.bound, same]
  have splice_eq : b'.splice t = b.splice t := by
    rw [splice, splice, slots, slots, bound_eq, content_eq]
  exact ⟨(separate.congr same).substitute_eq_splice.trans
    (splice_eq.trans separate.substitute_eq_splice.symm), separate.substitute_eq_splice⟩

section Samples

/-- A price and a tax rate. -/
def rates : Bindings :=
  .ofList [("price", .string "10.5"), ("rate", .string "0.2")]

/-- The same pairs, bound in the other order. -/
def swapped (b : Bindings) : Bindings :=
  ⟨b.values.reverse⟩

theorem get?_swapped (nodup : (Assoc.keys b.values).Nodup) (name : String) :
    b.swapped.get? name = b.get? name :=
  Assoc.get?_reverse nodup

theorem substitute_order_irrelevant_rates :
    (∀ name, rates.swapped.get? name = rates.get? name)
      ∧ rates.Separate "%price% * (1 + %rate%)".toList
      ∧ rates.swapped.substitute "%price% * (1 + %rate%)".toList
        = rates.substitute "%price% * (1 + %rate%)".toList
      ∧ rates.substitute "%price% * (1 + %rate%)".toList
        = rates.splice "%price% * (1 + %rate%)".toList := by
  have same := get?_swapped (b := rates) (by decide)
  have separate : rates.Separate "%price% * (1 + %rate%)".toList :=
    separate_of_keepsApart (by decide +kernel)
  exact ⟨same, separate, substitute_order_irrelevant same separate⟩

/-- A value that reads as the placeholder of another name. -/
def chained : Bindings :=
  .ofList [("a", .string "%b%"), ("b", .string "1")]

/-- The two orders of the bindings of `a` and `b` make `1` and `%b%` of the text `%a%`: in the first
the value of `a` is searched for the placeholder of `b`. -/
theorem substitute_order_matters :
    ∃ (b b' : Bindings) (t : Text), (∀ name, b'.get? name = b.get? name)
      ∧ (∀ name, b.bound name = true → IsName name.toList)
      ∧ b'.substitute t ≠ b.substitute t ∧ b.substitute t ≠ b.splice t := by
  refine ⟨chained, chained.swapped, ['%', 'a', '%'], get?_swapped (by decide), ?_,
    by decide +kernel, by decide +kernel⟩
  intro name isBound
  obtain ⟨value, mem⟩ := exists_mem_of_bound isBound
  have either : name = "a" ∨ name = "b" := by
    have listed := List.mem_map_of_mem (f := Prod.fst) mem
    simpa [chained, ofList, Assoc.ofList, Assoc.insertAll, Assoc.insert] using listed
  rcases either with rfl | rfl
  · exact isName_of_checked rfl
  · exact isName_of_checked rfl

end Samples

end Bindings

end RecordMapper
