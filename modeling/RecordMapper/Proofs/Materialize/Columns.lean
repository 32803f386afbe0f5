import RecordMapper.Materialize.Basic
import RecordMapper.Proofs.Text.Basic

/-!
Where columns go.

A column whose name does not hold the separator goes to the entry (`slot_own`). An alias takes the
columns that it prefixes if the separator behind it is the first one (`slot_prefixed`): an alias
that the separator overlaps, such as `a:` before `::`, would be cut in another place.
-/

namespace RecordMapper

/-! ### Aliases -/

/-- The name does not hold the separator. -/
def Config.Unseparated (config : Config) (name : String) : Prop :=
  ¬ config.aliasSeparator.toList <:+: name.toList

/-- Behind the alias, the separator occurs for the first time. -/
def Config.IsAlias (config : Config) (a : String) : Prop :=
  ∀ front back, a.toList ++ config.aliasSeparator.toList
    = front ++ config.aliasSeparator.toList ++ back → back = []

/-- The name of a column under an alias. -/
def Config.prefixed (config : Config) (a column : String) : String :=
  a ++ config.aliasSeparator ++ column

theorem Config.toList_prefixed (config : Config) (a column : String) :
    (config.prefixed a column).toList
      = a.toList ++ config.aliasSeparator.toList ++ column.toList := by
  simp [prefixed]

theorem Config.prefixed_injective (config : Config) (a : String) :
    Function.Injective (config.prefixed a) := by
  intro column other same
  have texts := congrArg String.toList same
  rw [toList_prefixed, toList_prefixed, List.append_cancel_left_eq] at texts
  exact String.toList_inj.1 texts

/-- Where the separator is one character, a name without it is a column of its own. -/
theorem Config.unseparated_of_not_mem {config : Config} {c : Char}
    (single : config.aliasSeparator.toList = [c]) {name : String} (absent : c ∉ name.toList) :
    config.Unseparated name := by
  rintro ⟨front, back, holds⟩
  apply absent
  rw [← holds, single]
  simp

/-- Where the separator is one character, a name without it is an alias. -/
theorem Config.isAlias_of_not_mem {config : Config} {c : Char}
    (single : config.aliasSeparator.toList = [c]) {a : String} (absent : c ∉ a.toList) :
    config.IsAlias a := by
  intro front back same
  rw [single, List.append_assoc] at same
  rcases List.append_eq_append_iff.1 same with ⟨rest, -, last⟩ | ⟨rest, inside, last⟩
  · have lengths := congrArg List.length last
    simp only [List.length_append, List.length_singleton] at lengths
    exact List.eq_nil_of_length_eq_zero (by omega)
  · cases rest with
    | nil => simpa using last
    | cons d rest =>
      have first : c = d := (List.cons.inj last).1
      apply absurd _ absent
      rw [inside, first]
      simp

/-- A valid configuration has a separator. -/
theorem Config.separator_ne_nil {config : Config} (valid : config.validate = .ok ()) :
    config.aliasSeparator.toList ≠ [] := by
  intro empty
  have none : config.aliasSeparator = "" := String.toList_eq_nil_iff.1 empty
  rw [validate, if_pos none] at valid
  cases valid

namespace Column

/-! ### Splitting -/

theorem splitFrom?_eq_none_iff {separator t : Text} (nonempty : separator ≠ []) :
    splitFrom? separator t = none ↔ ¬ separator <:+: t := by
  induction t with
  | nil => simp [splitFrom?, nonempty]
  | cons c t ih =>
    rw [List.infix_cons_iff, not_or, ← ih, ← Text.after?_false_eq_none_iff, splitFrom?]
    cases Text.after? false separator (c :: t) with
    | none => simp
    | some rest => simp

/-- A text is split behind what the separator follows for the first time. -/
theorem splitFrom?_append {separator a : Text} (nonempty : separator ≠ [])
    (first : ∀ front back, a ++ separator = front ++ separator ++ back → back = []) (rest : Text) :
    splitFrom? separator (a ++ separator ++ rest) = some (a, rest) := by
  induction a with
  | nil =>
    have found := Text.after?_append false separator rest
    obtain ⟨c, t, cons⟩ := List.exists_cons_of_ne_nil nonempty
    rw [List.nil_append]
    rw [cons] at found ⊢
    rw [List.cons_append] at found ⊢
    rw [splitFrom?, found]
  | cons c a ih =>
    have later : ∀ front back, a ++ separator = front ++ separator ++ back → back = [] := by
      intro front back same
      refine first (c :: front) back ?_
      rw [List.cons_append, same]
      rfl
    have unfound : Text.after? false separator (c :: (a ++ separator ++ rest)) = none := by
      rw [Text.after?_false_eq_none_iff]
      intro starts
      -- an occurrence at the front would end within the alias and the separator
      have within : separator <+: c :: (a ++ separator) :=
        List.prefix_of_prefix_length_le starts (List.prefix_append (c :: (a ++ separator)) rest)
          (by simp only [List.length_cons, List.length_append]; omega)
      obtain ⟨back, same⟩ := within
      have ended := first [] back same.symm
      rw [ended, List.append_nil] at same
      have lengths := congrArg List.length same
      simp only [List.length_cons, List.length_append] at lengths
      omega
    rw [List.cons_append, List.cons_append, splitFrom?, unfound, ih later]
    rfl

/-- The parts of a split text, with the separator between them, are the text. -/
theorem eq_append_of_splitFrom? {separator t front rest : Text}
    (split : splitFrom? separator t = some (front, rest)) : t = front ++ separator ++ rest := by
  induction t generalizing front with
  | nil =>
    rw [splitFrom?] at split
    split at split
    · rename_i none
      cases split
      simpa using none
    · cases split
  | cons c t ih =>
    rw [splitFrom?] at split
    split at split
    · rename_i found
      cases split
      exact Text.after?_false_iff.1 found
    · obtain ⟨⟨front, rest⟩, later, same⟩ := Option.map_eq_some_iff.1 split
      cases same
      rw [ih later]
      rfl

/-! ### Slots -/

variable {config : Config}

theorem slot_own (valid : config.validate = .ok ()) {name : String}
    (unseparated : config.Unseparated name) : slot config name = .own name := by
  have none := (splitFrom?_eq_none_iff (Config.separator_ne_nil valid)).2 unseparated
  rw [slot, split?, none]
  rfl

/-- A column goes to a field of the entry under the name of the field, alone or behind the self
alias. -/
theorem eq_or_eq_of_slot_own {name field : String} (own : slot config name = .own field) :
    name = field ∨ name = config.prefixed config.selfAlias field := by
  unfold slot at own
  split at own
  · cases own
    exact .inl rfl
  · rename_i a rest split
    split at own
    · rename_i self
      split at own
      · cases own
      · cases own
        obtain ⟨⟨front, back⟩, parts, same⟩ := Option.map_eq_some_iff.1 split
        cases same
        have whole := eq_append_of_splitFrom? parts
        right
        rw [← String.toList_inj, whole, Config.toList_prefixed, ← self, String.toList_ofList,
          String.toList_ofList]
    · cases own

/-- Columns under an alias other than the self alias go to the relation of that name. -/
theorem slot_prefixed (valid : config.validate = .ok ()) {a : String} (isAlias : config.IsAlias a)
    (other : a ≠ config.selfAlias) (column : String) :
    slot config (config.prefixed a column) = .joined a column := by
  have found := splitFrom?_append (Config.separator_ne_nil valid) isAlias column.toList
  rw [slot, split?, Config.toList_prefixed, found]
  simp [other]

end Column

end RecordMapper
