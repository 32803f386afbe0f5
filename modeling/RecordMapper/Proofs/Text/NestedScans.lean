import RecordMapper.Proofs.Text.Keywords
import RecordMapper.Proofs.Text.Loose

/-!
Searches in well-nested text.

The search for the parenthesis that closes an open one and the search for an operator from inside a
span are thorough scans. So a parenthesis is closed behind the well-nested text in it
(`closing?_nested`), text in one pair of parentheses is unwrapped (`unwrapped?_nested`), and it has
no other pair around it (`eq_of_group`).

From outside every span, **the search for an operator passes over well-nested text in which the
operator starts at no loose character** (`operatorScan_reads_nested`).
-/

namespace RecordMapper.Text

/-! ### Parentheses -/

/-- The letters of a keyword mean nothing to the search for a parenthesis. -/
theorem parenthesesScan_reads_word {keyword word : Text}
    (letters : ∀ a ∈ keyword, a.isAlpha = true) (same : sameLetters keyword word = true)
    (depth : Nat) (before : Option Char) (rest : Text) :
    parenthesesScan.Reads depth before word depth rest := by
  refine .of_each (fun c mem before rest => ?_) rest
  have other := ne_of_letters letters (sameLetters_iff.1 same) c mem
  exact parenthesesScan_reads_other other.1 ⟨other.2.1, other.2.2.1⟩ depth before rest

theorem parenthesesScan_thorough : parenthesesScan.Thorough where
  loose depth before _ rest loose _ _ :=
    parenthesesScan_reads_other loose.1 ⟨loose.2.1, loose.2.2.1⟩ depth before rest
  literal depth before _ rest closed := parenthesesScan_reads_literal depth before rest closed
  openParens := parenthesesScan_lawful.openParens
  closeParens := parenthesesScan_lawful.closeParens
  openBraces := parenthesesScan_lawful.openBraces
  closeBraces := parenthesesScan_lawful.closeBraces
  openCase depth before _ rest same _ :=
    parenthesesScan_reads_word letters_caseKeyword same depth before rest
  closeCase depth before _ rest same _ :=
    parenthesesScan_reads_word letters_endKeyword same depth before rest

/-- **A parenthesis is closed behind the well-nested text in it.** -/
theorem closing?_nested {contents rest : Text} (nested : Nested [] none contents (')' :: rest)) :
    closing? (contents ++ ')' :: rest) = some (contents, rest) := by
  have passed : parenthesesScan.Reads 0 none contents 0 (')' :: rest) :=
    parenthesesScan_thorough.reads_nested nested fun _ _ => rfl
  have stop : closingFrom? 0 .plain (')' :: rest) = some ([], rest) := by simp [closingFrom?]
  have found : closing? (contents ++ ')' :: rest)
      = contents.foldr prependFound (closingFrom? 0 .plain (')' :: rest)) := passed
  rw [found, foldr_prependFound, stop]
  simp

/-- Text in one pair of parentheses is unwrapped. -/
theorem unwrapped?_nested {contents : Text} (nested : Nested [] none contents [')']) :
    unwrapped? ('(' :: (contents ++ [')'])) = some contents := by
  rw [unwrapped?, closing?_nested nested]

/-- Parentheses at the start of a text are closed in one place only. -/
theorem eq_of_group {x y back back' : Text} (nested : Nested [] none x (')' :: back))
    (nested' : Nested [] none y (')' :: back')) (same : x ++ ')' :: back = y ++ ')' :: back') :
    x = y ∧ back = back' := by
  have found := closing?_nested nested
  rw [same, closing?_nested nested'] at found
  cases found
  exact ⟨rfl, rfl⟩

/-- A well-nested text with more behind it does not start with parentheses that are closed at the
end. -/
theorem NestedWith.not_group {allows : Option Char → Text → Prop} {before : Option Char}
    {t rest contents : Text} (nested : NestedWith allows before t rest) (nonempty : t ≠ [])
    (more : rest ≠ []) (whole : t ++ rest = '(' :: (contents ++ [')'])) :
    ¬ Nested [] none contents [')'] := by
  intro enclosed
  cases nested with
  | nil => exact nonempty rfl
  | char loose _ _ _ _ => exact loose.2.1 (List.cons.inj whole).1
  | literal _ _ => cases (List.cons.inj whole).1
  | field _ _ => cases (List.cons.inj whole).1
  | @group _ contents' t _ enclosed' _ =>
    have same : contents' ++ ')' :: (t ++ rest) = contents ++ ')' :: [] := by simpa using whole
    have behind := (eq_of_group enclosed' enclosed same).2
    exact more (List.append_eq_nil_iff.1 behind).2
  | case opens _ _ _ _ _ =>
    obtain ⟨c, opening, rfl, first⟩ := exists_cons_of_sameLetters opens
    obtain ⟨rfl, -⟩ := List.cons.inj whole
    cases first

/-! ### Operators -/

section Operators

variable {operator : Text} {words : Bool}

theorem insideScan_thorough : (insideScan operator words).Thorough where
  loose depth _ _ _ loose noCase noEnd := operatorScan_reads_other loose noCase noEnd depth
  literal depth before _ rest closed := operatorScan_reads_literal (depth + 1) before rest closed
  openParens := insideScan_lawful.openParens
  closeParens := insideScan_lawful.closeParens
  openBraces := insideScan_lawful.openBraces
  closeBraces := insideScan_lawful.closeBraces
  openCase depth _ _ _ same alone := operatorScan_reads_openCase (depth + 1) same alone
  closeCase depth _ _ _ same alone := operatorScan_reads_closeCase (depth + 1) same alone

/-- What is read inside a span is read one span deeper. -/
theorem operatorScan_reads_of_inside {depth depth' : Nat} {before : Option Char} {t rest : Text}
    (reads : (insideScan operator words).Reads depth before t depth' rest) :
    (operatorScan operator words).Reads (depth + 1) before t (depth' + 1) rest :=
  reads

/-- **The search passes over well-nested text in which the operator starts at no loose
character.** -/
theorem operatorScan_reads_nested {before : Option Char} {t rest : Text}
    (nested : NestedWith (fun before ahead => afterOperator? operator words before ahead = none)
      before t rest) : (operatorScan operator words).Reads 0 before t 0 rest := by
  -- inside a span nothing is asked of the operator
  have inside : ∀ {t rest : Text} {before : Option Char}, Nested [] none t rest →
      (∀ k ∈ [caseKeyword, endKeyword],
        startsKeyword k before (t ++ rest) = startsKeyword k none (t ++ rest)) →
      (operatorScan operator words).Reads 1 before t 1 rest := by
    intro t rest before nested same
    exact operatorScan_reads_of_inside (insideScan_thorough.reads_nested nested same)
  induction nested with
  | nil => exact .nil _
  | char loose noCase noEnd missed _ ih =>
    exact .cons (operatorScan_reads_top loose noCase noEnd missed) ih
  | @literal before contents t _ closed _ ih =>
    have split : '"' :: (contents ++ '"' :: t) = '"' :: (contents ++ ['"']) ++ t := by simp
    rw [split]
    refine .append (operatorScan_reads_literal 0 before _ closed) ?_
    rw [← List.cons_append, lastFrom_concat]
    exact ih
  | @field before name t rest reference _ ih =>
    have named : (operatorScan operator words).Reads 1 _ name 1 _ := operatorScan_reads_of_inside
      (insideScan_lawful.reads_reference reference (t ++ rest))
    refine .cons (operatorScan_reads_open (.inr rfl) 0 before _) (.append named ?_)
    exact .cons (operatorScan_reads_close (.inr rfl) 0 _ _) ih
  | @group before contents t _ enclosed _ ih =>
    refine .cons (operatorScan_reads_open (.inl rfl) 0 before _) ?_
    refine .append (inside enclosed fun _ _ => rfl) ?_
    exact .cons (operatorScan_reads_close (.inl rfl) 0 _ _) ih
  | @case before opening body closing t rest opens alone enclosed closes alone' _ ih =>
    have assoc : body ++ (closing ++ t) ++ rest = body ++ (closing ++ (t ++ rest)) := by simp
    obtain ⟨c, more, rfl, -⟩ := exists_cons_of_alone alone closes
    have enclosed' : (operatorScan operator words).Reads 1 (lastFrom before opening) (c :: more) 1
        (closing ++ t ++ rest) := by
      rw [List.append_assoc]
      refine inside enclosed fun k mem => ?_
      rw [startsKeyword_body alone closes mem, startsKeyword_body alone closes mem]
    refine .append (operatorScan_reads_openCase 0 opens (by rwa [assoc])) (.append enclosed' ?_)
    refine .append (operatorScan_reads_closeCase 0 closes alone') ?_
    obtain ⟨d, word, rfl, -⟩ := exists_cons_of_sameLetters closes
    exact ih

end Operators

end RecordMapper.Text
