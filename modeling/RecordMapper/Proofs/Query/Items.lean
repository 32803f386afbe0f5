import RecordMapper.Proofs.Query.Budget
import RecordMapper.Proofs.Query.Tokens
import RecordMapper.Proofs.Token.Loose

/-!
Select lists are read item by item.

An item here is any well-nested text, a blank one included, in which no comma stands outside
literals, parentheses and case distinctions. The tokenizer of lists makes each item one token,
whatever stands beside it, so the items of joined texts are these texts trimmed, without those of
which nothing is left (`FieldList.items_join_items`). Since an expression is read the same wherever
it stands, **a list is read exactly if each of its items is read for itself, and then as what these
are read as, in order** (`Parser.reads_items`).
-/

namespace RecordMapper

open Text

namespace FieldList

/-- A well-nested text in which no comma stands outside literals, parentheses and case
distinctions. -/
def IsItem (t : Text) : Prop :=
  NestedWith (fun _ ahead => ahead.head? ≠ some ',') none t []

/-- The only separator is the comma. -/
def watch : separation.Watch fun _ ahead => ahead.head? ≠ some ',' where
  calm _ _ := True
  step _ _ _ := trivial
  misses := by
    intro seen c ahead _ other _ word mem
    obtain rfl : word = separator := List.mem_singleton.1 mem
    refine after?_cons_eq_none rfl ?_ [] seen
    rintro rfl
    exact other rfl
  mark _ _ _ := trivial
  ending _ _ _ := trivial

variable {inner : Text → List Token} {t : Text}

/-- **An item becomes part of the current token**, in front of anything at which words end. -/
theorem IsItem.passes (item : IsItem t) {rest : Text} (stop : IsStop rest) :
    tokenizer.Passes inner [] t rest := by
  have nested : NestedWith (fun _ ahead => ahead.head? ≠ some ',') none t rest :=
    item.of_stop isStop_nil stop fun allowed _ => allowed
  have passed : watch.Passed tokenizer inner [] t rest :=
    Separation.passes_nested symbols_eq rfl nested rfl ⟨unbegun_nil, trivial⟩ nofun
  exact passed.passes

/-- A comma ends the current token and becomes one of its own. -/
theorem run_comma (seen rest : Text) :
    tokenizer.run inner seen .read (separator ++ rest)
      = tokenizer.flat seen.reverse ++ .text separator :: tokenizer.run inner [] .read rest := by
  have splits : separation.splitsAt false [] separator = true := by decide
  have divided : tokenizer.run inner ([] ++ seen) .read (separator ++ rest)
      = tokenizer.flat ([] ++ seen).reverse ++ tokenizer.flat separator
        ++ tokenizer.run inner [] .read rest :=
    Separation.run_separator_of_splitsAt symbols_eq (List.cons_ne_nil _ _)
      (List.mem_singleton_self separator) splits nofun rest
  rw [List.nil_append, List.append_assoc] at divided
  exact divided

/-- **Joined items are divided at the commas between them.** -/
theorem run_items {texts : List Text} (first : IsItem t) (others : ∀ u ∈ texts, IsItem u) :
    tokenizer.run inner [] .read (Text.join separator (t :: texts))
      = tokenizer.flat t ++ texts.flatMap fun u => .text separator :: tokenizer.flat u := by
  induction texts generalizing t with
  | nil =>
    rw [join_singleton, Tokenizer.run_last (first.passes isStop_nil)]
    simp
  | cons u texts ih =>
    obtain ⟨second, others⟩ := List.forall_mem_cons.1 others
    have passes : tokenizer.Passes inner [] t (separator ++ Text.join separator (u :: texts)) :=
      first.passes (isStop_cons rfl (by decide) _)
    rw [join_cons_cons, List.append_assoc, passes, run_comma, ih second others]
    simp

/-- No item is a comma. -/
theorem IsItem.trim_ne (item : IsItem t) : t.trim ≠ separator := by
  intro same
  obtain ⟨front, back, split, blank, -⟩ := exists_blanks_trim t
  have nested : NestedWith (fun _ ahead => ahead.head? ≠ some ',') none (front ++ ',' :: back) [] := by
    have whole : t = front ++ ',' :: back := by simpa [same, separator] using split
    exact whole ▸ item
  obtain ⟨before, allowed⟩ := nested.allowed_behind blank (by decide) (by decide)
  exact allowed rfl

theorem item_singleton (t : Text) : item [t] = if t.trim.isEmpty then [] else [t.trim] := by
  rw [item, join_singleton]

/-- The token of an item, if it has one, is put among the parts of the current item. -/
theorem IsItem.itemsFrom_flat (item : IsItem t) (tokens : List Token) :
    ∃ parts, FieldList.item parts = FieldList.item [t]
      ∧ itemsFrom [] (tokenizer.flat t ++ tokens) = itemsFrom parts tokens := by
  by_cases empty : t.trim.isEmpty
  · refine ⟨[], ?_, ?_⟩
    · rw [item_singleton, if_pos empty]
      rfl
    · simp [Tokenizer.flat, tokenizer, empty]
  · have flat : tokenizer.flat t = [.text t.trim] := by simp [Tokenizer.flat, tokenizer, empty]
    have other : (Token.text t.trim).isText separator = false := by
      rw [Token.isText, beq_eq_false_iff_ne]
      exact item.trim_ne
    refine ⟨[t.trim], ?_, ?_⟩
    · rw [item_singleton, item_singleton, trim_trim]
    · rw [flat, List.singleton_append, itemsFrom, other]
      rfl

/-- The tokens of joined items lead back to the items. -/
theorem itemsFrom_items {texts : List Text} (first : IsItem t) (others : ∀ u ∈ texts, IsItem u) :
    itemsFrom [] (tokenizer.flat t ++ texts.flatMap fun u => .text separator :: tokenizer.flat u)
      = (t :: texts).flatMap fun u => item [u] := by
  induction texts generalizing t with
  | nil =>
    obtain ⟨parts, same, read⟩ := first.itemsFrom_flat []
    rw [List.flatMap_nil, read, itemsFrom, same]
    simp
  | cons u texts ih =>
    obtain ⟨second, others⟩ := List.forall_mem_cons.1 others
    obtain ⟨parts, same, read⟩ := first.itemsFrom_flat
      ((u :: texts).flatMap fun u => .text separator :: tokenizer.flat u)
    have comma : (Token.text separator).isText separator = true := rfl
    rw [read, List.flatMap_cons, List.cons_append, itemsFrom, if_pos comma, ih second others, same]
    simp

/-- **The items of joined texts are these texts trimmed**, without those of which nothing is
left. -/
theorem items_join_items {texts : List Text} (all : ∀ t ∈ texts, IsItem t) :
    items (Text.join separator texts) = (texts.map Text.trim).filter fun t => !t.isEmpty := by
  have kept : ∀ texts : List Text, (texts.flatMap fun u => item [u])
      = (texts.map Text.trim).filter fun t => !t.isEmpty := by
    intro texts
    induction texts with
    | nil => rfl
    | cons t texts ih =>
      rw [List.flatMap_cons, ih, item_singleton, List.map_cons, List.filter_cons]
      cases t.trim.isEmpty <;> rfl
  cases texts with
  | nil => rfl
  | cons t texts =>
    obtain ⟨first, others⟩ := List.forall_mem_cons.1 all
    rw [items, Tokenizer.tokenize, Tokenizer.tokenizeWithin, run_items first others,
      itemsFrom_items first others, kept]

end FieldList

/-! ### Lists -/

/-- A list is read if each of its members is, and as what these are read as. -/
theorem Result.mapM_eq_ok_iff {α β : Type} {f : α → Result β} {l : List α} {results : List β} :
    l.mapM f = .ok results ↔ List.Forall₂ (fun a b => f a = .ok b) l results := by
  induction l generalizing results with
  | nil =>
    rw [List.mapM_nil, List.forall₂_nil_left_iff, eq_comm]
    constructor
    · exact Except.ok.inj
    · rintro rfl
      rfl
  | cons a l ih =>
    rw [List.mapM_cons, Result.bind_eq_ok_iff]
    constructor
    · rintro ⟨b, first, more⟩
      obtain ⟨others, rest, same⟩ := Result.exists_of_bind more
      cases same
      exact .cons first (ih.1 rest)
    · intro all
      cases all with
      | @cons _ b _ others first rest =>
        exact ⟨b, first, Result.bind_eq_ok_iff.2 ⟨others, ih.2 rest, rfl⟩⟩

namespace Parser

variable {bindings : Option Bindings}

/-- **A select list is read item by item.** Let texts be well nested, perhaps blank, without commas
outside literals, parentheses and case distinctions. The items of these texts joined with commas are
the texts trimmed, in order, without those of which nothing is left. Whatever is bound, the list is
read exactly if each text that is not blank is read for itself, and then as what these are read as,
in order. -/
theorem reads_items {texts : List Text} (all : ∀ t ∈ texts, FieldList.IsItem t)
    (bindings : Option Bindings) :
    FieldList.items (Text.join FieldList.separator texts)
        = (texts.map Text.trim).filter (fun t => !t.isEmpty)
      ∧ ∀ es, fields (Text.join FieldList.separator texts) bindings = .ok es
          ↔ List.Forall₂ (fun t e => expression t bindings = .ok e)
              (texts.filter fun t => !t.trim.isEmpty) es := by
  have items := FieldList.items_join_items all
  refine ⟨items, fun es => ?_⟩
  have trimmed : (texts.map Text.trim).filter (fun t => !t.isEmpty)
      = (texts.filter fun t => !t.trim.isEmpty).map Text.trim := by
    rw [List.filter_map]
    rfl
  rw [fields_eq_grammar, Grammar.fieldList, items, trimmed, Result.mapM_eq_ok_iff,
    List.forall₂_map_left_iff]
  simp only [expression_trim]

/-! A bound placeholder, a blank, a call whose arguments and literal hold commas, and a case
distinction in lower case. -/

def callText : Text :=
  ['f', '(', '\x7b', 'a', '\x7d', ',', '"', ',', ')', '"', ')']

def distinctionText : Text :=
  ['c', 'a', 's', 'e'] ++ ([' ', 'w', 'h', 'e', 'n', ' ', '1', '=', '1', ' ', 't', 'h', 'e', 'n',
    ' ', '2', ' '] ++ (['e', 'n', 'd'] ++ []))

def mixedItems : List Text :=
  [['%', 'n', '%'], [' ', '\t'], ' ' :: callText, distinctionText]

theorem isItem_mixedItems : ∀ t ∈ mixedItems, FieldList.IsItem t := by
  refine List.forall_mem_cons.2 ⟨?_, List.forall_mem_cons.2 ⟨?_, List.forall_mem_cons.2 ⟨?_,
    List.forall_mem_singleton.2 ?_⟩⟩⟩
  · iterate 3 refine .char (by decide) (by decide) (by decide) (by decide) ?_
    exact .nil
  · iterate 2 refine .char (by decide) (by decide) (by decide) (by decide) ?_
    exact .nil
  · iterate 2 refine .char (by decide) (by decide) (by decide) (by decide) ?_
    refine @NestedWith.group _ (some 'f') ['\x7b', 'a', '\x7d', ',', '"', ',', ')', '"'] [] [] ?_
      .nil
    refine @Nested.field _ none ['a'] [',', '"', ',', ')', '"'] _ (isReference_singleton rfl) ?_
    refine .char (by decide) (by decide) (by decide) (by decide) ?_
    exact @Nested.literal _ _ [',', ')'] [] _ rfl .nil
  · refine .case rfl rfl ?_ rfl rfl .nil
    iterate 17 refine .char (by decide) (by decide) (by decide) (by decide) ?_
    exact .nil

theorem reads_items_mixed : (∀ t ∈ mixedItems, FieldList.IsItem t)
    ∧ FieldList.items (Text.join FieldList.separator mixedItems)
      = [['%', 'n', '%'], callText, distinctionText]
    ∧ fields (Text.join FieldList.separator mixedItems) (some ⟨[("n", .int 5)]⟩)
      = .ok [.var "n" (.int 5),
          .func "f" false [.field ⟨none, "a", none⟩, .scalar (.string ",)") none] none,
          .case [(.simple (.scalar (.int 1) none) .eq (.scalar (.int 1) none),
            .scalar (.int 2) none)] none none] := by
  obtain ⟨items, reads⟩ := reads_items isItem_mixedItems (some ⟨[("n", .int 5)]⟩)
  refine ⟨isItem_mixedItems, items, (reads _).2 ?_⟩
  exact .cons rfl (.cons rfl (.cons rfl .nil))

end Parser

end RecordMapper
