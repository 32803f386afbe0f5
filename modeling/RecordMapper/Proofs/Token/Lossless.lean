import RecordMapper.Proofs.Token.Boundaries
import RecordMapper.Proofs.Token.Seek

/-!
Tokenizers that lose nothing.

`Symbol.KeepsText` says which symbols take nothing off a text: those that are written as they are
registered, and spans that keep their delimiters. What such a symbol recognizes is what stands at
the end of the text read so far and at the start of the text ahead (`Match.Keeps`), so that the flat
texts of the tokens, joined from left to right, are the text (`Tokenizer.flattenAll_run`).

Where only literals are registered, the text since the last token never holds one of them
(`Tokenizer.cut_run`): a literal is taken out as soon as its last character is read.
-/

namespace RecordMapper

open Text

/-! ### Texts of tokens -/

namespace Token

mutual

/-- The flat texts in a token, joined from left to right. -/
def flatten : Token → Text
  | .text t => t
  | .nested tokens => flattenAll tokens

/-- The flat texts in tokens, joined from left to right. -/
def flattenAll : List Token → Text
  | [] => []
  | token :: rest => token.flatten ++ flattenAll rest

end

theorem flattenAll_append (tokens others : List Token) :
    flattenAll (tokens ++ others) = flattenAll tokens ++ flattenAll others := by
  induction tokens with
  | nil => rfl
  | cons token rest ih => rw [List.cons_append, flattenAll, flattenAll, ih, List.append_assoc]

end Token

/-- The text of a piece. -/
def Piece.text : Piece → Text
  | .flat t => t
  | .interior t => t

/-! ### Symbols -/

/-- The span takes nothing off a text: its delimiters are written as they are registered, and stay
with an interior that is taken out. -/
structure Span.KeepsText (s : Span) : Prop where
  keyword : s.keyword = false
  opening : s.opening ≠ []
  closing : s.closing ≠ []
  delimiters : s.interior ≠ .inline → s.keepDelimiters = true

/-- The symbol takes nothing off a text. -/
def Symbol.KeepsText : Symbol → Prop
  | .literal t ignoreCase => t ≠ [] ∧ ignoreCase = false
  | .span s => s.KeepsText

/-- What is recognized between `seen` and `rest` keeps the text: it ends in the text ahead, and the
token that ends with it and the pieces are all that was read. -/
inductive Match.Keeps (seen rest : Text) : Match → Prop
  | extend {x behind : Text} (ahead : rest = x ++ behind) : Keeps seen rest (.extend x.length)
  | split {before x behind : Text} {pieces : List Piece} (ahead : rest = x ++ behind)
    (whole : seen.reverse ++ x = before ++ pieces.flatMap Piece.text)
    (inside : ∀ contents, .interior contents ∈ pieces → contents.length ≤ x.length) :
    Keeps seen rest (.split before pieces x.length)

namespace Symbol

variable {seen rest : Text} {m : Match}

theorem keeps_literal {t : Text} (found : match? seen rest (.literal t false) = some m) :
    ∃ before, seen = t.reverse ++ before ∧ m = .split before.reverse [.flat t] 0 := by
  rw [match?] at found
  split at found
  · cases found
  · obtain ⟨before, read, rfl⟩ := Option.map_eq_some_iff.1 found
    exact ⟨before, after?_false_iff.1 read, rfl⟩

/-- The pieces of a span that is taken out are the span. -/
theorem flatMap_pieces {s : Span} (keeps : s.KeepsText) (outside : s.interior ≠ .inline)
    (contents : Text) :
    (pieces s contents).flatMap Piece.text = s.opening ++ contents ++ s.closing := by
  rw [pieces, keeps.delimiters outside]
  cases interior : s.interior with
  | inline => exact absurd interior outside
  | _ => simp [Piece.text]

theorem eq_of_interior_mem_pieces {s : Span} {contents inner : Text}
    (mem : .interior inner ∈ pieces s contents) : inner = contents := by
  unfold pieces at mem
  split at mem <;> simp_all

/-- **A symbol that takes nothing off a text keeps it.** -/
theorem keeps_of_match? {symbol : Symbol} (keeps : symbol.KeepsText)
    (found : symbol.match? seen rest = some m) : m.Keeps seen rest := by
  cases symbol with
  | literal t ignoreCase =>
    obtain ⟨-, rfl⟩ := keeps
    obtain ⟨before, rfl, rfl⟩ := keeps_literal found
    refine @Match.Keeps.split _ _ _ [] rest _ rfl ?_ nofun
    simp [Piece.text]
  | span s =>
    have keeps : s.KeepsText := keeps
    obtain ⟨front, contents, behind, opened, closed, -, rfl⟩ := exists_of_span found
    obtain ⟨before, read, -, rfl⟩ := Span.exists_of_openAtEnd? opened
    rw [keeps.keyword, after?_false_iff] at read
    have ahead := Span.eq_append_of_close? keeps.keyword keeps.closing closed
    rw [← List.append_assoc] at ahead
    have consumed : rest.length - behind.length = (contents ++ s.closing).length := by
      rw [ahead, List.length_append, Nat.add_sub_cancel]
    rw [consumed]
    split
    · exact .extend ahead
    · rename_i outside
      refine .split ahead ?_ fun inner mem => ?_
      · rw [flatMap_pieces keeps outside, read]
        simp
      · rw [eq_of_interior_mem_pieces mem, List.length_append]
        exact Nat.le_add_right _ _

end Symbol

/-! ### Runs -/

namespace Tokenizer

variable {t : Tokenizer}

theorem flattenAll_flat (untrimmed : t.trim = false) (x : Text) :
    Token.flattenAll (t.flat x) = x := by
  rw [flat, untrimmed]
  cases x with
  | nil => rfl
  | cons c x => simp [Token.flattenAll, Token.flatten]

/-- Pieces as tokens have the texts of the pieces, if the interiors do. -/
theorem flattenAll_pieces (untrimmed : t.trim = false) {inner : Text → List Token}
    {pieces : List Piece}
    (within : ∀ contents, .interior contents ∈ pieces → Token.flattenAll (inner contents) = contents) :
    Token.flattenAll (pieces.flatMap (t.ofPiece inner)) = pieces.flatMap Piece.text := by
  induction pieces with
  | nil => rfl
  | cons piece rest ih =>
    have later := ih fun contents mem => within contents (List.mem_cons_of_mem _ mem)
    rw [List.flatMap_cons, List.flatMap_cons, Token.flattenAll_append, later]
    congr 1
    cases piece with
    | flat x => exact flattenAll_flat untrimmed x
    | interior x => simpa [ofPiece, Token.flattenAll, Token.flatten, Piece.text] using within x (by simp)

theorem keeps_of_firstMatch? (keeps : ∀ symbol ∈ t.symbols, symbol.KeepsText) {seen rest : Text}
    {m : Match} (found : t.firstMatch? seen rest = some m) : m.Keeps seen rest := by
  obtain ⟨symbol, mem, found⟩ := List.exists_of_findSome?_eq_some found
  exact symbol.keeps_of_match? (keeps symbol mem) found

/-- **A run keeps its text**: what was read since the last token and what lies ahead. -/
theorem flattenAll_run (untrimmed : t.trim = false)
    (keeps : ∀ symbol ∈ t.symbols, symbol.KeepsText) {inner : Text → List Token} (seen : Text)
    {ahead : Text}
    (within : ∀ contents, contents.length < ahead.length →
      Token.flattenAll (inner contents) = contents) :
    Token.flattenAll (t.run inner seen .read ahead) = seen.reverse ++ ahead := by
  induction size : ahead.length using Nat.strong_induction_on generalizing seen ahead with
  | h length ih =>
    subst size
    cases ahead with
    | nil => rw [run, flattenAll_flat untrimmed, List.append_nil]
    | cons c rest =>
      have behind : ∀ (seen : Text) {later : Text}, later.length ≤ rest.length →
          Token.flattenAll (t.run inner seen .read later) = seen.reverse ++ later := by
        intro seen later le
        have shorter : later.length < (c :: rest).length := Nat.lt_succ_of_le le
        exact ih later.length shorter seen
          (fun contents less => within contents (Nat.lt_trans less shorter)) rfl
      rw [run_read_cons]
      cases found : t.firstMatch? (c :: seen) rest with
      | none =>
        simp only
        rw [behind (c :: seen) (Nat.le_refl _)]
        simp
      | some m =>
        cases keeps_of_firstMatch? keeps found with
        | @extend x later split =>
          subst split
          simp only [run_draw]
          rw [behind _ (by simp)]
          simp
        | @split before x later pieces split whole inside =>
          subst split
          have interiors : ∀ contents, .interior contents ∈ pieces →
              Token.flattenAll (inner contents) = contents := by
            intro contents mem
            have le := inside contents mem
            refine within contents ?_
            rw [List.length_cons, List.length_append]
            omega
          simp only [run_drop]
          rw [Token.flattenAll_append, Token.flattenAll_append, flattenAll_flat untrimmed,
            flattenAll_pieces untrimmed interiors, ← whole, behind [] (by simp)]
          simp

/-- A tokenizer that takes nothing off keeps every text, given enough depth. -/
theorem flattenAll_tokenizeWithin (untrimmed : t.trim = false)
    (keeps : ∀ symbol ∈ t.symbols, symbol.KeepsText) {depth : Nat} {text : Text}
    (enough : text.length < depth) : Token.flattenAll (t.tokenizeWithin depth text) = text := by
  induction depth generalizing text with
  | zero => cases enough
  | succ depth ih =>
    rw [tokenizeWithin, flattenAll_run untrimmed keeps [] fun contents less => ih (by omega)]
    rfl

/-! ### Literals -/

/-- The text holds no literal of the tokenizer. -/
def Lacks (t : Tokenizer) (x : Text) : Prop :=
  ∀ l, .literal l false ∈ t.symbols → ¬ l <:+: x

/-- The token is a literal of the tokenizer, or a text that holds none. -/
def Cuts (t : Tokenizer) (token : Token) : Prop :=
  ∃ x, token = .text x ∧ (.literal x false ∈ t.symbols ∨ t.Lacks x)

theorem Lacks.of_infix {x y : Text} (lacks : t.Lacks y) (inside : x <:+: y) : t.Lacks x :=
  fun l mem occurs => lacks l mem (occurs.trans inside)

theorem eq_of_mem_flat (untrimmed : t.trim = false) {x : Text} {token : Token}
    (mem : token ∈ t.flat x) : token = .text x := by
  rw [flat, untrimmed] at mem
  cases x <;> simp_all

/-- What stands before a literal was read before its last character. -/
theorem infix_of_read {c : Char} {seen l before : Text} (nonempty : l ≠ [])
    (read : c :: seen = l.reverse ++ before) : before.reverse <:+: seen.reverse := by
  obtain ⟨d, l', reversed⟩ := List.exists_cons_of_ne_nil (mt List.reverse_eq_nil_iff.1 nonempty)
  rw [reversed] at read
  have behind : seen = l' ++ before := (List.cons.inj read).2
  rw [behind, List.reverse_append]
  exact (List.prefix_append _ _).isInfix

section Literals

variable (only : ∀ symbol ∈ t.symbols, ∃ l, symbol = .literal l false ∧ l ≠ [])
include only

theorem lacks_nil : t.Lacks [] := by
  intro l mem occurs
  obtain ⟨_, same, nonempty⟩ := only _ mem
  cases same
  exact nonempty (List.eq_nil_of_infix_nil occurs)

/-- Where nothing is recognized, no literal ends. -/
theorem Lacks.read {c : Char} {seen rest : Text} (lacks : t.Lacks seen.reverse)
    (missed : t.firstMatch? (c :: seen) rest = none) : t.Lacks (c :: seen).reverse := by
  intro l mem occurs
  rw [List.reverse_cons] at occurs
  rcases List.infix_concat_iff.1 occurs with ends | before
  · have none := List.findSome?_eq_none_iff.1 missed _ mem
    obtain ⟨_, same, nonempty⟩ := only _ mem
    cases same
    have starts : l.reverse <+: c :: seen := by
      rw [← List.reverse_suffix]
      simpa using ends
    obtain ⟨before, read⟩ := starts
    rw [← read] at none
    simp [Symbol.match?, nonempty, after?_append] at none
  · exact lacks l mem before

/-- A run of literals cuts its text at all of them. -/
theorem cut_run (untrimmed : t.trim = false) {inner : Text → List Token} {seen ahead : Text}
    (lacks : t.Lacks seen.reverse) : ∀ token ∈ t.run inner seen .read ahead, t.Cuts token := by
  have flat : ∀ {x : Text}, .literal x false ∈ t.symbols ∨ t.Lacks x →
      ∀ token ∈ t.flat x, t.Cuts token :=
    fun cut token mem => ⟨_, eq_of_mem_flat untrimmed mem, cut⟩
  induction ahead generalizing seen with
  | nil =>
    rw [run]
    exact flat (.inr lacks)
  | cons c rest ih =>
    rw [run_read_cons]
    cases found : t.firstMatch? (c :: seen) rest with
    | none => exact ih (lacks.read only found)
    | some m =>
      obtain ⟨symbol, mem, found⟩ := List.exists_of_findSome?_eq_some found
      obtain ⟨l, rfl, nonempty⟩ := only symbol mem
      obtain ⟨before, read, rfl⟩ := Symbol.keeps_literal found
      intro token member
      simp only [List.flatMap_cons, List.flatMap_nil, List.append_nil, ofPiece, run_drop_zero,
        List.mem_append] at member
      rcases member with (first | literal) | later
      · exact flat (.inr (lacks.of_infix (infix_of_read nonempty read))) token first
      · exact flat (.inl mem) token literal
      · exact @ih [] (lacks_nil only) token later

end Literals

/-- **A tokenizer loses, duplicates and reorders nothing**: without trimming, and if its symbols
take nothing off a text, the flat texts of the tokens, joined from left to right, are the text. If
only literals are registered, each token is one of them or holds none. -/
theorem tokenize_lossless (t : Tokenizer) (untrimmed : t.trim = false)
    (keeps : ∀ symbol ∈ t.symbols, symbol.KeepsText) (text : Text) :
    Token.flattenAll (t.tokenize text) = text ∧
      ((∀ symbol ∈ t.symbols, ∃ l ignoreCase, symbol = .literal l ignoreCase) →
        ∀ token ∈ t.tokenize text, t.Cuts token) := by
  refine ⟨flattenAll_tokenizeWithin untrimmed keeps (Nat.lt_succ_self _), fun simple => ?_⟩
  have only : ∀ symbol ∈ t.symbols, ∃ l, symbol = .literal l false ∧ l ≠ [] := by
    intro symbol mem
    obtain ⟨l, ignoreCase, rfl⟩ := simple symbol mem
    obtain ⟨nonempty, rfl⟩ := keeps _ mem
    exact ⟨l, rfl, nonempty⟩
  exact cut_run only untrimmed (lacks_nil only)

/-- Text between guillemets is tokenized in turn. The escape is the first byte of an accented letter,
so that the search for the close goes on within the letter. -/
def guillemets : Tokenizer where
  symbols := [.literal [','] false,
    .span { opening := ['«'], closing := ['»'], interior := .recursive, keepDelimiters := true
            escape := Byte.ofChar? 'Ã' }]

/-- Nothing is lost between nested guillemets, and a list is cut at its separators. -/
theorem tokenize_lossless_guillemets :
    (guillemets.tokenize "a,«é,«b»»c".toList = [.text ['a'], .text [','], .text ['«'],
        .nested [.text ['é'], .text [','], .text ['«'], .nested [.text ['b']], .text ['»']],
        .text ['»'], .text ['c']] ∧
      Token.flattenAll (guillemets.tokenize "a,«é,«b»»c".toList) = "a,«é,«b»»c".toList) ∧
    ∀ token ∈ tokenize { symbols := [.literal [',', ' '] false] } "a, b".toList,
      Cuts { symbols := [.literal [',', ' '] false] } token := by
  have keeps : ∀ symbol ∈ guillemets.symbols, symbol.KeepsText := by
    simp only [guillemets, List.forall_mem_cons]
    exact ⟨⟨nofun, rfl⟩, ⟨rfl, nofun, nofun, fun _ => rfl⟩, List.forall_mem_nil _⟩
  refine ⟨⟨rfl, (tokenize_lossless guillemets rfl keeps _).1⟩, ?_⟩
  refine (tokenize_lossless _ rfl ?_ _).2 ?_
  · exact List.forall_mem_singleton.2 ⟨nofun, rfl⟩
  · exact List.forall_mem_singleton.2 ⟨_, _, rfl⟩

end Tokenizer

end RecordMapper
