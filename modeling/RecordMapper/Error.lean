import RecordMapper.Number.Layout
import RecordMapper.Value.Basic

/-!
Errors as causes with context.

An `Error` is a root cause and the causes added to it as context, the latest first; its message
shows them in that order, separated by colons. A `Cause` says what went wrong, and each kind of
cause keeps its wording in one function.
-/

namespace RecordMapper

/-! ### Kinds of causes -/

/-- What is wrong with a query text. -/
inductive QueryFault where
  | emptyExpression
  | emptyCondition
  | invalidNumber (text : String)
  /-- The parts of an arithmetic chain are not operands with operators between them. -/
  | notAlternating (text : String)
  | unexpectedGroup (text : String)
  | missingOperand (operator text : String)
  | notAnOperator (found text : String)
  | noComparison (text : String)
  | missingSide (operator text : String)
  | leadingConnector (connector : String)
  | missingConnector (before : String)
  | trailingConnector (connector : String)
  | whenWithoutThen (body : String)
  | keywordWithoutValue (keyword body : String)
  | unexpectedInCase (found body : String)
  | noBranch (body : String)
  /-- The text is nested deeper than the parser was asked to follow. -/
  | tooDeep
  | other (message : String)
  deriving DecidableEq, Repr

/-- The wording of a query fault. -/
def QueryFault.message : QueryFault → String
  | .emptyExpression => "empty expression"
  | .emptyCondition => "empty condition"
  | .invalidNumber text => "`" ++ text ++ "` is not a valid number"
  | .notAlternating text => "`" ++ text ++ "` does not alternate operands and operators"
  | .unexpectedGroup text => "unexpected group in `" ++ text ++ "`"
  | .missingOperand operator text =>
    "missing operand next to `" ++ operator ++ "` in `" ++ text ++ "`"
  | .notAnOperator found text => "expected an operator in `" ++ text ++ "`, found `" ++ found ++ "`"
  | .noComparison text => "no comparison operator in `" ++ text ++ "`"
  | .missingSide operator text => "`" ++ operator ++ "` is missing an operand in `" ++ text ++ "`"
  | .leadingConnector connector => "`" ++ connector ++ "` is not preceded by a condition"
  | .missingConnector before => "missing AND/OR before `" ++ before ++ "`"
  | .trailingConnector connector => "`" ++ connector ++ "` is not followed by a condition"
  | .whenWithoutThen body => "WHEN without THEN in CASE `" ++ body ++ "`"
  | .keywordWithoutValue keyword body =>
    "`" ++ keyword ++ "` without a value in CASE `" ++ body ++ "`"
  | .unexpectedInCase found body => "unexpected `" ++ found ++ "` in CASE `" ++ body ++ "`"
  | .noBranch body => "CASE `" ++ body ++ "` has no WHEN branch"
  | .tooDeep => "nested too deeply"
  | .other message => message

/-- What a component does not allow in its configuration. -/
inductive ConfigFault where
  | fixedTrimming
  | emptySeparator
  | emptySelfAlias
  | selfAliasHoldsSeparator (selfAlias separator : String)
  | other (message : String)
  deriving DecidableEq, Repr

/-- The wording of a configuration fault. -/
def ConfigFault.message : ConfigFault → String
  | .fixedTrimming => "the trimming policy of this tokenizer is fixed"
  | .emptySeparator => "alias separator must not be empty"
  | .emptySelfAlias => "self alias must not be empty"
  | .selfAliasHoldsSeparator selfAlias separator =>
    "self alias `" ++ selfAlias ++ "` contains the alias separator `" ++ separator ++ "`"
  | .other message => message

/-- What a schema does not have. -/
inductive SchemaMiss where
  | model (name : String)
  | field (model name : String)
  | relation (model field : String)
  deriving DecidableEq, Repr

/-- The wording of a failed look-up in a schema. -/
def SchemaMiss.message : SchemaMiss → String
  | .model name => "model `" ++ name ++ "` is not registered in the schema"
  | .field owner name => "model `" ++ owner ++ "` has no field `" ++ name ++ "`"
  | .relation owner name => "field `" ++ owner ++ "::" ++ name ++ "` is not a relation"

/-- Why a value cannot be encoded or a document not decoded. -/
inductive CodecFault where
  /-- The text is not a document, or not one of the expected form. -/
  | malformed
  /-- A number that documents cannot hold. -/
  | notEncodable (x : Float)
  /-- A column of a serialized field holds something other than text. -/
  | notText (found : ValueKind)
  | other (message : String)

/-- The wording of a codec fault; where a document is malformed is not said. -/
def CodecFault.message : CodecFault → String
  | .malformed => "<json>"
  | .notEncodable x => "cannot encode " ++ String.ofList (Layout.plain.print x) ++ " as JSON"
  | .notText found => "expected encoded text, found " ++ found.name
  | .other message => message

/-- What went wrong. -/
inductive Cause where
  /-- A cause that is told by its message only. -/
  | adhoc (message : String)
  /-- An error of another library: its message and those of its sources, from the outside in. -/
  | foreign (message : String) (sources : List String)
  | invalidExpression (fault : QueryFault)
  | invalidConfiguration (fault : ConfigFault)
  | schemaLookup (miss : SchemaMiss)
  | deserialization (fault : CodecFault)
  /-- The driver failed: the message of its error and those of its sources. -/
  | driverFailed (message : String) (sources : List String)
  | typeConversion (found : ValueKind) (target : String)

namespace Cause

/-- The text of a cause. -/
def message : Cause → String
  | .adhoc message => message
  | .foreign message _ => message
  | .invalidExpression fault => "invalid expression: " ++ fault.message
  | .invalidConfiguration fault => "invalid configuration: " ++ fault.message
  | .schemaLookup miss => miss.message
  | .deserialization fault => "failed to deserialize value: " ++ fault.message
  | .driverFailed message sources => String.intercalate ": " (message :: sources)
  | .typeConversion found target => "cannot convert " ++ found.name ++ " to " ++ target

/-- The texts of the errors behind a cause, from the outside in. A cause that wraps an error shows
itself first. -/
def sources : Cause → List String
  | .foreign message sources => message :: sources
  | .deserialization .malformed =>
    [(Cause.deserialization .malformed).message, CodecFault.malformed.message]
  | .deserialization fault => [(Cause.deserialization fault).message]
  | .driverFailed message sources =>
    (Cause.driverFailed message sources).message :: message :: sources
  | _ => []

/-- The cause is a fault in a query text. -/
def isInvalidExpression : Cause → Bool
  | .invalidExpression _ => true
  | _ => false

/-- The cause is a fault in a configuration. -/
def isInvalidConfiguration : Cause → Bool
  | .invalidConfiguration _ => true
  | _ => false

/-- The cause is a failed look-up in the schema. -/
def isSchemaLookup : Cause → Bool
  | .schemaLookup _ => true
  | _ => false

/-- The cause is a failed encoding or decoding. -/
def isDeserialization : Cause → Bool
  | .deserialization _ => true
  | _ => false

/-- The cause is a failure of the driver. -/
def isDriverFailed : Cause → Bool
  | .driverFailed _ _ => true
  | _ => false

/-- The cause is a value of the wrong type. -/
def isTypeConversion : Cause → Bool
  | .typeConversion _ _ => true
  | _ => false

end Cause

/-! ### Errors -/

/-- A root cause with the context added to it, the latest context first. -/
structure Error where
  context : List Cause
  root : Cause

/-- The result of what may fail. -/
abbrev Result (α : Type) := Except Error α

namespace Error

instance : Coe Cause Error := ⟨fun cause => ⟨[], cause⟩⟩

/-- Adds context to an error. -/
def addContext (e : Error) (cause : Cause) : Error :=
  { e with context := cause :: e.context }

/-- The causes, the latest context first and the root last. -/
def chain (e : Error) : List Cause :=
  e.context ++ [e.root]

/-- The cause that is shown first. -/
def outermost (e : Error) : Cause :=
  e.context.head?.getD e.root

/-- What is left of an error that is added to another one as context while it is still in use
elsewhere: the text of its outermost cause. -/
def sharedContext (e : Error) : Cause :=
  .adhoc e.outermost.message

/-- The message: the texts of all causes, the root last. -/
def message (e : Error) : String :=
  String.intercalate ": " (e.chain.map Cause.message)

/-- Some cause of the error is of the kind. -/
def isKind (kind : Cause → Bool) (e : Error) : Bool :=
  e.chain.any kind

/-- A cause as the error of a computation. -/
def throw {α : Type} (cause : Cause) : Result α :=
  .error cause

/-- A fault in a query text as the error of a computation. -/
def invalidExpression {α : Type} (fault : QueryFault) : Result α :=
  throw (.invalidExpression fault)

/-- Adds context to the error of a computation, if it fails. -/
def within {α : Type} (cause : Cause) (result : Result α) : Result α :=
  result.mapError fun e => e.addContext cause

end Error

/-! ### Results -/

namespace Result

/-- What succeeds step after step succeeds at the first step and at the others. -/
theorem exists_of_bind {α β : Type} {first : Result α} {next : α → Result β} {b : β}
    (succeeds : first >>= next = .ok b) : ∃ a, first = .ok a ∧ next a = .ok b := by
  cases first with
  | error e => cases succeeds
  | ok a => exact ⟨a, rfl, succeeds⟩

theorem exists_of_map {α β : Type} {result : Result α} {f : α → β} {b : β}
    (succeeds : result.map f = .ok b) : ∃ a, result = .ok a ∧ f a = b := by
  cases result with
  | error e => cases succeeds
  | ok a => exact ⟨a, rfl, Except.ok.inj succeeds⟩

/-- What succeeds step after step, as an equivalence. -/
theorem bind_eq_ok_iff {α β : Type} {first : Result α} {next : α → Result β} {b : β} :
    first >>= next = .ok b ↔ ∃ a, first = .ok a ∧ next a = .ok b := by
  constructor
  · exact exists_of_bind
  · rintro ⟨a, found, succeeds⟩
    rw [found]
    exact succeeds

/-- What fails step after step fails at the first step, or at the others after that succeeds. -/
theorem bind_eq_error_iff {α β : Type} {first : Result α} {next : α → Result β} {e : Error} :
    first >>= next = .error e ↔ first = .error e ∨ ∃ a, first = .ok a ∧ next a = .error e := by
  cases first with
  | error e' =>
    constructor
    · intro failed
      cases failed
      exact .inl rfl
    · rintro (failed | ⟨a, found, -⟩)
      · cases failed
        rfl
      · cases found
  | ok a =>
    constructor
    · exact fun failed => .inr ⟨a, rfl, failed⟩
    · rintro (found | ⟨a', same, failed⟩)
      · cases found
      · cases same
        exact failed

theorem map_eq_error_iff {α β : Type} {result : Result α} {f : α → β} {e : Error} :
    result.map f = .error e ↔ result = .error e := by
  cases result with
  | error e' =>
    constructor
    all_goals
      intro failed
      cases failed
      rfl
  | ok a => exact iff_of_false nofun nofun

/-- The error of a computation with context is one of the computation, with that context. -/
theorem exists_of_within {α : Type} {cause : Cause} {result : Result α} {e : Error}
    (failed : Error.within cause result = .error e) :
    ∃ e', result = .error e' ∧ e = e'.addContext cause := by
  cases result with
  | error e' => exact ⟨e', rfl, (Except.error.inj failed).symm⟩
  | ok a => cases failed

/-- Every item of a list has a result among those of the list. -/
theorem exists_of_mapM {α β : Type} {f : α → Result β} {l : List α} {results : List β}
    (succeeds : l.mapM f = .ok results) {a : α} (mem : a ∈ l) : ∃ b ∈ results, f a = .ok b := by
  induction l generalizing results with
  | nil => cases mem
  | cons x l ih =>
    rw [List.mapM_cons] at succeeds
    obtain ⟨b, first, more⟩ := exists_of_bind succeeds
    obtain ⟨others, rest, same⟩ := exists_of_bind more
    cases same
    rcases List.mem_cons.1 mem with rfl | later
    · exact ⟨b, List.mem_cons_self .., first⟩
    · obtain ⟨c, member, read⟩ := ih rest later
      exact ⟨c, List.mem_cons_of_mem b member, read⟩

/-- A list whose items do not all have a result has one that fails with the same error. -/
theorem exists_of_mapM_error {α β : Type} {f : α → Result β} {l : List α} {e : Error}
    (failed : l.mapM f = .error e) : ∃ a ∈ l, f a = .error e := by
  induction l with
  | nil => cases failed
  | cons x l ih =>
    rw [List.mapM_cons, bind_eq_error_iff] at failed
    rcases failed with first | ⟨b, -, failed⟩
    · exact ⟨x, List.mem_cons_self .., first⟩
    · rcases bind_eq_error_iff.1 failed with others | ⟨results, -, none⟩
      · obtain ⟨a, mem, failed⟩ := ih others
        exact ⟨a, List.mem_cons_of_mem x mem, failed⟩
      · cases none

/-- A check of all items of a list succeeds if it does for each of them. -/
theorem forM_eq_ok_iff {α : Type} {check : α → Result Unit} {l : List α} :
    l.forM check = .ok () ↔ ∀ a ∈ l, check a = .ok () := by
  induction l with
  | nil => exact iff_of_true rfl (List.forall_mem_nil _)
  | cons a l ih =>
    have unfolds : (a :: l).forM check = (check a >>= fun _ => l.forM check) := rfl
    rw [unfolds, List.forall_mem_cons, ← ih]
    cases check a with
    | error e => exact iff_of_false (fun found => by cases found) fun found => by cases found.1
    | ok _ => exact (and_iff_right rfl).symm

end Result

end RecordMapper
