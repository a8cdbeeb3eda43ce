import Stencil.Compile.Failure
import Stencil.Dialect

/-! Settings of a compilation, given as a list of options that are checked one after the other. -/

namespace Stencil

inductive Handler.NewValue where
  | absent
  | text (t : Forest.Text)
  | code (e : Forest.Expression)
deriving DecidableEq, Repr

structure Handler.NewAttribute where
  name : Bytes
  /-- An expression computing the name, in place of it. -/
  nameExpr : Option Forest.Expression := none
  value : Handler.NewValue
deriving DecidableEq, Repr

/-- What a handler does, step by step: it adds attributes to the owner of an assignment and requires helpers,
going on as that turns out, until it takes the assignment, leaves it or fails. -/
inductive Handler.Script where
  | finish (taken : Bool)
  | fail (f : Failure)
  | add (a : Handler.NewAttribute) (next : Script)
  | require (helper : Bytes) (next : Except Failure Bytes → Script)

/-- What a handler does with an assignment of a tag or a call, which has these attributes at the time. -/
structure Handler.Action where
  script : (owner : NodeId) → (attributes : List Attribute) → Assignment → Handler.Script

namespace Handler.Action

def consume : Action := ⟨fun _ _ _ => .finish true⟩

def decline : Action := ⟨fun _ _ _ => .finish false⟩

def refuse (message : Bytes) : Action := ⟨fun _ _ _ => .fail (.refused message)⟩

/-- Adds an attribute to the owner for every value of the assignment. -/
def addAttribute (name : Bytes) : Action where
  script _ _ a := a.values.foldr (fun s next => .add { name, value := .code { source := s.source } } next) (.finish true)

/-- Requires a helper and adds an attribute calling it. -/
def helper (helper name : Bytes) : Action where
  script _ _ _ := .require helper fun
    | .ok accessor => .add { name, value := .code { source := accessor ++ "($x)", checked := false } } (.finish true)
    | .error f => .fail f

end Handler.Action

/-- Tried on assignments before the built-in merging; one with a name declines all others. -/
structure Handler where
  only : Option Bytes
  action : Handler.Action

structure Settings where
  pretty : Bool := false
  indent : Bytes := "  "
  debug : Bool := false
  defaultFormat : Bytes := "basic"
  /-- Dialects by normal name; `none` where building one fails. -/
  formats : Dictionary (Option Dialect) := []
  patterns : Dictionary Bytes := []
  producers : Dictionary (List Bytes × Producer) := []
  handlers : List Handler := []
  storage : Storage := ⟨Storage.defaultName, none⟩
  maxDepth : Nat := 256
  sourceFile : Bytes := []

inductive Setting where
  | pretty (on : Bool)
  | indent (unit : Bytes)
  | debug (on : Bool)
  | defaultFormat (name : Bytes)
  | format (name : Bytes) (dialect : Option (Option Dialect))
  | patterns (templates : Dictionary Bytes)
  | producer (name : Bytes) (inputs : List Bytes) (body : Option Producer)
  | handlers (hs : List (Option Handler))
  | storage (name : Bytes)
  | getter (get : Option (Bytes → Bytes → Bytes))
  | maxDepth (n : Int)
  | sourceFile (path : Bytes)

inductive Setting.Error where
  | badIndent (unit : Bytes)
  | emptyDefaultFormat
  | emptyFormatName
  | missingFormat (name : Bytes)
  | emptyPatternName
  | missingProducer (name : Bytes)
  | missingHandler (index : Nat)
  | badStorage (name : Bytes)
  | missingGetter
  | badMaxDepth
deriving DecidableEq, Repr

def Setting.Error.message : Setting.Error → Bytes
  | .badIndent unit =>
    "indent must be a non-empty run of spaces and tabs, got " ++ Display.quote unit
  | .emptyDefaultFormat => "default format cannot be empty"
  | .emptyFormatName => "format alias cannot be empty"
  | .missingFormat name => "format " ++ Display.quote name ++ ": factory cannot be nil"
  | .emptyPatternName => "pattern name cannot be empty"
  | .missingProducer name => "pattern " ++ Display.quote name ++ ": function cannot be nil"
  | .missingHandler index => "assignment handler " ++ Bytes.ofNat index ++ " is nil"
  | .badStorage name =>
    "dependencies storage " ++ Display.quote name ++ " is not a valid variable name"
  | .missingGetter => "dependencies storage getter cannot be nil"
  | .badMaxDepth => "max depth must be at least 1"

namespace Settings

/-- All handlers, or the index of the first missing one. -/
def presentHandlers : (index : Nat) → List (Option Handler) → Except Setting.Error (List Handler)
  | _, [] => .ok []
  | i, none :: _ => .error (.missingHandler i)
  | i, some h :: hs => do return h :: (← presentHandlers (i + 1) hs)

def apply (s : Settings) : Setting → Except Setting.Error Settings
  | .pretty on => .ok { s with pretty := on }
  | .indent unit =>
    if unit.isEmpty || !unit.all Ascii.isBlank then .error (.badIndent unit)
    else .ok { s with pretty := true, indent := unit }
  | .debug on => .ok { s with debug := on }
  | .defaultFormat name =>
    if (Text.trim name).isEmpty then .error .emptyDefaultFormat
    else .ok { s with defaultFormat := name }
  | .format name dialect =>
    let key := Dialect.normalName name
    if key.isEmpty then .error .emptyFormatName
    else match dialect with
      | none => .error (.missingFormat name)
      | some d => .ok { s with formats := s.formats.insert key d }
  | .patterns templates =>
    if templates.any (·.1.isEmpty) then .error .emptyPatternName
    else .ok { s with patterns := s.patterns.insertAll templates }
  | .producer name inputs body =>
    if name.isEmpty then .error .emptyPatternName
    else match body with
      | none => .error (.missingProducer name)
      | some b => .ok { s with producers := s.producers.insert name (inputs, b) }
  | .handlers hs => do
    let hs ← presentHandlers 0 hs
    return { s with handlers := s.handlers ++ hs }
  | .storage name =>
    let name := Bytes.dropLead "$" name
    if Ascii.isName name then .ok { s with storage := { s.storage with name } }
    else .error (.badStorage name)
  | .getter get =>
    match get with
    | none => .error .missingGetter
    | some g => .ok { s with storage := { s.storage with getter := some g } }
  | .maxDepth n => if n < 1 then .error .badMaxDepth else .ok { s with maxDepth := n.toNat }
  | .sourceFile path => .ok { s with sourceFile := path }

def ofList (options : List Setting) : Except Setting.Error Settings := options.foldlM apply {}

end Settings

end Stencil
