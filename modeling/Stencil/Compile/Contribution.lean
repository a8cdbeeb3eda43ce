import Stencil.Compile.Progress
import Stencil.Merge

/-! Attribute sets before they are merged. An attribute contributes a set of one entry, and a value of an
assignment a set of its own; a set may be known before run time. -/

namespace Stencil

structure Contribution where
  /-- The set, if it is known. -/
  value : Option (List (Key × Value))
  /-- The code of the set. -/
  code : Bytes
  /-- The entry `key => value`, if the set is a single attribute. -/
  entry : Option Bytes := none
  /-- The key of the entry, if it is known and not empty. -/
  key : Option Bytes := none
deriving Inhabited

namespace Contribution

def single (name : Bytes) (v : Value) : List (Key × Value) := (Table.empty.set (.string name) v).entries

/-- A value written as a word, up to case and white space around it: true, false, or nothing. -/
inductive Word where
  | yes | no | nothing
deriving DecidableEq, Repr

def Word.of? (source : Bytes) : Option Word :=
  let w := Text.lower (Text.trim source)
  if w == "true" then some .yes
  else if w == "false" then some .no
  else if w == "null" || w == "undefined" then some .nothing
  else none

def Word.value : Word → Value
  | .yes => .bool true
  | .no => .bool false
  | .nothing => .null

/-- The value of an attribute, if it is known, and the code that computes it. -/
def attributeValue (env : Environment) (scope : Scope) : Attribute.Value → Except Failure (Option Value × Bytes)
  | .absent => .ok (some (.bool true), "true")
  | .text value _ => .ok (some (.string value), Quoted.encode value)
  | .code s =>
    match Word.of? s.source with
    | some w => .ok (some w.value, Literal.write w.value)
    | none => do
      let code ← env.snippet s
      return (scope.constant? s.source, code)
  | .other site => .error (.unexpectedNode site)

def keyCode (env : Environment) (a : Attribute) : Except Failure Bytes :=
  match a.nameExpr with
  | some s => env.snippet s
  | none => .ok (Quoted.encode a.name)

def ofAttribute (env : Environment) (scope : Scope) (a : Attribute) : Except Failure Contribution := do
  let key ← keyCode env a
  let (value, code) ← attributeValue env scope a.value
  let entry := key ++ " => " ++ code
  return { value := if a.nameExpr.isSome then none else value.map (single a.name)
           code := Ascii.lbracket :: (entry ++ [Ascii.rbracket])
           entry := some entry
           key := a.staticName.filter (!·.isEmpty) }

/-- The set an attribute list stands for, if its value is known to be one. -/
def setOf? : Value → Option (List (Key × Value))
  | .array entries => some entries
  | .null => some []
  | _ => none

/-- One value of an assignment: `attributes` takes a whole set, any other name sets one key. -/
def ofAssignment (env : Environment) (scope : Scope) (name : Bytes) (s : Snippet) :
    Except Failure Contribution := do
  let code ← env.snippet s
  let value := scope.constant? s.source
  if name == "attributes" then return { value := value.bind setOf?, code }
  else
    return { value := value.map (single name)
             code := Ascii.lbracket :: (Quoted.encode name ++ " => " ++ code ++ [Ascii.rbracket]) }

def ofAssignments (env : Environment) (scope : Scope) : List Assignment → Except Failure (List Contribution)
  | [] => .ok []
  | a :: rest => do
    let cs ← a.values.mapM (ofAssignment env scope a.name)
    return cs ++ (← ofAssignments env scope rest)

/-- The sets of attributes, then those of assignments. -/
def collect (env : Environment) (scope : Scope) (attributes : List Attribute)
    (assignments : List Assignment) : Except Failure (List Contribution) := do
  let cs ← attributes.mapM (ofAttribute env scope)
  return cs ++ (← ofAssignments env scope assignments)

def merged? (cs : List Contribution) : Option (List (Key × Value)) :=
  Option.map Merge.attributes (cs.mapM fun c => c.value)

/-- An array of the collected entries, latest first. -/
def flush (entries : List Bytes) : List Bytes :=
  if entries.isEmpty then []
  else [Ascii.lbracket :: (Bytes.join ", " entries.reverse ++ [Ascii.rbracket])]

/-- The codes of the sets. Entries with different keys that follow one another share an array; `keys` are
those of the array being collected. -/
def codesFrom : (keys entries : List Bytes) → List Contribution → List Bytes
  | _, entries, [] => flush entries
  | keys, entries, c :: cs =>
    match c.entry with
    | none => flush entries ++ c.code :: codesFrom [] [] cs
    | some entry =>
      match c.key with
      | none => codesFrom keys (entry :: entries) cs
      | some k =>
        if keys.contains k then flush entries ++ codesFrom [k] [entry] cs
        else codesFrom (k :: keys) (entry :: entries) cs

def codes (cs : List Contribution) : List Bytes := codesFrom [] [] cs

def hasDuplicateKey (cs : List Contribution) : Bool := !(cs.filterMap (·.key)).Nodup

end Contribution

end Stencil
