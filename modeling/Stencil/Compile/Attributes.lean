import Stencil.Compile.Contribution
import Stencil.Entity

/-! Writing the attributes of a tag. Assignments, repeated classes or styles and classes or styles computed
at run time are merged; all others are written one by one. -/

namespace Stencil

/-- Carries out what a handler does to `owner`; says whether it takes the assignment. -/
def Handler.Script.run (env : Environment) (owner : NodeId) : Handler.Script → Rendering Bool
  | .finish taken => return taken
  | .fail f => throw f
  | .add a next => do
    Rendering.addAttribute owner a
    next.run env owner
  | .require helper next => do
    match (← get).ledger.require none helper with
    | .error f => (next (.error f)).run env owner
    | .ok ledger =>
      modify fun p => { p with ledger }
      (next (.ok (env.settings.storage.accessor helper))).run env owner

def Handler.run (h : Handler) (env : Environment) (owner : NodeId) (attributes : List Attribute) (a : Assignment) :
    Rendering Bool :=
  if h.only.any (· != a.name) then return false
  else do
    let attributes ← Rendering.attributesOf owner attributes
    (h.action.script owner attributes a).run env owner

namespace Attributes

/-- Offers an assignment to the handlers from number `index` on. -/
def offer (env : Environment) (owner : NodeId) (attributes : List Attribute) (a : Assignment) :
    (index : Nat) → List Handler → Rendering Bool
  | _, [] => return false
  | index, h :: hs => do
    if ← h.run env owner attributes a then
      Rendering.say .format ("assignment &" ++ a.name ++ " consumed by handler " ++ Bytes.ofNat index)
      return true
    else offer env owner attributes a (index + 1) hs

def isBuiltin (name : Bytes) : Bool := name == "attributes" || name == "class" || name == "style"

/-- The assignments no handler takes; each has to be one that is merged. -/
def pending (env : Environment) (owner : NodeId) (attributes : List Attribute) :
    List Assignment → Rendering (List Assignment)
  | [] => return []
  | a :: rest => do
    if ← offer env owner attributes a 0 env.settings.handlers then pending env owner attributes rest
    else if isBuiltin a.name then return a :: (← pending env owner attributes rest)
    else throw (.unhandledAssignment a.site a.name)

/-- The value is computed at run time or is no plain text. -/
def isComputed (scope : Scope) : Attribute.Value → Bool
  | .code s => (scope.scalar? s.source).isNone
  | _ => false

/-- A class or style comes twice or is computed; `seen` holds the names before. -/
def needMerge (scope : Scope) : (seen : List Bytes) → List Attribute → Bool
  | _, [] => false
  | seen, a :: rest =>
    match a.staticName with
    | some name =>
      if name == "class" || name == "style" then
        seen.contains name || isComputed scope a.value || needMerge scope (name :: seen) rest
      else needMerge scope seen rest
    | none => needMerge scope seen rest

/-- One entry of a merged set. Nothing is written for null, false, and an empty class or style. -/
def entry (env : Environment) (site : Site) : Key × Value → Except Failure Bytes
  | (key, v) =>
    let name := key.toValue.text
    match v with
    | .null => .ok []
    | .bool false => .ok []
    | .bool true => env.pattern site "boolean_attribute_pattern" [name, name]
    | v =>
      if (name == "class" || name == "style") && v.text.isEmpty then .ok []
      else env.pattern site "attribute_pattern" [name, Entity.escape v.text]

def entries (env : Environment) (site : Site) (set : List (Key × Value)) : Except Failure Bytes := do
  return (← set.mapM (entry env site)).flatten

/-- Merges now if all sets are known, and at run time if not. -/
def merge (env : Environment) (site : Site) (cs : List Contribution) : Rendering Bytes :=
  match Contribution.merged? cs with
  | some set => entries env site set
  | none => do
    let accessor ← Rendering.require env (some site) "attributes_assignment"
    env.pattern site "php_display_code"
      [accessor ++ "(" ++ Bytes.join ", " (Contribution.codes cs) ++ ")"]

def key (env : Environment) (a : Attribute) : Except Failure Bytes :=
  match a.nameExpr with
  | none => .ok a.name
  | some s => do env.pattern a.site "php_display_code" [← env.snippet s]

def pair (env : Environment) (a : Attribute) (value : Bytes) : Except Failure Bytes := do
  env.pattern a.site "attribute_pattern" [← key env a, value]

/-- An attribute without value. A computed name is kept in a temporary, since it may be displayed twice. -/
def bare (env : Environment) (a : Attribute) : Rendering Bytes :=
  match a.nameExpr with
  | none => env.pattern a.site "boolean_attribute_pattern" [a.name, a.name]
  | some s => do
    let code ← env.snippet s
    let temporary ← Rendering.freshKey
    let assign ← env.pattern a.site "php_handle_code" [temporary ++ " = " ++ code ++ ";"]
    let key ← env.pattern a.site "php_display_code" [temporary]
    return assign ++ (← env.pattern a.site "boolean_attribute_pattern" [key, key])

/-- A value that is known: true is written without value, false and null are not written. -/
def known (env : Environment) (a : Attribute) (escape : Bool) : Value → Rendering Bytes
  | .bool true => bare env a
  | .bool false => return []
  | .null => return []
  | v => pair env a (if escape then Entity.escape v.text else v.text)

def single (env : Environment) (scope : Scope) (a : Attribute) : Rendering Bytes :=
  match a.value with
  | .absent => bare env a
  | .text value escape => pair env a (if escape then Entity.escape value else value)
  | .code s =>
    match Contribution.Word.of? s.source with
    | some w => known env a s.escape w.value
    | none =>
      match scope.scalar? s.source with
      | some v => known env a s.escape v
      | none => do
        let code ← env.snippet s
        pair env a (← env.display s.site s.escape code)
  | .other site => throw (.unexpectedNode site)

def write (env : Environment) (scope : Scope) (owner : NodeId) (site : Site) (attributes : List Attribute)
    (assignments : List Assignment) : Rendering Bytes := do
  let assignments ← pending env owner attributes assignments
  let attributes ← Rendering.attributesOf owner attributes
  if !assignments.isEmpty || needMerge scope [] attributes then
    merge env site (← Contribution.collect env scope attributes assignments)
  else return (← attributes.mapM (single env scope)).flatten

end Attributes

end Stencil
