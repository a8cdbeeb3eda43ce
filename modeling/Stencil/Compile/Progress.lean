import Stencil.Compile.Environment
import Stencil.Compile.Ledger
import Stencil.Compile.Page

/-! The course of one rendering. Failing ends it, but what it noted until then stays visible. -/

namespace Stencil

/-- An attribute that a handler adds to a tag or a call while it is rendered. -/
structure Addition where
  owner : NodeId
  attr : NodeId
  content : Handler.NewAttribute
deriving DecidableEq, Repr

def Handler.NewValue.toValue : Handler.NewValue → Attribute.Value
  | .absent => .absent
  | .text t => .text t.value t.escape
  | .code e => .code { source := e.source, escape := e.escape, checked := e.checked }

def Addition.toAttribute (a : Addition) : Attribute :=
  { id := a.attr, name := a.content.name
    nameExpr := a.content.nameExpr.map fun e => { source := e.source, escape := e.escape, checked := e.checked }
    value := a.content.value.toValue, origin := none }

/-- How many nodes an attribute brings besides its own. -/
def Handler.NewAttribute.parts (a : Handler.NewAttribute) : Nat :=
  a.nameExpr.toList.length + match a.value with
    | .absent => 0
    | _ => 1

structure Progress where
  ledger : Ledger
  /-- The attributes added so far, in order. -/
  additions : List Addition := []
  /-- The number the next new node gets. -/
  nextNode : NodeId
  /-- How many temporaries for keys, and for scopes and argument lists, are in use. -/
  keys : Nat := 0
  scopes : Nat := 0
  /-- A tag on a line of its own was rendered among the current children. -/
  blockSeen : Bool := false

abbrev Rendering := ExceptT Failure (StateM Progress)

namespace Rendering

def say (topic : Topic) (line : Bytes) : Rendering Unit :=
  modify fun p => { p with ledger := p.ledger.say topic line }

/-- Requires a helper and gives the code that reads it. -/
def require (env : Environment) (site : Option Site) (name : Bytes) : Rendering Bytes := do
  let ledger ← (← get).ledger.require site name
  modify fun p => { p with ledger }
  return env.settings.storage.accessor name

/-- The mark of a node's text, if the node has an origin. -/
def mark (env : Environment) (origin : Option Origin) : Rendering Bytes :=
  match origin with
  | none => return []
  | some o => do
    let o := if o.file.isEmpty then { o with file := env.settings.sourceFile } else o
    modify fun p => { p with ledger := p.ledger.addFragment o }
    return Page.mark (← get).ledger.fragments.size

def freshKey : Rendering Bytes := do
  let n := (← get).keys
  modify fun p => { p with keys := n + 1 }
  return "$__pug_key_" ++ Bytes.ofNat n

def freshScope : Rendering Nat := do
  let n := (← get).scopes
  modify fun p => { p with scopes := n + 1 }
  return n

/-- Adds an attribute to a tag or a call; its computed name and its value get numbers of their own. -/
def addAttribute (owner : NodeId) (a : Handler.NewAttribute) : Rendering Unit :=
  modify fun p =>
    { p with
      additions := p.additions ++ [{ owner, attr := p.nextNode + a.parts, content := a }]
      nextNode := p.nextNode + a.parts + 1 }

/-- The attributes of a tag or a call with those added to it. -/
def attributesOf (owner : NodeId) (attributes : List Attribute) : Rendering (List Attribute) := do
  return attributes ++ ((← get).additions.filter (·.owner == owner)).map Addition.toAttribute

end Rendering

end Stencil
