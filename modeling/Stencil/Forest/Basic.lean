import Stencil.Origin

/-! Live nodes. A forest holds every node made so far, each with its parent link, its children and its
content; nodes are named by their number, in the order they were made. -/

namespace Stencil

abbrev NodeId := Nat

namespace Forest

structure Expression where
  source : Bytes
  /-- The displayed value is escaped. -/
  escape : Bool := false
  /-- Undefined variables are guarded. -/
  checked : Bool := true
deriving DecidableEq, Repr

structure Text where
  value : Bytes
  escape : Bool := false
  /-- Continues the text before it without a separator. -/
  inline : Bool := false
  /-- No separator is written after it. -/
  final : Bool := false
deriving DecidableEq, Repr

/-- An argument of a call; a packed one is spread into several at run time. -/
structure Argument where
  packed : Bool
  expression : NodeId
deriving DecidableEq, Repr

structure Bundle where
  attributes : List NodeId := []
  assignments : List NodeId := []
deriving DecidableEq, Repr

structure Tag where
  name : Bytes := []
  /-- An expression computing the name, in place of it. -/
  nameExpr : Option NodeId := none
  /-- Written as self-closing in the template. -/
  autoClosed : Bool := false
  bundle : Bundle := {}
deriving DecidableEq, Repr

structure Attribute where
  name : Bytes := []
  nameExpr : Option NodeId := none
  value : Option NodeId := none
deriving DecidableEq, Repr

structure Mixin where
  name : Bytes
  params : List Bytes := []
  /-- The name of the last parameter if it takes all further arguments. -/
  variadic : Option Bytes := none
deriving DecidableEq, Repr

structure Call where
  name : Bytes
  args : List Argument := []
  bundle : Bundle := {}
deriving DecidableEq, Repr

inductive Content where
  | document
  | doctype (value : Bytes)
  | markup (tag : Tag)
  | text (text : Text)
  | code (source : Bytes)
  | expression (e : Expression)
  | attr (a : Attribute)
  | assignment (name : Bytes)
  | mixin (m : Mixin)
  | call (c : Call)
  | block
  | binding (name : Bytes) (value : Option NodeId)
deriving DecidableEq, Repr

def Content.kindName : Content → Bytes
  | .document => "Document"
  | .doctype _ => "Doctype"
  | .markup _ => "Markup"
  | .text _ => "Text"
  | .code _ => "Code"
  | .expression _ => "Expression"
  | .attr _ => "Attribute"
  | .assignment _ => "Assignment"
  | .mixin _ => "MixinDeclaration"
  | .call _ => "MixinCall"
  | .block => "MixinBlock"
  | .binding .. => "Variable"

structure Node where
  content : Content
  parent : Option NodeId := none
  children : List NodeId := []
  origin : Option Origin := none
deriving DecidableEq, Repr

end Forest

structure Forest where
  nodes : Array Forest.Node := #[]
deriving DecidableEq, Repr

namespace Forest

def empty : Forest := {}

def size (f : Forest) : Nat := f.nodes.size

def get? (f : Forest) (id : NodeId) : Option Node := f.nodes[id]?

def content? (f : Forest) (id : NodeId) : Option Content := (f.get? id).map (·.content)

def parent (f : Forest) (id : NodeId) : Option NodeId := (f.get? id).bind (·.parent)

def children (f : Forest) (id : NodeId) : List NodeId := ((f.get? id).map (·.children)).getD []

def origin (f : Forest) (id : NodeId) : Option Origin := (f.get? id).bind (·.origin)

def modify (f : Forest) (id : NodeId) (g : Node → Node) : Forest := ⟨f.nodes.modify id g⟩

def make (f : Forest) (content : Content) : Forest × NodeId :=
  (⟨f.nodes.push { content }⟩, f.nodes.size)

def setParent (f : Forest) (id : NodeId) (parent : Option NodeId) : Forest :=
  f.modify id fun n => { n with parent }

def setChildren (f : Forest) (id : NodeId) (children : List NodeId) : Forest :=
  f.modify id fun n => { n with children }

def setOrigin (f : Forest) (id : NodeId) (origin : Option Origin) : Forest :=
  f.modify id fun n => { n with origin }

def setContent (f : Forest) (id : NodeId) (content : Content) : Forest :=
  f.modify id fun n => { n with content }

/-- The ancestors from the parent on, nearest first, at most `fuel` of them. -/
def ancestorsFrom (f : Forest) : (fuel : Nat) → NodeId → List NodeId
  | 0, _ => []
  | fuel + 1, id =>
    match f.parent id with
    | some p => p :: ancestorsFrom f fuel p
    | none => []

/-- The ancestors of a node, nearest first. On links without a cycle there are fewer than nodes. -/
def ancestors (f : Forest) (id : NodeId) : List NodeId := f.ancestorsFrom f.size id

def depth (f : Forest) (id : NodeId) : Nat := (f.ancestors id).length

/-- `a` is `id` or one of its ancestors. -/
def isAncestor (f : Forest) (a id : NodeId) : Bool := a == id || (f.ancestors id).contains a

def nextSibling (f : Forest) (id : NodeId) : Option NodeId := do
  let siblings := f.children (← f.parent id)
  let i ← siblings.idxOf? id
  siblings[i + 1]?

def previousSibling (f : Forest) (id : NodeId) : Option NodeId := do
  let siblings := f.children (← f.parent id)
  let i ← siblings.idxOf? id
  if i = 0 then none else siblings[i - 1]?

/-- The node and its descendants, parents first; the children of nodes for which `enter` fails are left
out. -/
def walkFrom (f : Forest) (enter : NodeId → Bool) : (fuel : Nat) → NodeId → List NodeId
  | 0, _ => []
  | fuel + 1, id =>
    id :: if enter id then (f.children id).flatMap (walkFrom f enter fuel) else []

def walk (f : Forest) (enter : NodeId → Bool) (id : NodeId) : List NodeId :=
  f.walkFrom enter f.size id

def bundle? (f : Forest) (id : NodeId) : Option Bundle :=
  match f.content? id with
  | some (.markup t) => some t.bundle
  | some (.call c) => some c.bundle
  | _ => none

def setBundle (f : Forest) (id : NodeId) (b : Bundle) : Forest :=
  f.modify id fun n => { n with
    content := match n.content with
      | .markup t => .markup { t with bundle := b }
      | .call c => .call { c with bundle := b }
      | c => c }

def expressions (f : Forest) (id : NodeId) : List NodeId :=
  (f.children id).filter fun c => match f.content? c with
    | some (.expression _) => true
    | _ => false

def staticName (f : Forest) (id : NodeId) : Option Bytes :=
  match f.content? id with
  | some (.markup t) => if t.nameExpr.isSome then none else some t.name
  | some (.attr a) => if a.nameExpr.isSome then none else some a.name
  | _ => none

end Forest

end Stencil
