import Stencil.Forest.Mutation
import Stencil.Wire.Basic

/-! Growing live nodes from the wire form. -/

namespace Stencil.Wire

inductive BuildError where
  | missing
  | unknownType (type : Bytes)
  | notAnExpression (type : Bytes)
  | refused (e : Forest.Error)
  | inAttribute (name : Bytes) (e : BuildError)
  | inAssignment (name : Bytes) (e : BuildError)
  | inBinding (name : Bytes) (e : BuildError)
deriving Repr

def BuildError.message : BuildError → Bytes
  | .missing => "element: missing node"
  | .unknownType type => "element: unknown node type " ++ Display.quote type
  | .notAnExpression type => "element: expected expression, got " ++ Display.quote type
  | .refused e => e.message
  | .inAttribute name e => "attribute " ++ name ++ ": " ++ e.message
  | .inAssignment name e => "assignment " ++ name ++ ": " ++ e.message
  | .inBinding name e => "variable " ++ name ++ ": " ++ e.message

/-- Grows a node that may be missing. -/
abbrev Grow := Forest → Option Node → Except BuildError (Forest × NodeId)

def growExpression (grow : Grow) (f : Forest) (n : Option Node) : Except BuildError (Forest × NodeId) := do
  let (f, id) ← grow f n
  match f.content? id with
  | some (.expression _) => return (f, id)
  | _ => .error (.notAnExpression ((n.map (·.fields.type)).getD []))

def growOptional (grow : Grow) (f : Forest) : Option Node → Except BuildError (Forest × Option NodeId)
  | none => .ok (f, none)
  | some n => do
    let (f, id) ← grow f (some n)
    return (f, some id)

def growAttribute (grow : Grow) (owner : NodeId) (f : Forest) (a : AttributeFields Node) :
    Except BuildError Forest := do
  let (f, value) ← (growOptional grow f a.value).mapError (.inAttribute a.name)
  let (f, id) ← match a.nameExpr with
    | some n => do
      let (f, key) ← growExpression grow f (some n)
      pure (f.makeDynamicAttribute key value)
    | none => pure (f.makeAttribute a.name value)
  return (f.setOrigin id a.origin).addAttribute owner id

def growAssignment (grow : Grow) (owner : NodeId) (f : Forest) (a : AssignmentFields Node) :
    Except BuildError Forest := do
  let (f, id) := f.makeAssignment a.name []
  let f ← a.expressions.items.foldlM (fun f e => do
    let (f, eid) ← (growExpression grow f e).mapError (.inAssignment a.name)
    return (f.appendChild id eid).toOption.getD f) f
  return (f.setOrigin id a.origin).addAssignment owner id

def growBundle (grow : Grow) (owner : NodeId) (n : Fields Node) (f : Forest) :
    Except BuildError Forest := do
  let f ← n.attributes.items.foldlM (growAttribute grow owner) f
  n.assignments.items.foldlM (growAssignment grow owner) f

def growMarkup (grow : Grow) (f : Forest) (n : Fields Node) : Except BuildError (Forest × NodeId) := do
  let (f, nameExpr) ← match n.nameExpr with
    | some e => do
      let (f, id) ← growExpression grow f (some e)
      pure (f, some id)
    | none => pure (f, none)
  let (f, id) := f.make (.markup { name := n.name, nameExpr, autoClosed := n.autoClosed })
  let f ← growBundle grow id n (f.adopt id nameExpr)
  return (f, id)

def growContent (grow : Grow) (f : Forest) (n : Fields Node) : Except BuildError (Forest × NodeId) :=
  if n.type == "document" then .ok (f.make .document)
  else if n.type == "doctype" then .ok (f.makeDoctype n.value)
  else if n.type == "markup" then growMarkup grow f n
  else if n.type == "text" then
    .ok (f.make (.text { value := n.value, escape := n.escape, inline := n.inline, final := n.final }))
  else if n.type == "code" then .ok (f.make (.code n.value))
  else if n.type == "expression" then
    .ok (f.make (.expression { source := n.value, escape := n.escape, checked := !n.unchecked }))
  else if n.type == "mixin" then (f.makeMixin n.name n.params.items []).mapError .refused
  else if n.type == "call" then do
    let (f, id) := f.makeCall n.name n.args.items
    return (← growBundle grow id n f, id)
  else if n.type == "block" then .ok (f.make .block)
  else if n.type == "variable" then do
    let (f, value) ← (growExpression grow f n.expr).mapError (.inBinding n.name)
    return f.makeBinding n.name (some value)
  else .error (.unknownType n.type)

def growChild (grow : Grow) (parent : NodeId) (f : Forest) (c : Option Node) :
    Except BuildError Forest := do
  let (f, id) ← grow f c
  (f.appendChild parent id).mapError .refused

/-- Grows a node with everything below it, at most `depth` nodes deep. -/
def grow : (depth : Nat) → Grow
  | 0 => fun _ _ => .error .missing
  | depth + 1 => fun f n =>
    match n with
    | none => .error .missing
    | some n => do
      let (f, id) ← growContent (grow depth) f n.fields
      let f := f.setOrigin id n.fields.origin
      let f ← n.fields.children.items.foldlM (growChild (grow depth) id) f
      return (f, id)

inductive PlantError where
  /-- The text or the type of a value is wrong. -/
  | wire (e : Error)
  /-- The values do not make a tree. -/
  | build (e : BuildError)

def PlantError.message : PlantError → Bytes
  | .wire e => "decoding element tree: " ++ e.message
  | .build e => e.message

def plant (f : Forest) (n : Node) : Except PlantError (Forest × NodeId) :=
  (grow maxDepth f (some n)).mapError .build

def plantJson (f : Forest) (j : Json) : Except PlantError (Forest × NodeId) := do
  plant f (← (ofJson j).mapError .wire)

def plantText (f : Forest) (text : Bytes) : Except PlantError (Forest × NodeId) := do
  plant f (← (parse text).mapError .wire)

end Stencil.Wire
