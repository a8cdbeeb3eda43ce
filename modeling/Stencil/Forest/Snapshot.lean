import Stencil.Element
import Stencil.Unicode.Lower

/-! The element a live node stands for at one moment. -/

namespace Stencil.Forest

/-- Tags that never start a line of their own. -/
def inlineTags : List Bytes :=
  ["a", "abbr", "acronym", "b", "br", "code", "em", "font", "i", "img", "ins", "kbd", "map", "samp",
   "small", "span", "strong", "sub", "sup"]

def isInlineTag (t : Tag) : Bool :=
  t.nameExpr.isNone && inlineTags.contains (Stencil.Text.lower t.name)

def tag? (f : Forest) (id : NodeId) : Option Tag :=
  match f.content? id with
  | some (.markup t) => some t
  | _ => none

/-- Neither the tag nor any tag above it is inline. -/
def isBlock (f : Forest) (id : NodeId) : Bool :=
  (id :: f.ancestors id).all fun a => !(f.tag? a).any isInlineTag

def snippet? (f : Forest) (id : NodeId) : Option Snippet :=
  match f.content? id with
  | some (.expression e) =>
    some { source := e.source, escape := e.escape, checked := e.checked, origin := f.origin id }
  | _ => none

def attributeValue (f : Forest) : Option NodeId → Stencil.Attribute.Value
  | none => .absent
  | some id =>
    match f.content? id with
    | none => .absent
    | some (.text t) => .text t.value t.escape
    | some (.expression e) =>
      .code { source := e.source, escape := e.escape, checked := e.checked, origin := f.origin id }
    | some c => .other ⟨c.kindName, f.origin id⟩

def attribute? (f : Forest) (id : NodeId) : Option Stencil.Attribute :=
  match f.content? id with
  | some (.attr a) =>
    some { id, name := a.name, nameExpr := a.nameExpr.bind f.snippet?,
           value := f.attributeValue a.value, origin := f.origin id }
  | _ => none

def assignment? (f : Forest) (id : NodeId) : Option Assignment :=
  match f.content? id with
  | some (.assignment name) =>
    some { name, values := (f.children id).filterMap f.snippet?, origin := f.origin id }
  | _ => none

def elementContent (f : Forest) (id : NodeId) : Content → Element.Content
  | .document => .document
  | .doctype value => .doctype value
  | .markup t =>
    .markup { name := t.name, nameExpr := t.nameExpr.bind f.snippet?, autoClosed := t.autoClosed,
              block := f.isBlock id,
              attributes := t.bundle.attributes.filterMap f.attribute?,
              assignments := t.bundle.assignments.filterMap f.assignment? }
  | .text t => .text t
  | .code source => .code source
  | .expression e =>
    .expression { source := e.source, escape := e.escape, checked := e.checked, origin := f.origin id }
  | .mixin m => .mixin { name := m.name, params := m.params, variadic := m.variadic }
  | .call c =>
    .call { name := c.name,
            args := c.args.filterMap fun a => (f.snippet? a.expression).map (⟨a.packed, ·⟩),
            attributes := c.bundle.attributes.filterMap f.attribute?,
            assignments := c.bundle.assignments.filterMap f.assignment? }
  | .block => .block
  | .binding name value => .binding name (value.bind f.snippet?)
  | .attr _ => .stray "Attribute"
  | .assignment _ => .stray "Assignment"

def elementFrom (f : Forest) : (fuel : Nat) → NodeId → Element
  | 0, id => .node id none .document []
  | fuel + 1, id =>
    match f.get? id with
    | none => .node id none .document []
    | some n =>
      .node id n.origin (f.elementContent id n.content) (n.children.map (elementFrom f fuel))

def element (f : Forest) (id : NodeId) : Element := f.elementFrom (f.size + 1) id

end Stencil.Forest
