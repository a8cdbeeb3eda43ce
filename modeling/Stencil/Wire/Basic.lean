import Stencil.Json.Reader
import Stencil.Origin

/-! The wire form of a tree, as another program hands it over in JSON. Every node has the same fields, of
which its type uses some; the nodes below it are of the type `α`. -/

namespace Stencil.Wire

structure AttributeFields (α : Type) where
  name : Bytes := []
  nameExpr : Option α := none
  value : Option α := none
  origin : Option Origin := none

structure AssignmentFields (α : Type) where
  name : Bytes := []
  expressions : Json.Draft (Option α) := {}
  origin : Option Origin := none

structure Fields (α : Type) where
  type : Bytes := []
  name : Bytes := []
  nameExpr : Option α := none
  value : Bytes := []
  expr : Option α := none
  escape : Bool := false
  unchecked : Bool := false
  inline : Bool := false
  final : Bool := false
  autoClosed : Bool := false
  params : Json.Draft Bytes := {}
  args : Json.Draft Bytes := {}
  attributes : Json.Draft (AttributeFields α) := {}
  assignments : Json.Draft (AssignmentFields α) := {}
  children : Json.Draft (Option α) := {}
  origin : Option Origin := none

inductive Node where
  | node (fields : Fields Node)

namespace Node

def fields : Node → Fields Node
  | .node fields => fields

def blank : Node := .node {}

end Node

open Json (Decoder)
open Json.Decoder (field flag optional list record)

def origin : Decoder (Option Origin) := optional {} Origin.decoder

def attributeDecoder (node : Decoder Node) : Decoder (AttributeFields Node) :=
  record "element.jsonAttribute"
    [field "name" (·.name) (fun a v => { a with name := v }) Decoder.text,
     field "nameExpr" (·.nameExpr) (fun a v => { a with nameExpr := v }) (optional .blank node),
     field "value" (·.value) (fun a v => { a with value := v }) (optional .blank node),
     field "origin" (·.origin) (fun a v => { a with origin := v }) origin]

def nodeList (node : Decoder Node) : Decoder (Json.Draft (Option Node)) :=
  list "[]*element.jsonNode" none (optional .blank node)

def assignmentDecoder (node : Decoder Node) : Decoder (AssignmentFields Node) :=
  record "element.jsonAssignment"
    [field "name" (·.name) (fun a v => { a with name := v }) Decoder.text,
     field "expressions" (·.expressions) (fun a v => { a with expressions := v }) (nodeList node),
     field "origin" (·.origin) (fun a v => { a with origin := v }) origin]

def fieldsDecoder (node : Decoder Node) : Decoder (Fields Node) :=
  record "element.jsonNode"
    [field "type" (·.type) (fun n v => { n with type := v }) Decoder.text,
     field "name" (·.name) (fun n v => { n with name := v }) Decoder.text,
     field "nameExpr" (·.nameExpr) (fun n v => { n with nameExpr := v }) (optional .blank node),
     field "value" (·.value) (fun n v => { n with value := v }) Decoder.text,
     field "expr" (·.expr) (fun n v => { n with expr := v }) (optional .blank node),
     field "escape" (·.escape) (fun n v => { n with escape := v }) flag,
     field "unchecked" (·.unchecked) (fun n v => { n with unchecked := v }) flag,
     field "inline" (·.inline) (fun n v => { n with inline := v }) flag,
     field "end" (·.final) (fun n v => { n with final := v }) flag,
     field "autoClosed" (·.autoClosed) (fun n v => { n with autoClosed := v }) flag,
     field "params" (·.params) (fun n v => { n with params := v }) (list "[]string" [] Decoder.text),
     field "args" (·.args) (fun n v => { n with args := v }) (list "[]string" [] Decoder.text),
     field "attributes" (·.attributes) (fun n v => { n with attributes := v })
       (list "[]element.jsonAttribute" {} (attributeDecoder node)),
     field "assignments" (·.assignments) (fun n v => { n with assignments := v })
       (list "[]element.jsonAssignment" {} (assignmentDecoder node)),
     field "children" (·.children) (fun n v => { n with children := v }) (nodeList node),
     field "origin" (·.origin) (fun n v => { n with origin := v }) origin]

/-- Reads a node and what is below it, at most `depth` nodes deep. -/
def decoder : (depth : Nat) → Decoder Node
  | 0 => fun site _ j => Json.Decoder.mismatch site "element.jsonNode" j
  | depth + 1 => fun site prev j => (fieldsDecoder (decoder depth) site prev.fields j).map .node

/-- No text holds deeper trees than JSON nests. -/
def maxDepth : Nat := Json.maxDepth + 1

inductive Error where
  | text (e : Json.Error)
  | type (m : Json.Mismatch)

def Error.message : Error → Bytes
  | .text e => e.message
  | .type m => m.message

def ofJson (j : Json) : Except Error Node := ((decoder maxDepth).run "jsonNode" .blank j).mapError .type

def parse (text : Bytes) : Except Error Node := do
  ofJson (← (Json.parse text).mapError .text)

end Stencil.Wire
