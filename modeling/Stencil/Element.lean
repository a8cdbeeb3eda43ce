import Stencil.Forest.Basic

/-! Elements: a tree of nodes as it is rendered. An element holds everything its output depends on; nodes
keep their number so that attributes added to a node while rendering are found again. -/

namespace Stencil

/-- What a report says about a node. -/
structure Site where
  kind : Bytes
  origin : Option Origin
deriving DecidableEq, Repr

structure Snippet where
  source : Bytes
  escape : Bool
  checked : Bool
  origin : Option Origin := none
deriving DecidableEq, Repr

def Snippet.site (s : Snippet) : Site := ⟨"Expression", s.origin⟩

inductive Attribute.Value where
  | absent
  | text (value : Bytes) (escape : Bool)
  | code (s : Snippet)
  /-- A node that cannot be a value. -/
  | other (site : Site)
deriving DecidableEq, Repr

structure Attribute where
  id : NodeId
  name : Bytes
  /-- An expression computing the name, in place of it. -/
  nameExpr : Option Snippet
  value : Attribute.Value
  origin : Option Origin
deriving DecidableEq, Repr

def Attribute.site (a : Attribute) : Site := ⟨"Attribute", a.origin⟩

def Attribute.staticName (a : Attribute) : Option Bytes :=
  if a.nameExpr.isSome then none else some a.name

structure Assignment where
  name : Bytes
  values : List Snippet
  origin : Option Origin
deriving DecidableEq, Repr

def Assignment.site (a : Assignment) : Site := ⟨"Assignment", a.origin⟩

structure Argument where
  packed : Bool
  code : Snippet
deriving DecidableEq, Repr

structure Tag where
  name : Bytes
  nameExpr : Option Snippet
  autoClosed : Bool
  /-- The tag is not an inline one, and neither is any tag around it. -/
  block : Bool
  attributes : List Attribute
  assignments : List Assignment
deriving DecidableEq, Repr

def Tag.staticName (t : Tag) : Option Bytes := if t.nameExpr.isSome then none else some t.name

structure Mixin where
  name : Bytes
  params : List Bytes
  variadic : Option Bytes
deriving DecidableEq, Repr

structure Call where
  name : Bytes
  args : List Argument
  attributes : List Attribute
  assignments : List Assignment
deriving DecidableEq, Repr

inductive Element.Content where
  | document
  | doctype (value : Bytes)
  | markup (tag : Tag)
  | text (text : Forest.Text)
  | code (source : Bytes)
  | expression (s : Snippet)
  | mixin (m : Mixin)
  | call (c : Call)
  | block
  | binding (name : Bytes) (value : Option Snippet)
  /-- An attribute or an assignment, which has no output of its own. -/
  | stray (kind : Bytes)
deriving DecidableEq, Repr, Inhabited

inductive Element where
  | node (id : NodeId) (origin : Option Origin) (content : Element.Content) (children : List Element)
deriving Inhabited

namespace Element

def Content.kindName : Content → Bytes
  | .document => "Document"
  | .doctype _ => "Doctype"
  | .markup _ => "Markup"
  | .text _ => "Text"
  | .code _ => "Code"
  | .expression _ => "Expression"
  | .mixin _ => "MixinDeclaration"
  | .call _ => "MixinCall"
  | .block => "MixinBlock"
  | .binding .. => "Variable"
  | .stray kind => kind

def id : Element → NodeId
  | .node id _ _ _ => id

def origin : Element → Option Origin
  | .node _ origin _ _ => origin

def content : Element → Content
  | .node _ _ content _ => content

def children : Element → List Element
  | .node _ _ _ children => children

def site (e : Element) : Site := ⟨e.content.kindName, e.origin⟩

mutual

/-- The first doctype, parents before children. -/
def doctype? : Element → Option Bytes
  | .node _ _ (.doctype value) _ => some value
  | .node _ _ _ children => firstDoctype? children

def firstDoctype? : List Element → Option Bytes
  | [] => none
  | e :: es =>
    match e.doctype? with
    | some value => some value
    | none => firstDoctype? es

end

structure Declaration where
  mixin : Mixin
  body : List Element

mutual

/-- The mixins declared in a tree, in order; declarations inside a declaration do not count. -/
def declarations : Element → List Declaration
  | .node _ _ (.mixin m) children => [⟨m, children⟩]
  | .node _ _ _ children => declarationsOf children

def declarationsOf : List Element → List Declaration
  | [] => []
  | e :: es => e.declarations ++ declarationsOf es

end

/-- The mixin with a name; of several the last. -/
def findMixin? (ds : List Declaration) (name : Bytes) : Option Declaration :=
  ds.reverse.find? (·.mixin.name == name)

end Element

end Stencil
