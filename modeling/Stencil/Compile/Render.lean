import Stencil.Compile.Expansion

/-! Rendering a tree. Every node becomes text in which the places of nodes are still marked; the depth of
nodes and expansions around a node is bounded by a budget. -/

namespace Stencil.Render

open Expansion (Render)

/-- The words that open a block of statements. -/
def blockKeywords : List Bytes :=
  ["catch", "class", "do", "else", "elseif", "extends", "finally", "for", "foreach", "function", "if",
   "implements", "interface", "namespace", "switch", "trait", "try", "while"]

/-- The name of a tag, or code displaying a computed one. -/
def tagName (env : Environment) (site : Site) (t : Tag) : Except Failure Bytes :=
  match t.nameExpr with
  | none => .ok t.name
  | some s => do env.pattern site "php_display_code" [← env.snippet s]

/-- The children of a tag, and whether one of them is a tag on a line of its own. -/
def inner (render : Render) (scope : Scope) (children : List Element) : Rendering (Bytes × Bool) := do
  let outer := (← get).blockSeen
  modify fun p => { p with blockSeen := false }
  let text ← render scope children
  let seen := (← get).blockSeen
  modify fun p => { p with blockSeen := outer }
  return (text, seen)

def pair (env : Environment) (render : Render) (scope : Scope) (site : Site) (name attributes : Bytes)
    (block : Bool) (children : List Element) : Rendering Bytes := do
  let opening ← env.pattern site "open_pair_tag" [name ++ attributes]
  let closing ← env.pattern site "close_pair_tag" [name]
  let (text, seen) ← inner render (if block then scope.indented else scope) children
  let lineBreak := if env.settings.pretty && block && seen then env.indentation scope else []
  return opening ++ text ++ lineBreak ++ closing

def markup (env : Environment) (render : Render) (scope : Scope) (id : NodeId) (origin : Option Origin)
    (site : Site) (t : Tag) (children : List Element) : Rendering Bytes := do
  let name ← tagName env site t
  let selfClosing := env.dialect.isSelfClosing t (!children.isEmpty)
  if selfClosing && !children.isEmpty then
    throw (.incompatibleChildren site ((t.nameExpr.map (·.source)).getD t.name))
  let attributes ← Attributes.write env scope id site t.attributes t.assignments
  let block := env.dialect.startsLine t
  let lineBreak := if env.settings.pretty && block then env.indentation scope else []
  let mark ← Rendering.mark env origin
  let text ← if selfClosing then env.pattern site "self_closing_tag" [name ++ attributes]
    else pair env render scope site name attributes block children
  if block then modify fun p => { p with blockSeen := true }
  return lineBreak ++ mark ++ text

def doctype (env : Environment) (site : Site) (value : Bytes) : Except Failure Bytes :=
  match Dialect.declaration? value with
  | some text => .ok text
  | none => env.pattern site "doctype" []

def text (t : Forest.Text) : Bytes := if t.escape then Entity.escape t.value else t.value

/-- A statement. Its children follow it, or are its block if it opens one. -/
def code (env : Environment) (render : Render) (scope : Scope) (site : Site) (source : Bytes)
    (children : List Element) : Rendering Bytes := do
  let code ← env.code site source false
  if children.isEmpty then env.pattern site "php_handle_code" [code]
  else
    let body ← render scope children
    if blockKeywords.contains (Literal.firstKeyword source) then
      let block ← env.pattern site "php_block_code" [← env.nested site body]
      env.pattern site "php_handle_code" [code ++ block]
    else return (← env.pattern site "php_handle_code" [code]) ++ body

/-- A displayed value; a known one is written as text. -/
def expression (env : Environment) (scope : Scope) (s : Snippet) : Except Failure Bytes :=
  match scope.scalar? s.source with
  | some v => .ok (if s.escape then Entity.escape v.text else v.text)
  | none => do env.display s.site s.escape (← env.snippet s)

def binding (env : Environment) (site : Site) (name : Bytes) : Option Snippet → Except Failure Bytes
  | none => .error (.unexpectedNode site)
  | some s => do env.pattern site "php_handle_code" [name ++ " = " ++ (← env.snippet s)]

/-- The block handed to the mixin being expanded; outside a mixin there is none. -/
def block (env : Environment) (scope : Scope) (site : Site) : Except Failure Bytes :=
  if scope.frames.isEmpty then .ok []
  else env.pattern site "php_handle_code" ["if ($__pug_children) \x7b $__pug_children(); \x7d"]

/-- Puts the mark of a node before its text, once that is known. -/
def marked (env : Environment) (origin : Option Origin) (text : Rendering Bytes) : Rendering Bytes := do
  let text ← text
  return (← Rendering.mark env origin) ++ text

def content (env : Environment) (render : Render) (scope : Scope) : Element → Rendering Bytes
  | .node id origin content children =>
    let site : Site := ⟨content.kindName, origin⟩
    match content with
    | .markup t => markup env render scope id origin site t children
    | .mixin _ => return []
    | .document => marked env origin (render scope children)
    | .doctype value => marked env origin (doctype env site value)
    | .text t => marked env origin (return text t)
    | .code source => marked env origin (code env render scope site source children)
    | .expression s => marked env origin (expression env scope s)
    | .binding name value => marked env origin (binding env site name value)
    | .call c => marked env origin (Expansion.write env render scope id site c children)
    | .block => marked env origin (block env scope site)
    | .stray _ => throw (.unexpectedNode site)

def text? (e : Element) : Option Forest.Text :=
  match e.content with
  | .text t => some t
  | _ => none

/-- A space stands between two texts, unless the first ends or the second continues a line. -/
def separator (before after : Option Forest.Text) : Bytes :=
  match before, after with
  | some a, some b => if !a.final && !b.inline then [Ascii.space] else []
  | _, _ => []

/-- The nodes of a list one after the other; `before` is the text just before, if there is one. -/
def listFrom (one : Element → Rendering Bytes) : (before : Option Forest.Text) → List Element → Rendering Bytes
  | _, [] => return []
  | before, e :: es => do
    let first ← one e
    let rest ← listFrom one (text? e) es
    return separator before (text? e) ++ first ++ rest

/-- A node and everything below it, at most `budget` nodes and expansions deep. -/
def node (env : Environment) : (budget : Nat) → Scope → Element → Rendering Bytes
  | 0, _, e => throw (.tooDeep e.site env.settings.maxDepth)
  | budget + 1, scope, e =>
    content env (fun scope es => listFrom (node env budget scope) none es) scope e

def tree (env : Environment) (e : Element) : Rendering Bytes :=
  node env env.settings.maxDepth .outermost e

/-- The page of a rendered tree. When debugging, the page is wrapped so that errors at run time are reported
with the origin of the current fragment. -/
def page (env : Environment) (site : Site) (body : Bytes) : Rendering Page := do
  let fragments := (← get).ledger.fragments
  if env.settings.debug then
    let opening ← env.pattern site "php_handle_code" ["$__pug_debug_id = 0; try \x7b"]
    let page ← Page.body env site fragments (Page.write {} opening) body
    let rethrow ← Rendering.require env (some site) "debug_rethrow"
    let closing ← env.pattern site "php_handle_code"
      ["\x7d catch (\\Throwable $__pug_error) \x7b " ++ rethrow ++ "($__pug_error, $__pug_debug_id); \x7d"]
    return page.write closing
  else Page.body env site fragments {} body

end Stencil.Render
