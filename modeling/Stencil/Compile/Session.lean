import Stencil.Compile.Render
import Stencil.Forest.Mutation
import Stencil.Forest.Snapshot

/-! Sessions. A session renders trees one after the other under the same settings and gathers the helpers
they need; the preamble declares these once for all of them. -/

namespace Stencil

inductive Selector where
  /-- By the first doctype of the tree, else by the settings. -/
  | auto
  | named (name : Bytes)
  | dialect (d : Dialect)
  /-- What building a dialect gave, if anything. -/
  | factory (d : Option Dialect)
  /-- A value of another type. -/
  | unsupported (type : Bytes)

structure Session where
  settings : Settings
  ledger : Ledger := .start
  /-- The dialect of the last page. -/
  dialect : Option Dialect := none
  patterns : Pattern.Table := []
  forms : Preamble.Forms := {}
  sourceMap : Option SourceMap := none

namespace Session

def say (s : Session) (topic : Topic) (line : Bytes) : Session := { s with ledger := s.ledger.say topic line }

/-- The dialect with a name; an unknown name is the basic one. -/
def lookUp (s : Session) (name : Bytes) : Session × Option Dialect :=
  let key := Dialect.normalName name
  match s.settings.formats.get? key with
  | some d => (s, d)
  | none =>
    match Dialect.byName.get? key with
    | some d => (s, some d)
    | none =>
      (s.say .format ("unknown format " ++ Display.quote name ++ ", falling back to basic"),
        some Dialect.basic)

/-- The name a tree selects its dialect with. -/
def autoName (s : Session) (e : Element) : Bytes :=
  match e.doctype? with
  | some value => if value.isEmpty then s.settings.defaultFormat else value
  | none => s.settings.defaultFormat

/-- The selected dialect, if there is one, and how reports call it. -/
def choose (s : Session) (e : Element) : Selector → Except Failure (Session × Option Dialect × Bytes)
  | .auto =>
    let name := s.autoName e
    let (s, d) := s.lookUp name
    .ok (s, d, name)
  | .named name =>
    let (s, d) := s.lookUp name
    .ok (s, d, name)
  | .dialect d => .ok (s, some d, d.label)
  | .factory d => .ok (s, d, "factory")
  | .unsupported type =>
    .error (.invalidFormat e.site type "selector must be an alias, a Format or a FormatFactory" [])

/-- The required patterns that neither the dialect nor the settings bring. -/
def missingPatterns (s : Session) (d : Dialect) : List Bytes :=
  Dialect.requiredPatterns.filter fun name =>
    !d.patterns.contains name && !s.settings.patterns.contains name && !s.settings.producers.contains name

def select (s : Session) (e : Element) (selector : Selector) : Session × Except Failure Dialect :=
  match s.choose e selector with
  | .error f => (s, .error f)
  | .ok (s, none, label) => (s, .error (.invalidFormat e.site label "factory returned nil" []))
  | .ok (s, some d, label) =>
    let missing := s.missingPatterns d
    if missing.isEmpty then
      (s.say .format ("selected " ++ d.name ++ " for " ++ Display.quote label), .ok d)
    else (s, .error (.invalidFormat e.site label "required patterns are not defined" missing))

/-- A reference, or the fallback if it is undefined. -/
def checkedVariable : Producer := fun inputs args =>
  let ref := args.getD 0 []
  "(" ++ Template.format (inputs.getD 0 []) [ref] ++ " ? " ++ ref ++ " : " ++ args.getD 1 [] ++ ")"

def displayEscaped : Producer := fun inputs args =>
  Template.format (inputs.getD 0 []) [Template.format (inputs.getD 1 []) args]

def templates (d : Dictionary Bytes) : Pattern.Table := d.map fun (name, text) => (name, .template text)

def derivedPatterns : Pattern.Table :=
  [("checked_variable", .producer ["test_value"] checkedVariable),
   ("php_display_escaped", .producer ["php_display_code", "html_expression_escape"] displayEscaped)]

/-- The patterns in force: on top of those of earlier pages come the basic ones, those of the dialect and
those of the settings. -/
def patternTable (s : Session) (d : Dialect) : Pattern.Table :=
  let producers : Pattern.Table := s.settings.producers.map fun (name, inputs, body) =>
    (name, .producer inputs body)
  ((((s.patterns.insertAll (templates Dialect.basicPatterns)).insertAll derivedPatterns).insertAll
    (templates d.patterns)).insertAll (templates s.settings.patterns)).insertAll producers

/-- Reads a pattern the helpers are written with; after an error the form is empty. -/
def readForm (s : Session) (site : Site) (name : Bytes) (set : Preamble.Forms → Bytes → Preamble.Forms) :
    Session × Except Failure Unit :=
  match Pattern.text s.patterns name [] with
  | .ok text => ({ s with forms := set s.forms text }, .ok ())
  | .error e => ({ s with forms := set s.forms [] }, .error (.ofPattern (some site) e))

def readForms (s : Session) (site : Site) : Session × Except Failure Unit :=
  match s.readForm site "attribute_pattern" fun f t => { f with pair := t } with
  | (s, .error e) => (s, .error e)
  | (s, .ok ()) =>
    match s.readForm site "boolean_attribute_pattern" fun f t => { f with flag := t } with
    | (s, .error e) => (s, .error e)
    | (s, .ok ()) => s.readForm site "html_expression_escape" fun f t => { f with escape := t }

/-- Puts a dialect in force and gives the environment to render a tree in. -/
def install (s : Session) (e : Element) (d : Dialect) : Session × Except Failure Environment :=
  let s := { s with dialect := some d, patterns := s.patternTable d }
  match s.readForms e.site with
  | (s, .error f) => (s, .error f)
  | (s, .ok ()) =>
    match Pattern.text s.patterns "empty_value" [] with
    | .error f => (s, .error (.ofPattern (some e.site) f))
    | .ok fallback =>
      (s, .ok { settings := s.settings, dialect := d, patterns := s.patterns, fallback,
                mixins := e.declarations })

structure Outcome (α : Type) where
  session : Session
  /-- Attributes that handlers added to the tree. -/
  additions : List Addition := []
  result : Except Failure α

def renderTree (s : Session) (env : Environment) (e : Element) (nextNode : NodeId) : Outcome Bytes :=
  match (Render.tree env e).run { ledger := s.ledger, nextNode } with
  | (.error f, p) =>
    { session := { s with ledger := p.ledger.say .format ("format failed: " ++ f.message) }
      additions := p.additions, result := .error f }
  | (.ok body, p) =>
    match (Render.page env e.site body).run p with
    | (.error f, p) =>
      { session := { s with ledger := p.ledger, sourceMap := some (.empty s.settings.sourceFile) }
        additions := p.additions, result := .error f }
    | (.ok page, p) =>
      let map := page.sourceMap s.settings.sourceFile
      let line := "rendered " ++ Bytes.ofNat page.text.length ++ " bytes, "
        ++ Bytes.ofNat map.mappings.length ++ " fragment(s)"
      { session := { s with ledger := p.ledger.say .format line, sourceMap := some map }
        additions := p.additions, result := .ok page.text }

def formatElement (s : Session) (e : Element) (nextNode : NodeId) (selector : Selector) : Outcome Bytes :=
  let before := s.ledger
  let outcome : Outcome Bytes := match s.select e selector with
    | (s, .error f) => { session := s, result := .error f }
    | (s, .ok d) =>
      match s.install e d with
      | (s, .error f) => { session := s, result := .error f }
      | (s, .ok env) => s.renderTree env e nextNode
  match outcome.result with
  | .ok _ => outcome
  | .error _ =>
    { outcome with session :=
        { outcome.session with ledger := outcome.session.ledger.rollback before } }

def makeValue (f : Forest) : Handler.NewValue → Forest × Option NodeId
  | .absent => (f, none)
  | .text t => let (f, id) := f.make (.text t); (f, some id)
  | .code e => let (f, id) := f.make (.expression e); (f, some id)

/-- The node of an attribute that a handler made, with those of its computed name and its value. -/
def makeAttribute (f : Forest) (a : Handler.NewAttribute) : Forest × NodeId :=
  let (f, nameExpr) := match a.nameExpr with
    | none => (f, none)
    | some e => let (f, id) := f.make (.expression e); (f, some id)
  let (f, value) := makeValue f a.value
  let (f, id) := f.make (.attr { name := a.name, nameExpr, value })
  ((f.adopt id value).adopt id nameExpr, id)

/-- Puts the attributes that handlers added into the forest. -/
def applyAdditions (f : Forest) (additions : List Addition) : Forest :=
  additions.foldl (fun f a =>
    let (f, id) := makeAttribute f a.content
    f.addAttribute a.owner id) f

/-- Renders the tree at a node. Handlers may add attributes to the tree. After a failure, the helpers and
fragments it brought are forgotten. -/
def format (s : Session) (f : Forest) (root : Option NodeId) (selector : Selector) :
    Session × Forest × Except Failure Bytes :=
  match root with
  | none => (s, f, .error .noTree)
  | some id =>
    let outcome := s.formatElement (f.element id) f.size selector
    (outcome.session, applyAdditions f outcome.additions, outcome.result)

def preamble (s : Session) : Session × Except Failure Bytes :=
  match s.ledger.helpers.closure with
  | .error e => (s, .error (.ofHelper none e))
  | .ok helpers =>
    let line := "emitting " ++ Bytes.ofNat helpers.length ++ " helper(s) for "
      ++ Bytes.ofNat s.ledger.helpers.required.length ++ " required"
    (s.say .dependencies line,
      .ok (Preamble.write s.settings.storage s.forms s.ledger.fragments helpers))

def reset (s : Session) : Session := { s with ledger := s.ledger.reset }

def require (s : Session) (name : Bytes) : Session × Except Failure Bytes :=
  match s.ledger.require none name with
  | .error f => (s, .error f)
  | .ok ledger => ({ s with ledger }, .ok (s.settings.storage.accessor name))

/-- Declares a helper by the code it has for the accessors of its dependencies. -/
def declare (s : Session) (name : Bytes) (code : List Bytes → Bytes) (dependencies : List Bytes) : Session :=
  { s with ledger := { s.ledger with
      helpers := s.ledger.helpers.declare name ⟨.custom code, dependencies⟩ } }

def declareHelper (s : Session) (name code : Bytes) (dependencies : List Bytes) : Session :=
  s.declare name (Template.format code) dependencies

def pattern (s : Session) (name : Bytes) (args : List Bytes) : Except Failure Bytes :=
  (Pattern.text s.patterns name args).mapError (.ofPattern none)

end Session

end Stencil
