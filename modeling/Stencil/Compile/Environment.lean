import Stencil.Compile.Failure
import Stencil.Compile.Settings
import Stencil.Reference
import Stencil.Value.Literal

/-! What a rendering works in: the settings, the dialect with its patterns, and the mixins of the tree. Code
and patterns are written here; neither changes anything. -/

namespace Stencil

structure Environment where
  settings : Settings
  dialect : Dialect
  patterns : Pattern.Table
  /-- What stands in for an undefined variable. -/
  fallback : Bytes
  mixins : List Element.Declaration

/-- What surrounds a node: how deep it is indented, and the mixin expansions around it, innermost first, each
with the attributes of its call if they are known. -/
structure Scope where
  level : Nat
  frames : List (Option (List (Key × Value)))

namespace Environment

/-- Output text from a pattern, on behalf of the node at `site`. -/
def pattern (env : Environment) (site : Site) (name : Bytes) (args : List Bytes) : Except Failure Bytes :=
  (Pattern.render env.patterns name args).mapError (.ofPattern (some site))

def handlers (env : Environment) : Reference.Handlers :=
  env.dialect.tokenTemplates.map fun (kind, template) =>
    (kind, fun text => Template.format template [text])

def piece (env : Environment) (site : Site) : Reference.Piece → Except Failure Bytes
  | .plain t => .ok (Reference.tokenText env.handlers t)
  | .guarded ts =>
    (Pattern.text env.patterns "checked_variable"
      [Reference.tokenTexts env.handlers ts, env.fallback]).mapError (.ofPattern (some site))

/-- Embedded code as it is written out; `checked` code has its references guarded. -/
def code (env : Environment) (site : Site) (source : Bytes) (checked : Bool) : Except Failure Bytes :=
  if checked then do
    let pieces ← (Reference.plan (Reference.handlesVariables env.handlers) source).mapError
      (.badExpression site source)
    let texts ← pieces.mapM (env.piece site)
    return texts.flatten
  else (Reference.handleAll env.handlers source).mapError (.badExpression site source)

def snippet (env : Environment) (s : Snippet) : Except Failure Bytes := env.code s.site s.source s.checked

/-- Markup that stands inside a block of code. -/
def nested (env : Environment) (site : Site) (markup : Bytes) : Except Failure Bytes :=
  env.pattern site "php_nested_html" [markup]

/-- Code that displays a value, escaped or not. -/
def display (env : Environment) (site : Site) (escape : Bool) (code : Bytes) : Except Failure Bytes :=
  env.pattern site (if escape then "php_display_escaped" else "php_display_code") [code]

def captures (env : Environment) (more : List Bytes) : Bytes :=
  let debug : List Bytes := if env.settings.debug then ["&$__pug_debug_id"] else []
  let more := more.map fun v => Ascii.ampersand :: v
  Bytes.join ", " ((("&$" ++ env.settings.storage.name) :: debug) ++ more)

def indentation (env : Environment) (scope : Scope) : Bytes :=
  Ascii.newline :: (List.replicate scope.level env.settings.indent).flatten

end Environment

namespace Scope

def outermost : Scope := ⟨0, []⟩

def indented (scope : Scope) : Scope := { scope with level := scope.level + 1 }

def entering (scope : Scope) (attributes : Option (List (Key × Value))) : Scope :=
  { scope with frames := attributes :: scope.frames }

/-- The value of code that is known before run time. In a mixin, `$attributes` is, if the attributes of
the call are. -/
def constant? (scope : Scope) (source : Bytes) : Option Value :=
  if Text.trim source == "$attributes" then (scope.frames.head?.join).map .array
  else Literal.evaluate source

def scalar? (scope : Scope) (source : Bytes) : Option Value :=
  (scope.constant? source).filter Value.isScalar

end Scope

end Stencil
