import Stencil.Dictionary
import Stencil.Display
import Stencil.Template

/-! Named patterns. A pattern is a template or a producer; a producer is given the texts of its input
patterns, looked up whenever it is used. -/

namespace Stencil

abbrev Producer := (inputs args : List Bytes) → Bytes

inductive Pattern where
  | template (text : Bytes)
  | producer (inputs : List Bytes) (body : Producer)

namespace Pattern

abbrev Table := Dictionary Pattern

inductive Error where
  | unknown (name : Bytes)
  /-- The names on the way from a producer back to itself. -/
  | cyclic (chain : List Bytes)
deriving DecidableEq, Repr

def Error.message : Error → Bytes
  | .unknown name => "unknown pattern " ++ Display.quote name
  | .cyclic chain => "cyclic pattern dependency: " ++ Bytes.join " -> " chain

/-- The text of a pattern. Inside `resolving` are the producers whose inputs are being looked up; without
`fill`, a template without arguments is left as it is. -/
def resolve (table : Table) : (fuel : Nat) → (resolving : List Bytes) → (fill : Bool) →
    (name : Bytes) → (args : List Bytes) → Except Error Bytes
  | fuel, resolving, fill, name, args =>
    match table.get? name with
    | none => .error (.unknown name)
    | some pattern =>
      if resolving.contains name then
        .error (.cyclic (resolving.dropWhile (· != name) ++ [name]))
      else match pattern with
        | .template text =>
          if args.isEmpty && !fill then .ok text else .ok (Template.format text args)
        | .producer inputs body =>
          match fuel with
          | 0 => .error (.cyclic (resolving ++ [name]))
          | fuel + 1 => do
            let texts ← inputs.mapM fun i => resolve table fuel (resolving ++ [name]) false i []
            return body texts args

/-- The pattern's text; a template without arguments is given verbatim. -/
def text (table : Table) (name : Bytes) (args : List Bytes) : Except Error Bytes :=
  resolve table table.length [] false name args

/-- The pattern's text for output: a template is always filled in. -/
def render (table : Table) (name : Bytes) (args : List Bytes) : Except Error Bytes :=
  resolve table table.length [] true name args

end Pattern

namespace Producer

/-- Fills a template with the inputs and then the arguments. -/
def ofTemplate (template : Bytes) : Producer := fun inputs args =>
  Template.format template (inputs ++ args)

/-- Fills the inputs as templates, from the last to the first, each with what the one after it gave. -/
def compose : Producer := fun inputs args =>
  Bytes.join "," (inputs.foldr (fun input args => [Template.format input args]) args)

end Producer

end Stencil
