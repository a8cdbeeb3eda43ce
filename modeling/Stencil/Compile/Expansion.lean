import Stencil.Compile.Attributes
import Stencil.Mixin.Binding

/-! Mixin calls. A call becomes a closure that is invoked on the spot: its parameters are the attributes of
the call, the block of its children and the parameters of the mixin, and its body is the mixin's. -/

namespace Stencil.Expansion

abbrev Render := Scope → List Element → Rendering Bytes

/-- The actual arguments of the closure, and code that has to run before. -/
structure Actuals where
  setup : Bytes
  attributes : Bytes
  /-- The attributes, if they are known. -/
  known : Option (List (Key × Value))
  block : Bytes
  args : List Bytes

/-- The children of a call as a closure over the variables in scope, with the code that saves these. -/
def block (env : Environment) (render : Render) (scope : Scope) (site : Site) (children : List Element) :
    Rendering (Bytes × Bytes) :=
  if children.isEmpty then return ([], "null")
  else do
    let body ← render scope children
    let saved : Bytes := "$__pug_scope_" ++ Bytes.ofNat (← Rendering.freshScope)
    let inner ← env.nested site body
    return (saved ++ " = get_defined_vars(); ",
      "function () use (" ++ env.captures [saved] ++ ") \x7b extract(" ++ saved ++ ");" ++ inner ++ "\x7d")

def takesAttributes (m : Mixin) : Bool := m.variadic == some "attributes"

/-- The sets that make up the attributes of a call. A variadic parameter named `attributes` merges its
arguments in. -/
def sets (env : Environment) (scope : Scope) (m : Mixin) (b : Binding) (assignments : List Assignment) :
    Except Failure (List Contribution) := do
  let cs ← Contribution.collect env scope b.attributes assignments
  if takesAttributes m then
    return cs ++ (← b.rest.mapM fun a => Contribution.ofAssignment env scope "attributes" a.code)
  else return cs

/-- The code of the attributes of a call, and their value if it is known. -/
def attributes (env : Environment) (scope : Scope) (id : NodeId) (site : Site) (call : Call) (m : Mixin)
    (b : Binding) : Rendering (Bytes × Option (List (Key × Value))) := do
  let assignments ← Attributes.pending env id call.attributes call.assignments
  let cs ← sets env scope m b assignments
  match Contribution.merged? cs with
  | some set => return (Literal.write (.array set), some set)
  | none =>
    match Contribution.codes cs with
    | [code] =>
      if cs.length == b.attributes.length && cs.head?.any (·.entry.isSome)
          && !Contribution.hasDuplicateKey cs then
        return (code, none)
      else
        let accessor ← Rendering.require env (some site) "merge_attributes"
        return (accessor ++ "(" ++ code ++ ")", none)
    | codes =>
      let accessor ← Rendering.require env (some site) "merge_attributes"
      return (accessor ++ "(" ++ Bytes.join ", " codes ++ ")", none)

def parameter (env : Environment) (scope : Scope) (p : Parameter) : Except Failure Bytes :=
  match p.argument with
  | some a => env.snippet a.code
  | none =>
    match p.attr with
    | some a => do return (← Contribution.attributeValue env scope a.value).2
    | none => .ok "null"

/-- The arguments in order, without nulls at the end. -/
def boundArguments (env : Environment) (scope : Scope) (m : Mixin) (b : Binding) :
    Except Failure (List Bytes) := do
  let bound ← b.params.mapM (parameter env scope)
  let rest ← if takesAttributes m then .ok [] else b.rest.mapM fun a => env.snippet a.code
  return ((bound ++ rest).reverse.dropWhile fun (code : Bytes) => code == "null").reverse

/-- The codes of all arguments. A packed one is left unguarded, since what stands in for an undefined
variable cannot be spread. -/
def argumentCodes (env : Environment) (call : Call) : Except Failure (List (Argument × Bytes)) :=
  call.args.mapM fun a => do
    return (a, ← env.code a.code.site a.code.source (a.code.checked && !a.packed))

def arrayOf (plain : List Bytes) : List Bytes :=
  if plain.isEmpty then [] else [Ascii.lbracket :: (Bytes.join ", " plain.reverse ++ [Ascii.rbracket])]

/-- Runs of plain arguments as arrays, packed ones as they are; `plain` is the run so far, latest first. -/
def listParts : (plain : List Bytes) → List (Argument × Bytes) → List Bytes
  | plain, [] => arrayOf plain
  | plain, (a, code) :: rest =>
    if a.packed then arrayOf plain ++ code :: listParts [] rest else listParts (code :: plain) rest

/-- All arguments as one list. -/
def listCode (call : Call) (codes : List (Argument × Bytes)) : Rendering Bytes := do
  codes.forM fun (a, _) => do
    if a.packed then
      Rendering.say .mixin (call.name ++ ": spreading " ++ a.code.source ++ " at runtime")
  return "array_merge(" ++ Bytes.join ", " (listParts [] codes) ++ ")"

/-- Some argument follows a packed one. -/
def isMixed (args : List Argument) : Bool := (args.dropWhile (!·.packed)).any (!·.packed)

/-- The arguments as written, or spread from one list where they could not be passed like that. -/
def spreadArguments (env : Environment) (call : Call) : Rendering (List Bytes) := do
  let codes ← argumentCodes env call
  if isMixed call.args then return ["..." ++ (← listCode call codes)]
  else return codes.map fun (a, code) => if a.packed then "..." ++ code else code

/-- When packed arguments may run into the attributes, they are counted at run time. -/
def spreadAttributes (env : Environment) (site : Site) (call : Call) (m : Mixin) (a : Actuals) :
    Rendering Actuals := do
  let list ← listCode call (← argumentCodes env call)
  let saved : Bytes := "$__pug_args_" ++ Bytes.ofNat (← Rendering.freshScope)
  let accessor ← Rendering.require env (some site) "merge_attributes"
  let count := Bytes.ofNat m.params.length
  Rendering.say .mixin (call.name ++ ": merging spread arguments into attributes at runtime")
  return { a with
    setup := a.setup ++ saved ++ " = " ++ list ++ "; "
    attributes := accessor ++ "(" ++ a.attributes ++ ", ...array_slice(" ++ saved ++ ", " ++ count ++ "))"
    known := none
    args := ["...array_slice(" ++ saved ++ ", 0, " ++ count ++ ")"] }

def actuals (env : Environment) (render : Render) (scope : Scope) (id : NodeId) (site : Site) (call : Call)
    (children : List Element) (m : Mixin) (b : Binding) : Rendering Actuals := do
  let (setup, block) ← block env render scope site children
  let (attributes, known) ← attributes env scope id site call m b
  let args ← if b.runtime then spreadArguments env call else boundArguments env scope m b
  let plain : Actuals := { setup, attributes, known, block, args }
  if b.runtime && takesAttributes m then spreadAttributes env site call m plain else return plain

def formals (m : Mixin) : List Bytes :=
  let params := m.params.map fun p => ("$" : Bytes) ++ p ++ " = null"
  let rest : List Bytes := match m.variadic with
    | some v => if takesAttributes m then [] else ["...$" ++ v]
    | none => []
  "$attributes" :: "$__pug_children" :: (params ++ rest)

def write (env : Environment) (render : Render) (scope : Scope) (id : NodeId) (site : Site) (call : Call)
    (children : List Element) : Rendering Bytes :=
  match Element.findMixin? env.mixins call.name with
  | none => throw (.undeclaredMixin site call.name)
  | some d => do
    let b := Binding.ofCall d.mixin call.args (← Rendering.attributesOf id call.attributes)
    if !b.dropped.isEmpty then
      Rendering.say .mixin
        (call.name ++ ": dropping " ++ Bytes.ofNat b.dropped.length ++ " surplus argument(s)")
    let a ← actuals env render scope id site call children d.mixin b
    Rendering.say .mixin
      ("expanding " ++ call.name ++ " (depth " ++ Bytes.ofNat (scope.frames.length + 1) ++ ")")
    let body ← render (scope.entering a.known) d.body
    let inner ← env.nested site body
    env.pattern site "php_handle_code"
      [a.setup ++ "(function (" ++ Bytes.join ", " (formals d.mixin) ++ ") use (" ++ env.captures []
        ++ ") \x7b" ++ inner ++ "\x7d)(" ++ Bytes.join ", " (a.attributes :: a.block :: a.args) ++ ");"]

end Stencil.Expansion
