import Stencil.Dictionary
import Stencil.Display
import Stencil.Quoted
import Stencil.Template

/-! Runtime helpers. Helpers are declared with the helpers they depend on; those required, and all they
reach, are emitted once each, every one after its dependencies. -/

namespace Stencil

structure Storage where
  name : Bytes
  /-- The code that reads a helper, from the names of the storage and the helper. -/
  getter : Option (Bytes → Bytes → Bytes)

namespace Storage

def defaultName : Bytes := "pugModule"

def named (name : Bytes) (getter : Option (Bytes → Bytes → Bytes)) : Storage :=
  ⟨if name.isEmpty then defaultName else name, getter⟩

def accessor (s : Storage) (helper : Bytes) : Bytes :=
  match s.getter with
  | some get => get s.name helper
  | none => "$" ++ s.name ++ "[" ++ Quoted.encode helper ++ "]"

/-- A getter that fills a template with the names of the storage and the helper. -/
def getterOfTemplate (template : Bytes) : Bytes → Bytes → Bytes := fun storage helper =>
  Template.format template [storage, helper]

end Storage

namespace Helper

structure Declaration (β : Type) where
  body : β
  dependencies : List Bytes

inductive Error where
  | unknown (name : Bytes) (requiredBy : Option Bytes)
  | cyclic (chain : List Bytes)
deriving DecidableEq, Repr

def Error.message : Error → Bytes
  | .unknown name requiredBy =>
    "unknown helper " ++ Display.quote name ++
      match requiredBy with
      | some (c :: s) => " required by " ++ Display.quote (c :: s)
      | _ => []
  | .cyclic chain => "cyclic pattern dependency: " ++ Bytes.join " -> " chain

/-- The declared helpers, and those required so far in the order they were first required. -/
structure Registry (β : Type) where
  declared : Dictionary (Declaration β)
  required : List Bytes

namespace Registry

variable {β : Type}

def empty : Registry β := ⟨[], []⟩

def declare (r : Registry β) (name : Bytes) (d : Declaration β) : Registry β :=
  { r with declared := r.declared.insert name d }

def isDeclared (r : Registry β) (name : Bytes) : Bool := r.declared.contains name

def isRequired (r : Registry β) (name : Bytes) : Bool := r.required.contains name

/-- Requires a declared helper; doing so again changes nothing. -/
def require (r : Registry β) (name : Bytes) : Except Error (Registry β) :=
  if !r.isDeclared name then .error (.unknown name none)
  else if r.isRequired name then .ok r
  else .ok { r with required := r.required ++ [name] }

/-- Forgets the helpers required after the first `count`; a count out of range forgets none. -/
def rollback (r : Registry β) (count : Int) : Registry β :=
  if count < 0 then r else { r with required := r.required.take count.toNat }

def reset (r : Registry β) : Registry β := { r with required := [] }

abbrev Emitted (β : Type) := List (Bytes × Declaration β)

/-- Emits a helper after its dependencies, unless it is there already. `visiting` leads from a required
helper to this one. -/
def visit (declared : Dictionary (Declaration β)) : (fuel : Nat) → (visiting : List Bytes) →
    Emitted β → (name : Bytes) → Except Error (Emitted β)
  | fuel, visiting, done, name =>
    if done.any (·.1 == name) then .ok done
    else if visiting.contains name then
      .error (.cyclic (visiting.dropWhile (· != name) ++ [name]))
    else match declared.get? name with
      | none => .error (.unknown name visiting.getLast?)
      | some d =>
        match fuel with
        | 0 => .error (.cyclic (visiting ++ [name]))
        | fuel + 1 => do
          let done ← d.dependencies.foldlM (visit declared fuel (visiting ++ [name])) done
          return done ++ [(name, d)]

/-- The required helpers and all they depend on, in emission order. -/
def closure (r : Registry β) : Except Error (Emitted β) :=
  r.required.foldlM (visit r.declared r.declared.length []) []

/-- The names and the codes of the helpers to emit; a code is produced from the accessors of the helper's
dependencies. -/
def dependencies (r : Registry β) (storage : Storage) (produce : β → List Bytes → Bytes) :
    Except Error (List (Bytes × Bytes)) := do
  let helpers ← r.closure
  return helpers.map fun (name, d) => (name, produce d.body (d.dependencies.map storage.accessor))

end Registry

end Helper

end Stencil
