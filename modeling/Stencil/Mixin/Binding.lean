import Stencil.Element

/-! Matching a call against a mixin. Arguments bind to parameters from left to right, further ones go to
the variadic parameter or are dropped, and attributes of the call named like a parameter without argument
bind to it. -/

namespace Stencil

/-- What a parameter is bound to. -/
structure Parameter where
  name : Bytes
  argument : Option Argument
  attr : Option Attribute
deriving DecidableEq, Repr

def Parameter.isBound (p : Parameter) : Bool := p.argument.isSome || p.attr.isSome

structure Binding where
  params : List Parameter
  /-- Arguments of the variadic parameter. -/
  rest : List Argument
  /-- Arguments nothing takes. -/
  dropped : List Argument
  /-- The attributes that bind to no parameter. -/
  attributes : List Attribute
  /-- A packed argument leaves the binding to run time. -/
  runtime : Bool
deriving DecidableEq, Repr

namespace Binding

/-- The first attribute with a name that is not among `used`. -/
def named? (attributes : List Attribute) (used : List NodeId) (name : Bytes) : Option Attribute :=
  attributes.find? fun a => a.staticName == some name && !used.contains a.id

/-- Binds parameters in order to the arguments left, then to attributes unless `runtime`. -/
def bindParams (runtime : Bool) (attributes : List Attribute) :
    (used : List NodeId) → List Argument → List Bytes → List Parameter
  | _, _, [] => []
  | used, arg :: args, name :: names => ⟨name, some arg, none⟩ :: bindParams runtime attributes used args names
  | used, [], name :: names =>
    match if runtime then none else named? attributes used name with
    | some a => ⟨name, none, some a⟩ :: bindParams runtime attributes (a.id :: used) [] names
    | none => ⟨name, none, none⟩ :: bindParams runtime attributes used [] names

def ofCall (m : Mixin) (args : List Argument) (attributes : List Attribute) : Binding :=
  let runtime := args.any (·.packed)
  let params := bindParams runtime attributes [] (args.takeWhile (!·.packed)) m.params
  let used := params.filterMap fun p => p.attr.map (·.id)
  let surplus := if runtime then [] else args.drop m.params.length
  { params
    rest := if m.variadic.isSome then surplus else []
    dropped := if m.variadic.isSome then [] else surplus
    attributes := attributes.filter (!used.contains ·.id)
    runtime }

end Binding

end Stencil
