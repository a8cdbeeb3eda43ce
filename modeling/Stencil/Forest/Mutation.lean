import Stencil.Forest.Basic
import Stencil.Unicode.Space

/-! Changing a forest. Children move between child lists, keeping parent links in step; attributes,
assignments, computed names and values are linked to their owner by the parent link alone. -/

namespace Stencil.Forest

inductive Error where
  /-- A node would become its own ancestor. -/
  | cycle
  /-- A parameter that takes all further arguments is not the last. -/
  | variadicNotLast (mixin param : Bytes)
deriving DecidableEq, Repr

def Error.message : Error → Bytes
  | .cycle => "element: node cannot be appended to its own descendant"
  | .variadicNotLast mixin param =>
    "mixin " ++ mixin ++ ": variadic parameter ..." ++ param ++ " must be last"

/-- Takes the first occurrence of `child` out of the children of `parent`; says whether there was one. -/
def removeChild (f : Forest) (parent child : NodeId) : Forest × Bool :=
  let siblings := f.children parent
  if siblings.contains child then
    ((f.setChildren parent (siblings.erase child)).setParent child none, true)
  else (f, false)

/-- Puts `child` before the child at `index`, or at the end if there is none. A child that has a parent
leaves it first, and `index` counts the children before that. -/
def insertChild (f : Forest) (parent : NodeId) (index : Int) (child : NodeId) : Except Error Forest :=
  if f.isAncestor child parent then .error .cycle
  else
    let old := f.parent child
    let index := match (f.children parent).idxOf? child with
      | some i => if old = some parent ∧ (i : Int) < index then index - 1 else index
      | none => index
    let f := match old with
      | some p => (f.removeChild p child).1
      | none => f
    let siblings := f.children parent
    let place := if index < 0 then siblings.length else min index.toNat siblings.length
    .ok ((f.setChildren parent (siblings.insertIdx place child)).setParent child (some parent))

def appendChild (f : Forest) (parent child : NodeId) : Except Error Forest :=
  f.insertChild parent (f.children parent).length child

/-- Appends one child after another. On an error the children before it stay appended. -/
def appendChildren (f : Forest) (parent : NodeId) : List NodeId → Forest × Option Error
  | [] => (f, none)
  | c :: cs =>
    match f.appendChild parent c with
    | .ok f => f.appendChildren parent cs
    | .error e => (f, some e)

def removeAllChildren (f : Forest) (parent : NodeId) : Forest :=
  ((f.children parent).foldl (fun f c => f.setParent c none) f).setChildren parent []

inductive Replaced where
  | done
  | notAChild
  | refused (e : Error)
  /-- The node to be replaced left the list when its replacement was taken out of it. -/
  | vanished
deriving DecidableEq, Repr

/-- Puts `new` in the place of `old`. -/
def replaceChild (f : Forest) (parent old new : NodeId) : Forest × Replaced :=
  if !(f.children parent).contains old then (f, .notAChild)
  else if f.isAncestor new parent then (f, .refused .cycle)
  else
    let f := match f.parent new with
      | some p => (f.removeChild p new).1
      | none => f
    let siblings := f.children parent
    match siblings.idxOf? old with
    | none => (f, .vanished)
    | some i =>
      (((f.setChildren parent (siblings.set i new)).setParent old none).setParent new (some parent),
        .done)

def addAttribute (f : Forest) (owner a : NodeId) : Forest :=
  match f.bundle? owner with
  | some b =>
    (f.setParent a (some owner)).setBundle owner { b with attributes := b.attributes ++ [a] }
  | none => f

def addAssignment (f : Forest) (owner a : NodeId) : Forest :=
  match f.bundle? owner with
  | some b =>
    (f.setParent a (some owner)).setBundle owner { b with assignments := b.assignments ++ [a] }
  | none => f

def addAttributes (f : Forest) (owner : NodeId) (attributes : List NodeId) : Forest :=
  attributes.foldl (fun f a => f.addAttribute owner a) f

def addAssignments (f : Forest) (owner : NodeId) (assignments : List NodeId) : Forest :=
  assignments.foldl (fun f a => f.addAssignment owner a) f

def setAttributes (f : Forest) (owner : NodeId) (attributes : List NodeId) : Forest :=
  match f.bundle? owner with
  | some b =>
    ((b.attributes.foldl (fun f a => f.setParent a none) f).setBundle owner
      { b with attributes := [] }).addAttributes owner attributes
  | none => f

def setAssignments (f : Forest) (owner : NodeId) (assignments : List NodeId) : Forest :=
  match f.bundle? owner with
  | some b =>
    ((b.assignments.foldl (fun f a => f.setParent a none) f).setBundle owner
      { b with assignments := [] }).addAssignments owner assignments
  | none => f

/-- A new node with the given children; children that cannot be appended are left out from the first
on. -/
def makeWith (f : Forest) (content : Content) (children : List NodeId) : Forest × NodeId :=
  let (f, id) := f.make content
  ((f.appendChildren id children).1, id)

def makeDoctype (f : Forest) (value : Bytes) : Forest × NodeId :=
  f.make (.doctype (Stencil.Text.trim value))

def adopt (f : Forest) (owner : NodeId) : Option NodeId → Forest
  | some id => f.setParent id (some owner)
  | none => f

def makeDynamicMarkup (f : Forest) (nameExpr : NodeId) (children : List NodeId) : Forest × NodeId :=
  let (f, id) := f.make (.markup { nameExpr := some nameExpr })
  (((f.adopt id nameExpr).appendChildren id children).1, id)

def makeAttribute (f : Forest) (name : Bytes) (value : Option NodeId) : Forest × NodeId :=
  let (f, id) := f.make (.attr { name, value })
  (f.adopt id value, id)

def makeDynamicAttribute (f : Forest) (nameExpr : NodeId) (value : Option NodeId) : Forest × NodeId :=
  let (f, id) := f.make (.attr { nameExpr := some nameExpr, value })
  ((f.adopt id value).adopt id nameExpr, id)

def makeBinding (f : Forest) (name : Bytes) (value : Option NodeId) : Forest × NodeId :=
  let (f, id) := f.make (.binding name value)
  (f.adopt id value, id)

/-- An assignment takes its expressions one by one; one that cannot be appended is left out. -/
def makeAssignment (f : Forest) (name : Bytes) (expressions : List NodeId) : Forest × NodeId :=
  let (f, id) := f.make (.assignment name)
  (expressions.foldl (fun f e => (f.appendChild id e).toOption.getD f) f, id)

/-- The parameters of a mixin as written: a leading `$` is dropped, and a last one after `...` takes all
further arguments. -/
def readParams (mixin : Bytes) : List Bytes → Except Error (List Bytes × Option Bytes)
  | [] => .ok ([], none)
  | p :: ps =>
    let p := Bytes.dropLead "$" (Stencil.Text.trim p)
    match Bytes.after? "..." p with
    | some rest =>
      if ps.isEmpty then
        let rest := Bytes.dropLead "$" rest
        .ok ([], if rest.isEmpty then none else some rest)
      else .error (.variadicNotLast mixin rest)
    | none => do
      let (params, variadic) ← readParams mixin ps
      return (p :: params, variadic)

def makeMixin (f : Forest) (name : Bytes) (params : List Bytes) (body : List NodeId) :
    Except Error (Forest × NodeId) := do
  let (params, variadic) ← readParams name params
  return f.makeWith (.mixin { name, params, variadic }) body

/-- An argument as written: after `...` it is packed. -/
def readArgument (src : Bytes) : Bool × Bytes :=
  let src := Stencil.Text.trim src
  match Bytes.after? "..." src with
  | some rest => (true, Stencil.Text.trim rest)
  | none => (false, src)

def makeArguments (f : Forest) : List Bytes → Forest × List Argument
  | [] => (f, [])
  | src :: srcs =>
    let (packed, source) := readArgument src
    let (f, expression) := f.make (.expression { source })
    let (f, args) := f.makeArguments srcs
    (f, { packed, expression } :: args)

/-- A call takes the expressions of its arguments from wherever they are. -/
def makeCallWith (f : Forest) (name : Bytes) (args : List Argument) : Forest × NodeId :=
  let (f, id) := f.make (.call { name, args })
  (args.foldl (fun f a => f.setParent a.expression (some id)) f, id)

def makeCall (f : Forest) (name : Bytes) (args : List Bytes) : Forest × NodeId :=
  let (f, args) := f.makeArguments args
  f.makeCallWith name args

end Stencil.Forest
