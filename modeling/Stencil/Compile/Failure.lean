import Stencil.Element
import Stencil.Helper
import Stencil.Pattern
import Stencil.Token.Basic

/-! Why a tree cannot be rendered. Most failures name the node they were met at, and their message starts
with where that node was written. -/

namespace Stencil

inductive Failure where
  /-- There was no tree. -/
  | noTree
  | invalidFormat (site : Site) (selector reason : Bytes) (missing : List Bytes)
  | unknownPattern (site : Option Site) (name : Bytes)
  | unknownHelper (site : Option Site) (name : Bytes)
  | cyclicPattern (site : Option Site) (chain : List Bytes)
  | badExpression (site : Site) (source : Bytes) (fault : Fault)
  | incompatibleChildren (site : Site) (tag : Bytes)
  | unhandledAssignment (site : Site) (name : Bytes)
  | undeclaredMixin (site : Site) (name : Bytes)
  | tooDeep (site : Site) (limit : Nat)
  | unexpectedNode (site : Site)
  /-- An assignment handler refused. -/
  | refused (message : Bytes)
deriving DecidableEq, Repr

namespace Failure

def site? : Failure → Option Site
  | .noTree => none
  | .invalidFormat site .. => some site
  | .unknownPattern site _ => site
  | .unknownHelper site _ => site
  | .cyclicPattern site _ => site
  | .badExpression site .. => some site
  | .incompatibleChildren site _ => some site
  | .unhandledAssignment site _ => some site
  | .undeclaredMixin site _ => some site
  | .tooDeep site _ => some site
  | .unexpectedNode site => some site
  | .refused _ => none

/-- The failure is about the tree, and its message says so. -/
def isReport : Failure → Bool
  | .noTree => false
  | .refused _ => false
  | _ => true

def detail : Failure → Bytes
  | .noTree => "formatter: cannot format a nil node"
  | .invalidFormat _ selector reason missing =>
    let lacking : Bytes := if missing.isEmpty then [] else " (missing " ++ Bytes.join ", " missing ++ ")"
    "invalid format " ++ selector ++ ": " ++ reason ++ lacking
  | .unknownPattern _ name => "unknown pattern " ++ Display.quote name
  | .unknownHelper _ name => "unknown helper " ++ Display.quote name
  | .cyclicPattern _ chain => "cyclic pattern dependency: " ++ Bytes.join " -> " chain
  | .badExpression _ source fault =>
    "invalid expression " ++ Display.quote source ++ ": " ++ fault.problem.message ++ " at offset "
      ++ Bytes.ofNat fault.offset
  | .incompatibleChildren _ tag => "<" ++ tag ++ "> is self-closing and cannot have children"
  | .unhandledAssignment _ name => "unable to handle &" ++ name ++ " assignment"
  | .undeclaredMixin _ name => "unknown mixin " ++ Display.quote name
  | .tooDeep _ limit => "maximum nesting depth of " ++ Bytes.ofNat limit ++ " exceeded"
  | .unexpectedNode site => "unexpected *element." ++ site.kind ++ " in children"
  | .refused message => message

def message (f : Failure) : Bytes :=
  let place : Bytes := match f.site?.bind (·.origin) with
    | some o => o.text ++ ": "
    | none => []
  if f.isReport then place ++ "error: " ++ f.detail else f.detail

def ofPattern (site : Option Site) : Pattern.Error → Failure
  | .unknown name => .unknownPattern site name
  | .cyclic chain => .cyclicPattern site chain

def ofHelper (site : Option Site) : Helper.Error → Failure
  | .unknown name _ => .unknownHelper site name
  | .cyclic chain => .cyclicPattern site chain

end Failure

end Stencil
