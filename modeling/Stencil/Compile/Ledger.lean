import Stencil.Compile.Failure
import Stencil.Compile.Preamble

/-! What a session keeps while trees are rendered: the helpers, the origins of the fragments numbered so far,
and the log. -/

namespace Stencil

inductive Topic where
  | format | dependencies | mixin | commandLine
deriving DecidableEq, Repr

def Topic.tag : Topic → Bytes
  | .format => "[format] "
  | .dependencies => "[deps] "
  | .mixin => "[mixin] "
  | .commandLine => "[cli] "

structure Ledger where
  helpers : Helper.Registry Helper.Body
  /-- The origin of fragment `n` stands at index `n - 1`. -/
  fragments : Array Origin
  log : Array Bytes

namespace Ledger

def start : Ledger := ⟨⟨Preamble.builtin, []⟩, #[], #[]⟩

def say (l : Ledger) (topic : Topic) (line : Bytes) : Ledger := { l with log := l.log.push (topic.tag ++ line) }

/-- Requires a helper on behalf of the node at `site`. -/
def require (l : Ledger) (site : Option Site) (name : Bytes) : Except Failure Ledger :=
  match l.helpers.require name with
  | .error e => .error (.ofHelper site e)
  | .ok helpers =>
    if l.helpers.isRequired name then .ok l
    else .ok ({ l with helpers }.say .dependencies ("require " ++ name))

def addFragment (l : Ledger) (o : Origin) : Ledger := { l with fragments := l.fragments.push o }

/-- Forgets the helpers and fragments that came after `before`; the log stays. -/
def rollback (l before : Ledger) : Ledger :=
  { l with
    helpers := l.helpers.rollback before.helpers.required.length
    fragments := l.fragments.take before.fragments.size }

def reset (l : Ledger) : Ledger := { l with helpers := l.helpers.reset, fragments := #[] }

end Ledger

end Stencil
