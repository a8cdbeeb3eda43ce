import Stencil.Bytes
import Stencil.Decimal.Layout

/-! Constants of embedded code: null, booleans, 64-bit integers, floating-point numbers, strings and
ordered arrays, with their conversions to text, truth value and array key. -/

namespace Stencil

inductive Key where
  | int (n : Int64)
  | name (s : Bytes)
deriving DecidableEq, Repr

inductive Value where
  | null
  | bool (b : Bool)
  | int (n : Int64)
  | float (x : Binary64)
  | string (s : Bytes)
  | array (entries : List (Key × Value))
deriving Inhabited

namespace Value

def isArray : Value → Bool
  | .array _ => true
  | _ => false

def isScalar (v : Value) : Bool := !v.isArray

def text : Value → Bytes
  | .null => []
  | .bool b => if b then "1" else []
  | .int n => Bytes.ofInt n.toInt
  | .float x => Decimal.write .text x
  | .string s => s
  | .array _ => "Array"

def isTruthy : Value → Bool
  | .null => false
  | .bool b => b
  | .int n => n != 0
  | .float x => !x.isZero
  | .string s => s != [] && s != [0x30]
  | .array entries => !entries.isEmpty

end Value

namespace Key

/-- A name that is the decimal form of an integer is that integer. -/
def ofText (s : Bytes) : Key :=
  match Bytes.toInt64? s with
  | some n => if Bytes.ofInt n.toInt == s then .int n else .name s
  | none => .name s

/-- The key a value stands for. -/
def ofValue : Value → Key
  | .null => .name []
  | .bool b => .int (if b then 1 else 0)
  | .int n => .int n
  | .float x => .int x.truncate
  | .string s => ofText s
  | .array entries => .name (Value.text (.array entries))

def toValue : Key → Value
  | .int n => .int n
  | .name s => .string s

end Key

end Stencil
