import Stencil.Value.Basic

/-! Building ordered arrays. A table keeps its entries in the order their keys were first set, and the
integer key the next appended value gets, which counts in 64 bits and wraps. -/

namespace Stencil

/-- Sets `key`, at its place if it is present and at the end if not. -/
def setEntry (key : Key) (v : Value) : List (Key × Value) → List (Key × Value)
  | [] => [(key, v)]
  | (k, w) :: es => if k = key then (k, v) :: es else (k, w) :: setEntry key v es

structure Table where
  entries : List (Key × Value)
  next : Int64

namespace Table

def empty : Table := ⟨[], 0⟩

def size (t : Table) : Nat := t.entries.length

def keys (t : Table) : List Key := t.entries.map (·.1)

def find? (t : Table) (key : Key) : Option Value := (t.entries.find? (·.1 = key)).map (·.2)

/-- The value under the key that `key` stands for. -/
def get? (t : Table) (key : Value) : Option Value := t.find? (.ofValue key)

/-- The next free key once `key` is used. -/
def bump (next : Int64) : Key → Int64
  | .int n => if next ≤ n then n + 1 else next
  | .name _ => next

def setKey (t : Table) (key : Key) (v : Value) : Table :=
  ⟨setEntry key v t.entries, bump t.next key⟩

def set (t : Table) (key v : Value) : Table := t.setKey (.ofValue key) v

def append (t : Table) (v : Value) : Table := t.setKey (.int t.next) v

def toValue (t : Table) : Value := .array t.entries

end Table

end Stencil
