import Stencil.Bytes

/-! Tables from names to values, as lists of entries with distinct names. -/

namespace Stencil

abbrev Dictionary (α : Type) := List (Bytes × α)

namespace Dictionary

variable {α : Type}

def get? (d : Dictionary α) (name : Bytes) : Option α := (d.find? (·.1 == name)).map (·.2)

def contains (d : Dictionary α) (name : Bytes) : Bool := (d.get? name).isSome

/-- Sets `name`, at its place if it is present and at the end if not. -/
def insert (name : Bytes) (a : α) : Dictionary α → Dictionary α
  | [] => [(name, a)]
  | (n, b) :: d => if n == name then (n, a) :: d else (n, b) :: insert name a d

def insertAll (d more : Dictionary α) : Dictionary α := more.foldl (fun d (n, a) => insert n a d) d

def names (d : Dictionary α) : List Bytes := Bytes.sort (d.map (·.1))

end Dictionary

end Stencil
