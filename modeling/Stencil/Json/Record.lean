import Stencil.Json.Basic
import Stencil.Unicode.Lower

/-! Reading JSON values into records. A field is found by its name, up to case if need be, and unknown
members are passed over. Every decoder is given the value a field has so far: null keeps a scalar as it is and
clears anything else, and a repeated member is read on top of what the earlier ones left. -/

namespace Stencil.Json

inductive Step where
  | member (name : Bytes)
  | item (index : Nat)
deriving DecidableEq, Repr

def Step.text : Step → Bytes
  | .member name => name
  | .item index => Bytes.ofNat index

/-- Where a value stands: the outermost record, and the steps that lead from it to the value. -/
structure Site where
  record : Bytes
  path : List Step

def Site.below (s : Site) (step : Step) : Site := { s with path := s.path ++ [step] }

structure Mismatch where
  found : Bytes
  site : Site
  expected : Bytes

def Site.pathText (s : Site) : Bytes := Bytes.join "." (s.record :: s.path.map Step.text)

/-- A member of a record is called a field, an item of a list goes by its path alone. -/
def Site.describe (s : Site) : Bytes :=
  match s.path.getLast? with
  | none => "Go value"
  | some (.member _) => "Go struct field " ++ s.pathText
  | some (.item _) => s.pathText

def Mismatch.message (m : Mismatch) : Bytes :=
  "json: cannot unmarshal " ++ m.found ++ " into " ++ m.site.describe ++ " of type " ++ m.expected

/-- A list that has been read. What earlier and longer lists in its place held beyond its end is kept, as a
later list may be read on top of it. -/
structure Draft (α : Type) where
  items : List α := []
  beyond : List α := []
deriving DecidableEq, Repr

abbrev Decoder (α : Type) := Site → (prev : α) → Json → Except Mismatch α

def typeName : Json → Bytes
  | .null => "null"
  | .bool _ => "bool"
  | .number _ => "number"
  | .string _ => "string"
  | .array _ => "array"
  | .object _ => "object"

namespace Decoder

variable {α β : Type}

def mismatch (site : Site) (expected : Bytes) (j : Json) : Except Mismatch α :=
  .error ⟨typeName j, site, expected⟩

def text : Decoder Bytes := fun site prev j =>
  match j with
  | .string s => .ok s
  | .null => .ok prev
  | j => mismatch site "string" j

def flag : Decoder Bool := fun site prev j =>
  match j with
  | .bool b => .ok b
  | .null => .ok prev
  | j => mismatch site "bool" j

/-- A whole number of 64 bits, written without fraction or exponent. -/
def integer : Decoder Int := fun site prev j =>
  match j with
  | .number t =>
    match Bytes.toInt64? t with
    | some n => .ok n.toInt
    | none => .error ⟨"number " ++ t, site, "int"⟩
  | .null => .ok prev
  | j => mismatch site "int" j

/-- A value that may be missing; `blank` is what a new one starts from. -/
def optional (blank : α) (d : Decoder α) : Decoder (Option α) := fun site prev j =>
  match j with
  | .null => .ok none
  | j => (d site (prev.getD blank) j).map some

/-- The items from number `index` on, read on top of those in `old`. -/
def listFrom (blank : α) (d : Decoder α) (site : Site) : (index : Nat) → (old : List α) → List Json →
    Except Mismatch (Draft α)
  | _, old, [] => .ok { beyond := old }
  | index, old, j :: js => do
    let a ← d (site.below (.item index)) (old.head?.getD blank) j
    let rest ← listFrom blank d site (index + 1) old.tail js
    return { rest with items := a :: rest.items }

/-- A list; an empty one leaves nothing to be read on top of. -/
def list (expected : Bytes) (blank : α) (d : Decoder α) : Decoder (Draft α) := fun site prev j =>
  match j with
  | .array [] => .ok {}
  | .array js => listFrom blank d site 0 (prev.items ++ prev.beyond) js
  | .null => .ok {}
  | j => mismatch site expected j

/-- A field of a record: its name, and how its value changes the record. -/
structure Field (α : Type) where
  name : Bytes
  decode : Decoder α

def field (name : Bytes) (get : α → β) (set : α → β → α) (d : Decoder β) : Field α :=
  ⟨name, fun site prev j => (d site (get prev) j).map (set prev)⟩

def findField? (fields : List (Field α)) (key : Bytes) : Option (Field α) :=
  match fields.find? (·.name == key) with
  | some f => some f
  | none => fields.find? fun f => Text.spells (f.name.map Ascii.toLower) key

def record (expected : Bytes) (fields : List (Field α)) : Decoder α := fun site prev j =>
  match j with
  | .object members =>
    members.foldlM (fun acc (key, v) =>
      match findField? fields key with
      | some f => f.decode (site.below (.member key)) acc v
      | none => .ok acc) prev
  | .null => .ok prev
  | j => mismatch site expected j

def run (d : Decoder α) (name : Bytes) (blank : α) (j : Json) : Except Mismatch α := d ⟨name, []⟩ blank j

end Decoder

end Stencil.Json
