/-! Text is a list of bytes. Templates and embedded code may hold any bytes, valid UTF-8 or not, and
every offset, column and length counts bytes. -/

namespace Stencil

abbrev Bytes := List UInt8

namespace Bytes

def ofString (s : String) : Bytes := s.toUTF8.data.toList

instance : Coe String Bytes := ⟨ofString⟩

def toString? (s : Bytes) : Option String := String.fromUTF8? ⟨s.toArray⟩

def join (separator : Bytes) (parts : List Bytes) : Bytes := separator.intercalate parts

/-- What follows `lead` in `s`, if `s` starts with it. -/
def after? : (lead s : Bytes) → Option Bytes
  | [], s => some s
  | _ :: _, [] => none
  | a :: lead, b :: s => if a == b then after? lead s else none

/-- `s` without `lead` at its start. -/
def dropLead (lead s : Bytes) : Bytes := (after? lead s).getD s

def startsWith (lead s : Bytes) : Bool := (after? lead s).isSome

/-- `s` without `tail` at its end. -/
def dropTail (tail s : Bytes) : Bytes := (dropLead tail.reverse s.reverse).reverse

def endsWith (tail s : Bytes) : Bool := startsWith tail.reverse s.reverse

def find? (needle : Bytes) : Bytes → Option Nat
  | [] => if needle.isEmpty then some 0 else none
  | c :: s => if startsWith needle (c :: s) then some 0 else (find? needle s).map (· + 1)

def countWhile (p : UInt8 → Bool) (s : Bytes) : Nat := (s.takeWhile p).length

def dropWhileRight (p : UInt8 → Bool) (s : Bytes) : Bytes := (s.reverse.dropWhile p).reverse

def ofNat (n : Nat) : Bytes := (Nat.toDigits 10 n).map Char.toUInt8

def ofInt : Int → Bytes
  | .ofNat n => ofNat n
  | .negSucc n => 0x2d :: ofNat (n + 1)

/-- `n` in base 16 with lower-case digits, padded with zeros to `width`. -/
def ofHex (width n : Nat) : Bytes :=
  let digits := (Nat.toDigits 16 n).map Char.toUInt8
  List.replicate (width - digits.length) 0x30 ++ digits

/-- Byte-wise lexicographic order. -/
def le : Bytes → Bytes → Bool
  | [], _ => true
  | _ :: _, [] => false
  | a :: s, b :: t => a < b || (a == b && le s t)

def sort (parts : List Bytes) : List Bytes := parts.mergeSort le

/-- The number a run of decimal digits writes; `none` for an empty run or another byte. -/
def toNat? (s : Bytes) : Option Nat :=
  if s.isEmpty then none
  else s.foldlM (fun n c => if 0x30 ≤ c ∧ c ≤ 0x39 then some (10 * n + (c - 0x30).toNat) else none) 0

def toInt64? (s : Bytes) : Option Int64 :=
  let (negative, digits) := match s with
    | c :: t => if c == 0x2d then (true, t) else if c == 0x2b then (false, t) else (false, s)
    | [] => (false, s)
  match toNat? digits with
  | none => none
  | some n =>
    if negative then
      if n ≤ Nat.pow 2 63 then some (Int64.ofInt (-(n : Int))) else none
    else if n < Nat.pow 2 63 then some (Int64.ofInt n) else none

end Bytes

end Stencil
