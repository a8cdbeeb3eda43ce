import Stencil.Ascii
import Stencil.Decimal.Binary

/-! Numerals of embedded code. A whole number is decimal, or binary, octal or hexadecimal after `0b`,
`0o` or `0` and `0x`, and must fit 64 bits; any other numeral is a decimal fraction with an optional
exponent, or a hexadecimal one with a binary exponent. -/

namespace Stencil.Numeral

def digits? (base : Nat) (s : Bytes) : Option (List Nat) :=
  s.mapM fun c => (Ascii.digitValue? c).filter (· < base)

def value (base : Nat) (digits : List Nat) : Nat := digits.foldl (fun n d => n * base + d) 0

/-- The base a numeral announces, and its digits. -/
def radix (s : Bytes) : Nat × Bytes :=
  match s with
  | [c] => if c == Ascii.zero then (8, []) else (10, s)
  | c :: m :: t =>
    if c != Ascii.zero then (10, s)
    else
      let mark := Ascii.toLower m
      if t.isEmpty then (8, m :: t)
      else if mark == 0x62 then (2, t)
      else if mark == 0x6f then (8, t)
      else if mark == 0x78 then (16, t)
      else (8, m :: t)
  | [] => (10, s)

def whole? (negative : Bool) (s : Bytes) : Option Int64 := do
  guard (!s.isEmpty)
  let (base, t) := radix s
  let n := value base (← digits? base t)
  if negative then
    guard (n ≤ Nat.pow 2 63)
    return Int64.ofInt (-(n : Int))
  else
    guard (n < Nat.pow 2 63)
    return Int64.ofInt n

/-- An exponent saturates near ten thousand, past which every number is zero or too large. -/
def exponentValue (digits : Bytes) : Nat :=
  digits.foldl (fun e c => if e < 10000 then e * 10 + (c - Ascii.zero).toNat else e) 0

def exponent? (s : Bytes) : Option Int := do
  let (negative, t) := match s with
    | c :: t => if c == Ascii.minus then (true, t) else if c == Ascii.plus then (false, t) else (false, s)
    | [] => (false, s)
  guard (!t.isEmpty && t.all Ascii.isDigit)
  let e : Int := exponentValue t
  return if negative then -e else e

/-- The digits of a fraction in the given base up to the first other byte: their value, how many stand
after the point, whether there are any, and the rest. -/
def mantissa (base : Nat) : (pointSeen : Bool) → Bytes → Nat → Nat → Bool → Nat × Nat × Bool × Bytes
  | _, [], n, after, any => (n, after, any, [])
  | pointSeen, c :: s, n, after, any =>
    if c == Ascii.dot && !pointSeen then mantissa base true s n after any
    else match (Ascii.digitValue? c).filter (· < base) with
      | some d => mantissa base pointSeen s (n * base + d) (if pointSeen then after + 1 else after) true
      | none => (n, after, any, c :: s)

/-- `n · base ^ e` as the nearest number; none when it is too large. -/
def scale? (negative : Bool) (base n : Nat) (e : Int) : Option Binary64 :=
  if 0 ≤ e then Binary64.ofRatio? negative (n * Nat.pow base e.toNat) 1
  else Binary64.ofRatio? negative n (Nat.pow base (-e).toNat)

def isHexadecimal : Bytes → Bool
  | c :: m :: _ :: _ => c == Ascii.zero && Ascii.toLower m == 0x78
  | _ => false

def fraction? (negative : Bool) (s : Bytes) : Option Binary64 := do
  let hexadecimal := isHexadecimal s
  let base := if hexadecimal then 16 else 10
  let (n, after, any, rest) := mantissa base false (if hexadecimal then s.drop 2 else s) 0 0 false
  guard any
  let e ← match rest with
    | [] => if hexadecimal then none else some 0
    | c :: t =>
      if Ascii.toLower c == (if hexadecimal then 0x70 else 0x65) then exponent? t else none
  if hexadecimal then scale? negative 2 n (e - 4 * after)
  else scale? negative 10 n (e - after)

end Stencil.Numeral
