/-! Binary floating-point numbers of 64 bits, kept as their bits. A finite one is `± m · 2 ^ q`; the
nearest one to a fraction is found in exact arithmetic, a tie going to the even neighbour. -/

namespace Stencil

structure Binary64 where
  bits : UInt64
deriving DecidableEq, Repr

/-- `a / b` rounded to the nearest whole number, a tie going to the even one. -/
def roundDiv (a b : Nat) : Nat :=
  let q := a / b
  let r := a % b
  if 2 * r < b then q
  else if 2 * r > b then q + 1
  else if q % 2 == 0 then q else q + 1

namespace Binary64

inductive Magnitude where
  | nan
  | infinite
  /-- `mantissa · 2 ^ exponent` -/
  | finite (mantissa : Nat) (exponent : Int)
deriving DecidableEq, Repr

def isNegative (x : Binary64) : Bool := x.bits.toNat ≥ Nat.pow 2 63

def magnitude (x : Binary64) : Magnitude :=
  let e : Nat := x.bits.toNat / Nat.pow 2 52 % Nat.pow 2 11
  let f : Nat := x.bits.toNat % Nat.pow 2 52
  if e == 2047 then if f == 0 then .infinite else .nan
  else if e == 0 then .finite f (-1074)
  else .finite (f + Nat.pow 2 52) ((e : Int) - 1075)

def isZero (x : Binary64) : Bool := x.bits.toNat % Nat.pow 2 63 == 0

def fraction (m : Nat) (q : Int) : Nat × Nat :=
  if 0 ≤ q then (m * Nat.pow 2 q.toNat, 1) else (m, Nat.pow 2 (-q).toNat)

/-- The greatest `e` with `2 ^ e ≤ num / den`, both positive. -/
def exponentOf (num den : Nat) : Int :=
  let e : Int := (num.log2 : Int) - den.log2
  let reached := if 0 ≤ e then den * Nat.pow 2 e.toNat ≤ num else den ≤ num * Nat.pow 2 (-e).toNat
  if reached then e else e - 1

/-- The number nearest to `± num / den`; none past the largest finite one. -/
def ofRatio? (negative : Bool) (num den : Nat) : Option Binary64 :=
  let sign : Nat := if negative then Nat.pow 2 63 else 0
  if num == 0 then some ⟨UInt64.ofNat sign⟩
  else
    let q := max (-1074) (exponentOf num den - 52)
    let m := if 0 ≤ q then roundDiv num (den * Nat.pow 2 q.toNat) else roundDiv (num * Nat.pow 2 (-q).toNat) den
    let bits := (q + 1074).toNat * Nat.pow 2 52 + m
    if bits < 2047 * Nat.pow 2 52 then some ⟨UInt64.ofNat (sign + bits)⟩ else none

/-- The number without its fraction, toward zero; numbers without a 64-bit whole part give the least
one. -/
def truncate (x : Binary64) : Int64 :=
  match x.magnitude with
  | .finite m q =>
    let n : Nat := if 0 ≤ q then m * Nat.pow 2 q.toNat else m / Nat.pow 2 (-q).toNat
    if n < Nat.pow 2 63 then Int64.ofInt (if x.isNegative then -(n : Int) else n) else Int64.minValue
  | _ => Int64.minValue

end Binary64

end Stencil
