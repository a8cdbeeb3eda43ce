import Stencil.Decimal.Binary

/-! Decimal digits of a number: its value rounded to a count of significant digits, and the fewest
digits that read back as it. -/

namespace Stencil.Decimal

/-- `0.d₁d₂… · 10 ^ point`, where `d₁d₂…` are the digits of `digits`; zero has none. -/
structure Digits where
  digits : List Nat
  point : Int
deriving DecidableEq, Repr

def zero : Digits := ⟨[], 0⟩

def digitsOf (n : Nat) : List Nat := (Nat.toDigits 10 n).map fun c => c.toNat - 48

/-- How often `num` has to be multiplied by 10 to reach a tenth of `den`. -/
def zerosAfterPoint : (fuel num den : Nat) → Nat
  | 0, _, _ => 0
  | fuel + 1, num, den => if den ≤ 10 * num then 0 else zerosAfterPoint fuel (10 * num) den + 1

/-- The `p` with `10 ^ (p - 1) ≤ num / den < 10 ^ p`, for a positive fraction. -/
def pointOf (num den : Nat) : Int :=
  if den ≤ num then (digitsOf (num / den)).length else -(zerosAfterPoint den.log2 num den : Int)

/-- `num / den` in units of `10 ^ k`, as a fraction. -/
def scaled (num den : Nat) (k : Int) : Nat × Nat :=
  if 0 ≤ k then (num, den * Nat.pow 10 k.toNat) else (num * Nat.pow 10 (-k).toNat, den)

/-- The digits of `n` in units of `10 ^ k`, without zeros at the end. -/
def ofUnits (n : Nat) (k : Int) : Digits :=
  let ds := digitsOf n
  ⟨(ds.reverse.dropWhile (· == 0)).reverse, ds.length + k⟩

/-- A positive fraction rounded to `count` significant digits, a tie going to the even digit. -/
def significant (count num den : Nat) : Digits :=
  let k := pointOf num den - count
  let (a, b) := scaled num den k
  ofUnits (roundDiv a b) k

/-- The fractions that read back as `m · 2 ^ q`: between the ends, which belong to it when `m` is even.
All are given over one denominator. -/
structure Interval where
  low : Nat
  value : Nat
  high : Nat
  den : Nat
  closed : Bool

def interval (m : Nat) (q : Int) : Interval :=
  let narrow := m == Nat.pow 2 52 && q > -1074
  let (unit, den) := Binary64.fraction 1 (q - 2)
  { low := (4 * m - if narrow then 1 else 2) * unit
    value := 4 * m * unit
    high := (4 * m + 2) * unit
    den
    closed := m % 2 == 0 }

/-- `n · 10 ^ k` lies in the interval. -/
def Interval.holds (i : Interval) (n : Nat) (k : Int) : Bool :=
  let (x, den) := if 0 ≤ k then (n * Nat.pow 10 k.toNat * i.den, 1) else (n * i.den, Nat.pow 10 (-k).toNat)
  if i.closed then i.low * den ≤ x && x ≤ i.high * den else i.low * den < x && x < i.high * den

/-- The nearest number of `count` digits that reads back, if one does. -/
def atCount? (i : Interval) (point : Int) (count : Nat) : Option Digits :=
  let k := point - count
  let (a, b) := scaled i.value i.den k
  let nearest := roundDiv a b
  let below := a / b
  if i.holds nearest k then some (ofUnits nearest k)
  else if i.holds below k then some (ofUnits below k)
  else if i.holds (below + 1) k then some (ofUnits (below + 1) k)
  else none

/-- The fewest digits that read back as `m · 2 ^ q`; seventeen always do. -/
def shortest (m : Nat) (q : Int) : Digits :=
  let i := interval m q
  let point := pointOf i.value i.den
  ((List.range 17).findSome? fun n => atCount? i point (n + 1)).getD (significant 17 i.value i.den)

end Stencil.Decimal
