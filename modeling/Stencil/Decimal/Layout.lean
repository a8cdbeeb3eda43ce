import Stencil.Ascii
import Stencil.Decimal.Digits

/-! The written form of a number: positional, or with an exponent when the number is very small or has
more digits before its point than the style allows. -/

namespace Stencil.Decimal

def digit (d : Nat) : UInt8 := UInt8.ofNat (0x30 + d)

def digitAt (d : Digits) (i : Nat) : UInt8 := digit (d.digits.getD i 0)

def positional (d : Digits) : Bytes :=
  let whole : Bytes :=
    if d.point ≤ 0 then [Ascii.zero] else (List.range d.point.toNat).map (digitAt d)
  let zeros := (-d.point).toNat
  let fraction := List.replicate zeros Ascii.zero ++ (d.digits.drop d.point.toNat).map digit
  if (d.digits.length : Int) ≤ d.point then whole
  else whole ++ Ascii.dot :: fraction

/-- One digit, a point before the others, and an exponent of at least two digits after `mark`. -/
def scientific (mark : UInt8) (d : Digits) : Bytes :=
  let e := d.point - 1
  let magnitude := Bytes.ofNat e.natAbs
  let padded := if e.natAbs < 10 then Ascii.zero :: magnitude else magnitude
  let fraction := if d.digits.length ≤ 1 then [] else Ascii.dot :: (d.digits.drop 1).map digit
  digitAt d 0 :: fraction
    ++ mark :: (if e < 0 then Ascii.minus else Ascii.plus) :: padded

structure Style where
  /-- The mark before the exponent. -/
  mark : UInt8
  /-- Significant digits; none for the fewest that read back. -/
  count : Option Nat
  /-- Exponents from here on are written out. -/
  limit : Nat

/-- Numbers as text have fourteen significant digits. -/
def Style.text : Style := { mark := 0x45, count := some 14, limit := 14 }

/-- Numbers as code have the fewest digits that read back, at most six before the point. -/
def Style.code : Style := { mark := 0x65, count := none, limit := 6 }

def layout (style : Style) (d : Digits) : Bytes :=
  let n := d.digits.length
  let limit : Int :=
    if style.count.any (n < ·) && d.point ≤ n then n else style.limit
  let e := d.point - 1
  if e < -4 ∨ limit ≤ e then scientific style.mark d else positional d

def write (style : Style) (x : Binary64) : Bytes :=
  let sign : Bytes := if x.isNegative then [Ascii.minus] else []
  match x.magnitude with
  | .nan => "NaN"
  | .infinite => if x.isNegative then "-Inf" else "+Inf"
  | .finite m q =>
    if m == 0 then sign ++ layout style zero
    else match style.count with
      | some count =>
        let (num, den) := Binary64.fraction m q
        sign ++ layout style (significant count num den)
      | none => sign ++ layout style (shortest m q)

end Stencil.Decimal
