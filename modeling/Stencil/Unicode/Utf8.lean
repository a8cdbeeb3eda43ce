import Stencil.Bytes

/-! Reading bytes as UTF-8. A text is cut into characters; a byte that starts no well-formed character is
a piece of its own, without a code point. -/

namespace Stencil.Utf8

/-- The form of a character after its lead byte: how many bytes follow, and the bounds of the first. -/
structure Lead where
  extra : Nat
  low : UInt8 := 0x80
  high : UInt8 := 0xbf
  bits : Nat
deriving DecidableEq, Repr

def lead? (a : UInt8) : Option Lead :=
  if a < 0x80 then some { extra := 0, bits := a.toNat }
  else if a < 0xc2 then none
  else if a < 0xe0 then some { extra := 1, bits := (a - 0xc0).toNat }
  else if a == 0xe0 then some { extra := 2, low := 0xa0, bits := 0 }
  else if a == 0xed then some { extra := 2, high := 0x9f, bits := 0xd }
  else if a < 0xf0 then some { extra := 2, bits := (a - 0xe0).toNat }
  else if a == 0xf0 then some { extra := 3, low := 0x90, bits := 0 }
  else if a < 0xf4 then some { extra := 3, bits := (a - 0xf0).toNat }
  else if a == 0xf4 then some { extra := 3, high := 0x8f, bits := 4 }
  else none

/-- The code point of the character that starts with `a` and goes on in `s`, and how many bytes of `s`
belong to it. -/
def character? (a : UInt8) (s : Bytes) : Option (Nat × Nat) := do
  let lead ← lead? a
  let tail := s.take lead.extra
  guard (tail.length == lead.extra)
  guard (tail.all fun b => 0x80 ≤ b && b ≤ 0xbf)
  guard (tail.head?.all fun b => lead.low ≤ b && b ≤ lead.high)
  return (tail.foldl (fun n b => n * 64 + (b.toNat - 0x80)) lead.bits, lead.extra)

structure Chunk where
  /-- The code point, unless the bytes are malformed. -/
  code : Option Nat
  bytes : Bytes
deriving DecidableEq, Repr

/-- The character that starts with `a` and goes on in `s`. -/
def first (a : UInt8) (s : Bytes) : Chunk :=
  match character? a s with
  | some (code, n) => ⟨some code, a :: s.take n⟩
  | none => ⟨none, [a]⟩

def chunksFrom : (skip : Nat) → Bytes → List Chunk
  | _, [] => []
  | skip + 1, _ :: s => chunksFrom skip s
  | 0, a :: s =>
    match character? a s with
    | some (code, n) => ⟨some code, a :: s.take n⟩ :: chunksFrom n s
    | none => ⟨none, [a]⟩ :: chunksFrom 0 s

def chunks (s : Bytes) : List Chunk := chunksFrom 0 s

def unchunk (cs : List Chunk) : Bytes := cs.flatMap (·.bytes)

def replacement : Nat := 0xfffd

/-- The bytes of a code point; surrogates and numbers past the last one give the replacement
character. -/
def encode (code : Nat) : Bytes :=
  let tail (n : Nat) : UInt8 := UInt8.ofNat (0x80 + n % 64)
  if code < 0x80 then [UInt8.ofNat code]
  else if code < 0x800 then [UInt8.ofNat (0xc0 + code / 64), tail code]
  else if (0xd800 ≤ code ∧ code < 0xe000) ∨ 0x110000 ≤ code then [0xef, 0xbf, 0xbd]
  else if code < 0x10000 then [UInt8.ofNat (0xe0 + code / 4096), tail (code / 64), tail code]
  else [UInt8.ofNat (0xf0 + code / 262144), tail (code / 4096), tail (code / 64), tail code]

def sanitize (s : Bytes) : Bytes := (chunks s).flatMap fun c => encode (c.code.getD replacement)

end Stencil.Utf8
