import Stencil.Ascii

/-! Pattern templates. `%s` and `%d` take the next argument, `%N$s` and `%N$d` the N-th, and `%%` is a
percent sign; anything else stands for itself. A template is read into pieces and the pieces are
filled in, so argument texts are never read as templates. -/

namespace Stencil.Template

inductive Piece where
  | byte (c : UInt8)
  | next
  | nth (n : Nat)
deriving DecidableEq, Repr

def isConversion (c : UInt8) : Bool := c == 0x73 || c == 0x64

/-- `N$s` or `N$d` at the start of the text after a percent sign: the number and the rest. The number
is at least 1 and fits 63 bits. -/
def positional? (s : Bytes) : Option (Nat × Bytes) :=
  match s.dropWhile Ascii.isDigit with
  | d :: c :: rest =>
    if d == Ascii.dollar && isConversion c then
      match Bytes.toNat? (s.takeWhile Ascii.isDigit) with
      | some n => if 1 ≤ n ∧ n < Nat.pow 2 63 then some (n, rest) else none
      | none => none
    else none
  | _ => none

/-- The piece at the start of a non-empty template, and what follows it. -/
def piece (c : UInt8) (s : Bytes) : Piece × Bytes :=
  if c != Ascii.percent then (.byte c, s)
  else match s with
    | [] => (.byte c, [])
    | d :: rest =>
      if d == Ascii.percent then (.byte Ascii.percent, rest)
      else if isConversion d then (.next, rest)
      else match positional? s with
        | some (n, rest) => (.nth n, rest)
        | none => (.byte c, s)

/-- The pieces of a template; `fuel` bounds their number. -/
def piecesFrom : (fuel : Nat) → Bytes → List Piece
  | 0, _ => []
  | _ + 1, [] => []
  | fuel + 1, c :: s => let (p, rest) := piece c s; p :: piecesFrom fuel rest

def pieces (template : Bytes) : List Piece := piecesFrom template.length template

/-- Fills the pieces in; `used` arguments have been taken so far, and a missing argument is empty. -/
def fill (args : List Bytes) : (used : Nat) → List Piece → Bytes
  | _, [] => []
  | used, .byte c :: ps => c :: fill args used ps
  | used, .next :: ps => args.getD used [] ++ fill args (used + 1) ps
  | used, .nth n :: ps => args.getD (n - 1) [] ++ fill args used ps

def format (template : Bytes) (args : List Bytes) : Bytes := fill args 0 (pieces template)

end Stencil.Template
