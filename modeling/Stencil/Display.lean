import Stencil.Ascii
import Stencil.Unicode.Printable

/-! Text shown in messages: between quotes, with everything that cannot be printed written as an escape. -/

namespace Stencil.Display

/-- The letter of a control character that has one. -/
def letter? (code : Nat) : Option UInt8 :=
  if code == 0x07 then some 0x61
  else if code == 0x08 then some 0x62
  else if code == 0x09 then some 0x74
  else if code == 0x0a then some 0x6e
  else if code == 0x0b then some 0x76
  else if code == 0x0c then some 0x66
  else if code == 0x0d then some 0x72
  else none

def character (mark : UInt8) (code : Nat) : Bytes :=
  if code == mark.toNat || code == Ascii.backslash.toNat then
    [Ascii.backslash, UInt8.ofNat code]
  else if Text.isPrintable code then Utf8.encode code
  else match letter? code with
    | some c => [Ascii.backslash, c]
    | none =>
      if code < 0x20 ∨ code == 0x7f then "\\x" ++ Bytes.ofHex 2 code
      else if code < 0x10000 then "\\u" ++ Bytes.ofHex 4 code
      else "\\U" ++ Bytes.ofHex 8 code

def chunk (mark : UInt8) (c : Utf8.Chunk) : Bytes :=
  match c.code with
  | some code => character mark code
  | none => c.bytes.flatMap fun b => "\\x" ++ Bytes.ofHex 2 b.toNat

/-- Characters between two marks. -/
def between (mark : UInt8) (cs : List Utf8.Chunk) : Bytes := mark :: (cs.flatMap (chunk mark) ++ [mark])

def quote (s : Bytes) : Bytes := between Ascii.doubleQuote (Utf8.chunks s)

def quoteChunk (c : Utf8.Chunk) : Bytes := between Ascii.singleQuote [c]

end Stencil.Display
