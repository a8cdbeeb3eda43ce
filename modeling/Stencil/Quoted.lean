import Stencil.Ascii

/-! Single-quoted literals of embedded code: a backslash and a quote are written after a backslash. -/

namespace Stencil.Quoted

def escape : Bytes → Bytes
  | [] => []
  | c :: s =>
    if c == Ascii.backslash || c == Ascii.singleQuote then Ascii.backslash :: c :: escape s
    else c :: escape s

def encode (s : Bytes) : Bytes := Ascii.singleQuote :: (escape s ++ [Ascii.singleQuote])

/-- Reads the inside of a single-quoted literal: a backslash before a backslash or a quote vanishes,
any other stays. -/
def unescape : Bytes → Bytes
  | c :: d :: s =>
    if c == Ascii.backslash && (d == Ascii.backslash || d == Ascii.singleQuote) then d :: unescape s
    else c :: unescape (d :: s)
  | s => s

end Stencil.Quoted
