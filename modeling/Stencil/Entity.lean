import Stencil.Ascii

/-! Text as markup content: the characters that mean something in markup become entities. -/

namespace Stencil.Entity

def encode (c : UInt8) : Bytes :=
  if c == Ascii.ampersand then "&amp;"
  else if c == Ascii.singleQuote then "&#39;"
  else if c == Ascii.less then "&lt;"
  else if c == Ascii.greater then "&gt;"
  else if c == Ascii.doubleQuote then "&#34;"
  else if c == Ascii.carriageReturn then "&#13;"
  else [c]

def escape (s : Bytes) : Bytes := s.flatMap encode

end Stencil.Entity
