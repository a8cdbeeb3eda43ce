import Stencil.Unicode.Utf8

/-! White space of text: the characters with the Unicode property `White_Space`. -/

namespace Stencil.Text

def isSpaceCode (code : Nat) : Bool :=
  (0x09 ≤ code && code ≤ 0x0d) || code == 0x20 || code == 0x85 || code == 0xa0 || code == 0x1680
    || (0x2000 ≤ code && code ≤ 0x200a) || code == 0x2028 || code == 0x2029 || code == 0x202f
    || code == 0x205f || code == 0x3000

def isSpace (c : Utf8.Chunk) : Bool := c.code.any isSpaceCode

def trim (s : Bytes) : Bytes :=
  Utf8.unchunk ((((Utf8.chunks s).dropWhile isSpace).reverse.dropWhile isSpace).reverse)

/-- The words of a list of characters, `word` holding the characters since the last space. -/
def wordsFrom : (word : Bytes) → List Utf8.Chunk → List Bytes
  | [], [] => []
  | word, [] => [word]
  | word, c :: cs =>
    if isSpace c then
      if word.isEmpty then wordsFrom [] cs else word :: wordsFrom [] cs
    else wordsFrom (word ++ c.bytes) cs

/-- The maximal runs of characters that are not white space. -/
def words (s : Bytes) : List Bytes := wordsFrom [] (Utf8.chunks s)

end Stencil.Text
