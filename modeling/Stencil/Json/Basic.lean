import Stencil.Ascii
import Stencil.Display
import Stencil.Unicode.Space

/-! JSON values. Numbers keep their text and objects keep all their members in order, so that a reader of
records can decide what a repeated or misspelt name means. -/

namespace Stencil

inductive Json where
  | null
  | bool (b : Bool)
  | number (text : Bytes)
  | string (s : Bytes)
  | array (items : List Json)
  | object (members : List (Bytes × Json))
deriving Inhabited

namespace Json

/-- Where in a text a character was not expected. -/
inductive Place where
  | value | key | afterKey | afterMember | afterElement | afterTop | string | number
  | word (name : Bytes) (expected : UInt8)
deriving DecidableEq, Repr

inductive Error where
  | invalid (c : Utf8.Chunk) (place : Place)
  /-- A backslash with what follows it, as far as an escape might reach. -/
  | badEscape (text : Bytes)
  | truncated
  | tooDeep
deriving DecidableEq, Repr

def Place.phrase : Place → Bytes
  | .value => "looking for beginning of value"
  | .key => "looking for beginning of object key string"
  | .afterKey => "after object key"
  | .afterMember => "after object key:value pair"
  | .afterElement => "after array element"
  | .afterTop => "after top-level value"
  | .string => "in string"
  | .number => "in numeric literal"
  | .word name expected => "in literal " ++ name ++ " (expecting '" ++ [expected] ++ "')"

/-- A character that can be shown between backticks. -/
def isPlain (c : Utf8.Chunk) : Bool :=
  c.code.any fun code => code != Ascii.backtick.toNat && code != Utf8.replacement
    && !Text.isSpaceCode code && Text.isPrintable code

def showEscape (text : Bytes) : Bytes :=
  if (Utf8.chunks text).all isPlain then Ascii.backtick :: (text ++ [Ascii.backtick])
  else Display.quote text

def Error.message : Error → Bytes
  | .invalid c place => "invalid character " ++ Display.quoteChunk c ++ " " ++ place.phrase
  | .badEscape text => "invalid escape sequence " ++ showEscape text ++ " in string"
  | .truncated => "unexpected end of JSON input"
  | .tooDeep => "exceeded max depth"

end Json

end Stencil
