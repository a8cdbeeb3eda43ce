import Stencil.Bytes

/-! Named bytes, and the byte classes of embedded code. Every byte from 0x80 on may stand in a name. -/

namespace Stencil.Ascii

def tab : UInt8 := 0x09
def newline : UInt8 := 0x0a
def carriageReturn : UInt8 := 0x0d
def space : UInt8 := 0x20
def doubleQuote : UInt8 := 0x22
def hash : UInt8 := 0x23
def dollar : UInt8 := 0x24
def percent : UInt8 := 0x25
def ampersand : UInt8 := 0x26
def singleQuote : UInt8 := 0x27
def star : UInt8 := 0x2a
def plus : UInt8 := 0x2b
def comma : UInt8 := 0x2c
def minus : UInt8 := 0x2d
def dot : UInt8 := 0x2e
def slash : UInt8 := 0x2f
def zero : UInt8 := 0x30
def colon : UInt8 := 0x3a
def semicolon : UInt8 := 0x3b
def less : UInt8 := 0x3c
def equals : UInt8 := 0x3d
def greater : UInt8 := 0x3e
def lbracket : UInt8 := 0x5b
def backslash : UInt8 := 0x5c
def rbracket : UInt8 := 0x5d
def underscore : UInt8 := 0x5f
def backtick : UInt8 := 0x60
def lbrace : UInt8 := 0x7b
def rbrace : UInt8 := 0x7d

def isSpace (c : UInt8) : Bool := c == space || (tab ≤ c && c ≤ carriageReturn)

def isBlank (c : UInt8) : Bool := c == space || c == tab

def isDigit (c : UInt8) : Bool := 0x30 ≤ c && c ≤ 0x39

def isLower (c : UInt8) : Bool := 0x61 ≤ c && c ≤ 0x7a

def isUpper (c : UInt8) : Bool := 0x41 ≤ c && c ≤ 0x5a

def isNameStart (c : UInt8) : Bool := c == underscore || isLower c || isUpper c || 0x80 ≤ c

def isNameChar (c : UInt8) : Bool := isNameStart c || isDigit c

def toLower (c : UInt8) : UInt8 := if isUpper c then c + 0x20 else c

def digitValue? (c : UInt8) : Option Nat :=
  if isDigit c then some (c - 0x30).toNat
  else if isLower c then some ((c - 0x61).toNat + 10)
  else if isUpper c then some ((c - 0x41).toNat + 10)
  else none

def isName : Bytes → Bool
  | [] => false
  | c :: s => isNameStart c && s.all isNameChar

end Stencil.Ascii
