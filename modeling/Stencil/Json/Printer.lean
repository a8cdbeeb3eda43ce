import Stencil.Json.Basic

/-! Printing JSON, one member or item to a line. Besides quotes, backslashes and control characters, the
characters that mean something to a page around the text are escaped. -/

namespace Stencil.Json

def escapeCode (code : Nat) : Bytes :=
  if code == 0x22 then "\\\""
  else if code == 0x5c then "\\\\"
  else if code == 0x08 then "\\b"
  else if code == 0x0c then "\\f"
  else if code == 0x0a then "\\n"
  else if code == 0x0d then "\\r"
  else if code == 0x09 then "\\t"
  else if code < 0x20 ∨ code == 0x3c ∨ code == 0x3e ∨ code == 0x26 ∨ code == 0x2028 ∨ code == 0x2029 then
    "\\u" ++ Bytes.ofHex 4 code
  else Utf8.encode code

def writeString (s : Bytes) : Bytes :=
  let chunk (c : Utf8.Chunk) : Bytes := match c.code with
    | some code => escapeCode code
    | none => "\\ufffd"
  Ascii.doubleQuote :: ((Utf8.chunks s).flatMap chunk ++ [Ascii.doubleQuote])

/-- A new line, indented by two spaces for each level. -/
def lineBreak (level : Nat) : Bytes := Ascii.newline :: List.replicate (2 * level) Ascii.space

def block (opening closing : UInt8) (level : Nat) (items : List Bytes) : Bytes :=
  if items.isEmpty then [opening, closing]
  else opening :: (Bytes.join [Ascii.comma] (items.map (lineBreak (level + 1) ++ ·))
    ++ lineBreak level ++ [closing])

mutual

def write (level : Nat) : Json → Bytes
  | .null => "null"
  | .bool b => if b then "true" else "false"
  | .number text => text
  | .string s => writeString s
  | .array items => block Ascii.lbracket Ascii.rbracket level (writeItems (level + 1) items)
  | .object members => block Ascii.lbrace Ascii.rbrace level (writeMembers (level + 1) members)

def writeItems (level : Nat) : List Json → List Bytes
  | [] => []
  | j :: js => write level j :: writeItems level js

def writeMembers (level : Nat) : List (Bytes × Json) → List Bytes
  | [] => []
  | (k, j) :: ms => (writeString k ++ ": " ++ write level j) :: writeMembers level ms

end

def pretty (j : Json) : Bytes := write 0 j

end Stencil.Json
