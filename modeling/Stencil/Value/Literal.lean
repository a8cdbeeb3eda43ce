import Stencil.Quoted
import Stencil.Decimal.Numeral
import Stencil.Token.Lexer
import Stencil.Unicode.Lower
import Stencil.Value.Table

/-! Literals: constants written in embedded code. `evaluate` reads a string without interpolation, an
optionally signed number, `true`, `false`, `null`, or an array of literals in either notation; `write`
prints a constant as such a literal. -/

namespace Stencil.Literal

open Token (Kind)

/-- The character an escape letter stands for in a double-quoted string. -/
def escapeLetter? (c : UInt8) : Option UInt8 :=
  if c == 0x6e then some 0x0a
  else if c == 0x74 then some 0x09
  else if c == 0x72 then some 0x0d
  else if c == 0x76 then some 0x0b
  else if c == 0x66 then some 0x0c
  else if c == 0x65 then some 0x1b
  else if c == 0x30 then some 0x00
  else if c == Ascii.backslash || c == Ascii.dollar || c == Ascii.doubleQuote then some c
  else none

def unescapeDouble : Bytes → Bytes
  | c :: d :: s =>
    if c == Ascii.backslash then
      match escapeLetter? d with
      | some e => e :: unescapeDouble s
      | none => c :: unescapeDouble (d :: s)
    else c :: unescapeDouble (d :: s)
  | s => s

/-- The text a string token denotes; backtick strings and nowdocs denote none. -/
def unquote? (text : Bytes) : Option Bytes :=
  match text with
  | q :: c :: s =>
    let body := (c :: s).dropLast
    if q == Ascii.singleQuote then some (Quoted.unescape body)
    else if q == Ascii.doubleQuote then some (unescapeDouble body)
    else none
  | _ => none

def number? (text : Bytes) (negative : Bool) : Option Value :=
  let clean := text.filter (· != Ascii.underscore)
  match Numeral.whole? negative clean with
  | some n => some (.int n)
  | none => (Numeral.fraction? negative clean).map .float

def word? (text : Bytes) : Option Value :=
  let w := Text.lower text
  if w == "true" then some (.bool true)
  else if w == "false" then some (.bool false)
  else if w == "null" then some .null
  else none

mutual

/-- A literal at the start of the tokens, and the tokens after it. -/
def value : (fuel : Nat) → List Token → Option (Value × List Token)
  | 0, _ => none
  | _ + 1, [] => none
  | fuel + 1, t :: ts =>
    match t.kind with
    | .string => (unquote? t.text).map fun s => (.string s, ts)
    | .number => (number? t.text false).map fun v => (v, ts)
    | .operator =>
      if t.text == [Ascii.minus] || t.text == [Ascii.plus] then
        match ts with
        | n :: rest =>
          if n.kind = .number then
            (number? n.text (t.text == [Ascii.minus])).map fun v => (v, rest)
          else none
        | [] => none
      else none
    | .lbracket => items fuel .rbracket .empty ts
    | .ident =>
      match word? t.text with
      | some v => some (v, ts)
      | none =>
        if Text.lower t.text == "array" then
          match ts with
          | p :: rest => if p.kind = .lparen then items fuel .rparen .empty rest else none
          | [] => none
        else none
    | _ => none

/-- The entries of an array up to its closing bracket, added to those read before. -/
def items : (fuel : Nat) → (closing : Kind) → Table → List Token → Option (Value × List Token)
  | 0, _, _, _ => none
  | _ + 1, _, _, [] => none
  | fuel + 1, closing, table, t :: ts =>
    if t.kind = closing then some (table.toValue, ts)
    else do
      let (v, rest) ← value fuel (t :: ts)
      let (table, rest) ← match rest with
        | a :: rest' =>
          if a.kind = .doubleArrow then
            if v.isArray then none
            else (value fuel rest').map fun (w, rest) => (table.set v w, rest)
          else some (table.append v, rest)
        | [] => none
      match rest with
      | c :: rest' =>
        if c.kind = .comma then items fuel closing table rest'
        else if c.kind = closing then items fuel closing table (c :: rest')
        else none
      | [] => none

end

/-- The constant a source denotes, if it is a literal. -/
def evaluate (src : Bytes) : Option Value :=
  match Token.tokenize src with
  | .error _ => none
  | .ok tokens =>
    let significant := tokens.filter (!·.isTrivia)
    match value (2 * significant.length + 1) significant with
    | some (v, []) => some v
    | _ => none

def writeKey : Key → Bytes
  | .int n => Bytes.ofInt n.toInt
  | .name s => Quoted.encode s

mutual

def write : Value → Bytes
  | .null => "null"
  | .bool b => if b then "true" else "false"
  | .int n => Bytes.ofInt n.toInt
  | .float x => Decimal.write .code x
  | .string s => Quoted.encode s
  | .array entries => Ascii.lbracket :: (Bytes.join ", " (writeEntries entries) ++ [Ascii.rbracket])

def writeEntries : List (Key × Value) → List Bytes
  | [] => []
  | (k, v) :: es => (writeKey k ++ " => " ++ write v) :: writeEntries es

end

/-- The first word of a source in lower case, if it starts with one. -/
def firstKeyword (src : Bytes) : Bytes :=
  match Token.tokenize src with
  | .error _ => []
  | .ok tokens =>
    match tokens.find? (!·.isTrivia) with
    | some t => if t.kind = .ident then Text.lower t.text else []
    | none => []

end Stencil.Literal
