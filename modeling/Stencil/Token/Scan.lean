import Stencil.Token.Basic

/-! How far one lexeme of embedded code reaches. Every function here looks at the source from one point
on and answers with a number of bytes. -/

namespace Stencil.Token.Scan

open Ascii

def startsName : Bytes → Bool
  | c :: _ => isNameStart c
  | [] => false

def startsDigit : Bytes → Bool
  | c :: _ => isDigit c
  | [] => false

def nameChars (s : Bytes) : Nat := Bytes.countWhile isNameChar s

def qualifiedName : Bytes → Nat
  | [] => 0
  | c :: s =>
    if isNameChar c || (c == backslash && startsName s) then qualifiedName s + 1 else 0

/-- A number after `prev`: name bytes, one point before a digit, and a sign between the exponent mark
and a digit unless the number is hexadecimal. -/
def numberFrom (hex : Bool) : (prev : Option UInt8) → (pointSeen : Bool) → Bytes → Nat
  | _, _, [] => 0
  | prev, pointSeen, c :: s =>
    if isNameChar c then numberFrom hex (some c) pointSeen s + 1
    else if c == dot && startsDigit s && !pointSeen then numberFrom hex (some c) true s + 1
    else if (c == plus || c == minus) && !hex && (prev == some 0x65 || prev == some 0x45)
        && startsDigit s then
      numberFrom hex (some c) pointSeen s + 1
    else 0

def isHex : Bytes → Bool
  | c :: d :: _ => c == zero && toLower d == 0x78
  | _ => false

def number (s : Bytes) : Nat := numberFrom (isHex s) none false s

/-- A single-quoted string after its opening quote, closing quote included. -/
def singleQuoted : Bytes → Option Nat
  | [] => none
  | [c] => if c == singleQuote then some 1 else none
  | c :: d :: s =>
    if c == backslash then (singleQuoted s).map (· + 2)
    else if c == singleQuote then some 1
    else (singleQuoted (d :: s)).map (· + 1)

/-- An interpolation starts here: `$name`, `${` or `{$`. -/
def startsInterpolation : Bytes → Bool
  | c :: d :: _ => (c == dollar && (isNameStart d || d == lbrace)) || (c == lbrace && d == dollar)
  | _ => false

/-- A string delimited by `delim` after its opening delimiter, closing one included, and whether it
interpolates. Code inside interpolations is not told apart from text. -/
def quoted (delim : UInt8) : Bytes → Option (Nat × Bool)
  | [] => none
  | [c] => if c == delim then some (1, false) else none
  | c :: d :: s =>
    if c == backslash then (quoted delim s).map fun (n, b) => (n + 2, b)
    else if c == delim then some (1, false)
    else (quoted delim (d :: s)).map fun (n, b) => (n + 1, startsInterpolation (c :: d :: s) || b)

structure Header where
  label : Bytes
  nowdoc : Bool
  length : Nat
deriving DecidableEq, Repr

/-- The line that opens a heredoc or nowdoc, its newline included. -/
def header? (s : Bytes) : Option Header := do
  let s₁ ← Bytes.after? "<<<" s
  let s₂ := s₁.dropWhile isBlank
  let (mark, s₃) := match s₂ with
    | c :: t => if c == doubleQuote || c == singleQuote then (some c, t) else (none, s₂)
    | [] => (none, s₂)
  guard (startsName s₃)
  let label := s₃.takeWhile isNameChar
  let s₄ := s₃.dropWhile isNameChar
  let s₅ ← match mark with
    | some q => Bytes.after? [q] s₄
    | none => some s₄
  let s₆ ← Bytes.after? [newline] (Bytes.dropLead [carriageReturn] s₅)
  return { label, nowdoc := mark == some singleQuote, length := s.length - s₆.length }

/-- A closing label at the start of a line: blanks, the label, and no further name byte. -/
def closingLabel? (label s : Bytes) : Option Nat := do
  let rest ← Bytes.after? label (s.dropWhile isBlank)
  guard (rest.head?.all (!isNameChar ·))
  return s.length - rest.length

/-- The text of a nowdoc up to its closing label, label included. -/
def nowdocBody (label : Bytes) : (lineStart : Bool) → Bytes → Option Nat
  | _, [] => none
  | lineStart, c :: s =>
    match if lineStart then closingLabel? label (c :: s) else none with
    | some n => some n
    | none => (nowdocBody label (c == newline) s).map (· + 1)

/-- Literal text of an interpolated string, up to an interpolation or to where `stop` holds. A
backslash takes the next byte with it. -/
def literal (stop : (lineStart : Bool) → Bytes → Bool) : (lineStart : Bool) → Bytes → Nat
  | _, [] => 0
  | lineStart, [c] => if stop lineStart [c] then 0 else 1
  | lineStart, c :: d :: s =>
    if stop lineStart (c :: d :: s) || startsInterpolation (c :: d :: s) then 0
    else if c == backslash then literal stop (d == newline) s + 2
    else literal stop (c == newline) (d :: s) + 1

/-- The key of a one-level index after its opening bracket. -/
def indexKey? (s : Bytes) : Option (Kind × Nat) :=
  let key : Option (Kind × Nat) := match s with
    | [] => none
    | c :: t =>
      if c == dollar && startsName t then some (.var, nameChars t + 1)
      else if c == minus || isDigit c then some (.number, Bytes.countWhile isDigit t + 1)
      else if isNameStart c then some (.ident, nameChars s)
      else none
  match key with
  | some (kind, n) => if (s.drop n).head? == some rbracket then some (kind, n) else none
  | none => none

/-- The index or property access that may follow a variable inside a string, as the kinds and lengths
of its tokens. -/
def simpleSuffix (s : Bytes) : List (Kind × Nat) :=
  match s with
  | [] => []
  | c :: t =>
    if c == lbracket then
      match indexKey? t with
      | some key => [(.lbracket, 1), key, (.rbracket, 1)]
      | none => []
    else match Bytes.after? "->" s with
      | some t => if startsName t then [(.objectOp, 2), (.ident, nameChars t)] else []
      | none => match Bytes.after? "?->" s with
        | some t => if startsName t then [(.nullsafeOp, 3), (.ident, nameChars t)] else []
        | none => []

def threeByteOperators : List (Bytes × Kind) :=
  [("<<=", .assign), (">>=", .assign), ("**=", .assign), ("??=", .assign),
   ("...", .ellipsis), ("?->", .nullsafeOp),
   ("<=>", .operator), ("===", .operator), ("!==", .operator)]

def twoByteOperators : List (Bytes × Kind) :=
  [("->", .objectOp), ("=>", .doubleArrow), ("::", .doubleColon),
   ("++", .incDec), ("--", .incDec), ("??", .coalesce),
   ("+=", .assign), ("-=", .assign), ("*=", .assign), ("/=", .assign),
   (".=", .assign), ("%=", .assign), ("&=", .assign), ("|=", .assign), ("^=", .assign)]

def twoByteComparisons : List Bytes :=
  ["==", "!=", "<>", "<=", ">=", "&&", "||", "<<", ">>", "**"]

def punctuation : List (Bytes × Kind) :=
  [("(", .lparen), (")", .rparen), ("[", .lbracket), ("]", .rbracket),
   (",", .comma), (";", .semicolon), ("=", .assign)]

/-- Operators and punctuation, longer ones first. -/
def operators : List (Bytes × Kind) :=
  threeByteOperators ++ twoByteOperators ++ twoByteComparisons.map (·, .operator) ++ punctuation

/-- The operator at the start of a non-empty text; an unlisted byte is one by itself. -/
def operator (s : Bytes) : Kind × Nat :=
  match operators.find? fun (text, _) => Bytes.startsWith text s with
  | some (text, kind) => (kind, text.length)
  | none => (.operator, 1)

end Stencil.Token.Scan
