import Stencil.Json.Basic

/-! Reading JSON text. The text is exactly one value, nested at most ten thousand deep; malformed UTF-8
and lone surrogates in strings become replacement characters. -/

namespace Stencil.Json

def maxDepth : Nat := 10000

def isSpace (c : UInt8) : Bool :=
  c == Ascii.space || c == Ascii.tab || c == Ascii.newline || c == Ascii.carriageReturn

def skipSpace (s : Bytes) : Bytes := s.dropWhile isSpace

/-- A character other than the expected ones, or none at all. -/
def unexpected {α : Type} (place : Place) : Bytes → Except Error α
  | [] => .error .truncated
  | c :: s => .error (.invalid (Utf8.first c s) place)

/-- The rest of the word `name` after its first letter. -/
def readWord (name : Bytes) (result : Json) : (expected s : Bytes) → Except Error (Json × Bytes)
  | [], s => .ok (result, s)
  | e :: _, [] => unexpected (.word name e) []
  | e :: es, c :: s => if c == e then readWord name result es s else unexpected (.word name e) (c :: s)

def readDigits (s : Bytes) : Except Error (Bytes × Bytes) :=
  match s with
  | c :: _ =>
    if Ascii.isDigit c then .ok (s.takeWhile Ascii.isDigit, s.dropWhile Ascii.isDigit)
    else unexpected .number s
  | [] => unexpected .number s

def readFraction (s : Bytes) : Except Error (Bytes × Bytes) :=
  match s with
  | c :: t =>
    if c == Ascii.dot then do
      let (ds, rest) ← readDigits t
      return (c :: ds, rest)
    else .ok ([], s)
  | [] => .ok ([], s)

def readExponent (s : Bytes) : Except Error (Bytes × Bytes) :=
  match s with
  | c :: t =>
    if Ascii.toLower c == 0x65 then
      match t with
      | d :: u =>
        if d == Ascii.plus || d == Ascii.minus then do
          let (ds, rest) ← readDigits u
          return (c :: d :: ds, rest)
        else do
          let (ds, rest) ← readDigits t
          return (c :: ds, rest)
      | [] => .error .truncated
    else .ok ([], s)
  | [] => .ok ([], s)

def readWhole (s : Bytes) : Except Error (Bytes × Bytes) :=
  match s with
  | c :: t => if c == Ascii.zero then .ok ([c], t) else readDigits s
  | [] => readDigits s

def readNumber (s : Bytes) : Except Error (Json × Bytes) := do
  let (sign, t) := match s with
    | c :: t => if c == Ascii.minus then ([c], t) else ([], s)
    | [] => ([], s)
  let (whole, t) ← readWhole t
  let (fraction, t) ← readFraction t
  let (exponent, t) ← readExponent t
  return (.number (sign ++ whole ++ fraction ++ exponent), t)

inductive Escape where
  | none | letter | digits (count : Nat)

def isEscapeLetter (c : UInt8) : Bool :=
  c == 0x62 || c == 0x66 || c == 0x6e || c == 0x72 || c == 0x74
    || c == Ascii.backslash || c == Ascii.slash || c == Ascii.doubleQuote

def isHexDigit (c : UInt8) : Bool := (Ascii.digitValue? c).any (· < 16)

/-- The text of a string up to its closing quote, escapes included. -/
def readRaw : Escape → (raw s : Bytes) → Except Error (Bytes × Bytes)
  | _, _, [] => .error .truncated
  | .none, raw, c :: s =>
    if c == Ascii.doubleQuote then .ok (raw.reverse, s)
    else if c == Ascii.backslash then readRaw .letter (c :: raw) s
    else if c < 0x20 then unexpected .string (c :: s)
    else readRaw .none (c :: raw) s
  | .letter, raw, c :: s =>
    if c == 0x75 then
      let digits := s.take 4
      if digits.all isHexDigit then readRaw (.digits 3) (c :: raw) s
      else .error (.badEscape (Ascii.backslash :: c :: digits))
    else if isEscapeLetter c then readRaw .none (c :: raw) s
    else .error (.badEscape [Ascii.backslash, c])
  | .digits n, raw, c :: s =>
    readRaw (match n with | 0 => .none | n + 1 => .digits n) (c :: raw) s

def escapedCode (c : UInt8) : UInt8 :=
  if c == 0x62 then 0x08
  else if c == 0x66 then 0x0c
  else if c == 0x6e then 0x0a
  else if c == 0x72 then 0x0d
  else if c == 0x74 then 0x09
  else c

def hexValue (digits : Bytes) : Nat :=
  digits.foldl (fun n c => n * 16 + (Ascii.digitValue? c).getD 0) 0

/-- The half of a pair that was left alone. -/
def flush : Option Nat → Bytes
  | some _ => Utf8.encode Utf8.replacement
  | none => []

/-- Writes escapes out; `high` is the first half of a surrogate pair read just before. -/
def expand : (high : Option Nat) → Bytes → Bytes
  | high, c :: d :: s =>
    if c == Ascii.backslash then
      if d == 0x75 then
        match s with
        | a₁ :: a₂ :: a₃ :: a₄ :: t =>
          let code := hexValue [a₁, a₂, a₃, a₄]
          if 0xdc00 ≤ code ∧ code < 0xe000 then
            match high with
            | some h => Utf8.encode ((h - 0xd800) * 0x400 + (code - 0xdc00) + 0x10000) ++ expand none t
            | none => Utf8.encode Utf8.replacement ++ expand none t
          else if 0xd800 ≤ code ∧ code < 0xdc00 then flush high ++ expand (some code) t
          else flush high ++ Utf8.encode code ++ expand none t
        | t => flush high ++ t
      else flush high ++ escapedCode d :: expand none s
    else flush high ++ c :: expand none (d :: s)
  | high, s => flush high ++ s

def readString (s : Bytes) : Except Error (Bytes × Bytes) := do
  let (raw, rest) ← readRaw .none [] s
  return (Utf8.sanitize (expand none raw), rest)

mutual

/-- A value, `depth` containers deep. -/
def readValue : (fuel depth : Nat) → Bytes → Except Error (Json × Bytes)
  | 0, _, _ => .error .truncated
  | fuel + 1, depth, s =>
    match skipSpace s with
    | [] => .error .truncated
    | c :: t =>
      if c == Ascii.lbracket || c == Ascii.lbrace then
        if depth == maxDepth then .error .tooDeep
        else if c == Ascii.lbracket then
          match skipSpace t with
          | d :: u => if d == Ascii.rbracket then .ok (.array [], u) else readItems fuel (depth + 1) [] t
          | [] => .error .truncated
        else match skipSpace t with
          | d :: u => if d == Ascii.rbrace then .ok (.object [], u) else readMembers fuel (depth + 1) [] t
          | [] => .error .truncated
      else if c == Ascii.doubleQuote then do
        let (text, rest) ← readString t
        return (.string text, rest)
      else if c == Ascii.minus || Ascii.isDigit c then readNumber (c :: t)
      else if c == 0x74 then readWord "true" (.bool true) "rue" t
      else if c == 0x66 then readWord "false" (.bool false) "alse" t
      else if c == 0x6e then readWord "null" .null "ull" t
      else unexpected .value (c :: t)

/-- The items of an array after its bracket or a comma; `done` holds those before, latest first. -/
def readItems : (fuel depth : Nat) → (done : List Json) → Bytes → Except Error (Json × Bytes)
  | 0, _, _, _ => .error .truncated
  | fuel + 1, depth, done, s => do
    let (item, rest) ← readValue fuel depth s
    match skipSpace rest with
    | [] => .error .truncated
    | c :: t =>
      if c == Ascii.comma then readItems fuel depth (item :: done) t
      else if c == Ascii.rbracket then .ok (.array (item :: done).reverse, t)
      else unexpected .afterElement (c :: t)

/-- The members of an object after its brace or a comma; `done` holds those before, latest first. -/
def readMembers : (fuel depth : Nat) → (done : List (Bytes × Json)) → Bytes → Except Error (Json × Bytes)
  | 0, _, _, _ => .error .truncated
  | fuel + 1, depth, done, s =>
    match skipSpace s with
    | [] => .error .truncated
    | q :: t =>
      if q != Ascii.doubleQuote then unexpected .key (q :: t)
      else do
        let (key, rest) ← readString t
        match skipSpace rest with
        | [] => .error .truncated
        | c :: u =>
          if c != Ascii.colon then unexpected .afterKey (c :: u)
          else do
            let (v, rest) ← readValue fuel depth u
            match skipSpace rest with
            | [] => .error .truncated
            | c :: t =>
              if c == Ascii.comma then readMembers fuel depth ((key, v) :: done) t
              else if c == Ascii.rbrace then .ok (.object ((key, v) :: done).reverse, t)
              else unexpected .afterMember (c :: t)

end

def parse (text : Bytes) : Except Error Json := do
  let (v, rest) ← readValue (2 * text.length + 1) 0 text
  match skipSpace rest with
  | [] => return v
  | rest => unexpected .afterTop rest

end Stencil.Json
