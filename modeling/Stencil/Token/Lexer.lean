import Stencil.Token.Scan

/-! The lexer. Strings nest in code and code in strings without bound, so the lexer keeps the open
constructs on a stack of frames; the empty stack is top-level code. Each step reads at least one byte
and turns all it reads into tokens. -/

namespace Stencil.Token

open Ascii

inductive Frame where
  /-- Code inside an interpolation opened before offset `opened`, with `depth` braces open in it. -/
  | nested (opened depth : Nat)
  /-- A string whose text starts at `opened`. -/
  | quoted (opened : Nat) (delim : UInt8)
  /-- A heredoc whose opening line starts at `start`. -/
  | heredoc (start : Nat) (label : Bytes)
deriving DecidableEq, Repr

/-- The source from `pos` on, read inside `frames`. -/
structure Cursor where
  frames : List Frame
  pos : Nat
  /-- The byte before `pos` is a newline. -/
  lineStart : Bool
  rest : Bytes
deriving DecidableEq, Repr

namespace Cursor

def ofSource (src : Bytes) : Cursor := { frames := [], pos := 0, lineStart := false, rest := src }

/-- A fault inside a heredoc is reported as that heredoc being unterminated, the outermost one first. -/
def blame (c : Cursor) (fault : Fault) : Fault :=
  c.frames.foldl (fun f frame => match frame with
    | .heredoc start label => ⟨start, .unterminatedHeredoc label⟩
    | _ => f) fault

def token (c : Cursor) (kind : Kind) (n : Nat) : Token :=
  { kind, text := c.rest.take n, offset := c.pos, inString := !c.frames.isEmpty }

def advance (c : Cursor) (n : Nat) : Cursor :=
  { c with
    pos := c.pos + n
    lineStart := (c.rest.take n).getLast? == some newline
    rest := c.rest.drop n }

def withFrames (c : Cursor) (frames : List Frame) : Cursor := { c with frames }

/-- One token after another, of the given kinds and lengths. -/
def emit (c : Cursor) : List (Kind × Nat) → List Token × Cursor
  | [] => ([], c)
  | (kind, n) :: ks =>
    let (ts, c') := (c.advance n).emit ks
    (c.token kind n :: ts, c')

/-- The state once the whole source is read: every construct must be closed. -/
def atEnd (c : Cursor) : Except Fault (List Token) :=
  match c.frames with
  | [] => .ok []
  | .nested opened _ :: _ => .error (c.blame ⟨opened, .unterminatedInterpolation⟩)
  | .quoted opened _ :: _ => .error (c.blame ⟨opened, .unterminatedString⟩)
  | .heredoc start label :: _ => .error (c.blame ⟨start, .unterminatedHeredoc label⟩)

abbrev Step := Except Fault (List Token × Cursor)

def single (c : Cursor) (kind : Kind) (n : Nat) : Step := .ok (c.emit [(kind, n)])

def fail (c : Cursor) (problem : Problem) : Step := .error (c.blame ⟨c.pos, problem⟩)

/-- A string: one token, or its opening delimiter when it interpolates. -/
def openQuoted (c : Cursor) (delim : UInt8) (body : Bytes) : Step :=
  match Scan.quoted delim body with
  | none => c.fail .unterminatedString
  | some (n, false) => c.single .string (n + 1)
  | some (_, true) =>
    let (ts, c') := c.emit [(.quote, 1)]
    .ok (ts, c'.withFrames (.quoted c'.pos delim :: c.frames))

def openHeredoc (c : Cursor) (header : Scan.Header) : Step :=
  if header.nowdoc then
    match Scan.nowdocBody header.label true (c.rest.drop header.length) with
    | some n => c.single .string (header.length + n)
    | none => c.fail (.unterminatedNowdoc header.label)
  else
    let (ts, c') := c.emit [(.heredocStart, header.length)]
    .ok (ts, c'.withFrames (.heredoc c.pos header.label :: c.frames))

def openBrace (c : Cursor) : Step :=
  let (ts, c') := c.emit [(.lbrace, 1)]
  match c.frames with
  | .nested opened depth :: fs => .ok (ts, c'.withFrames (.nested opened (depth + 1) :: fs))
  | _ => .ok (ts, c')

/-- A closing brace ends the interpolation when it has no open brace of its own. -/
def closeBrace (c : Cursor) : Step :=
  let (ts, c') := c.emit [(.rbrace, 1)]
  match c.frames with
  | .nested _ 0 :: fs => .ok (ts, c'.withFrames fs)
  | .nested opened (depth + 1) :: fs => .ok (ts, c'.withFrames (.nested opened depth :: fs))
  | _ => .ok (ts, c')

def code (c : Cursor) (b : UInt8) (s : Bytes) : Step :=
  let next := s.head?
  if isSpace b then c.single .whitespace (Bytes.countWhile isSpace c.rest)
  else if b == hash || (b == slash && next == some slash) then
    c.single .comment (Bytes.countWhile (· != newline) c.rest)
  else if b == slash && next == some star then
    match Bytes.find? "*/" (s.drop 1) with
    | some n => c.single .comment (n + 4)
    | none => c.fail .unterminatedComment
  else if b == dollar && Scan.startsName s then c.single .var (Scan.nameChars s + 1)
  else if isNameStart b || (b == backslash && Scan.startsName s) then
    c.single .ident (Scan.qualifiedName c.rest)
  else if isDigit b || (b == dot && Scan.startsDigit s) then c.single .number (Scan.number c.rest)
  else if b == singleQuote then
    match Scan.singleQuoted s with
    | some n => c.single .string (n + 1)
    | none => c.fail .unterminatedString
  else if b == doubleQuote || b == backtick then c.openQuoted b s
  else match Scan.header? c.rest with
    | some header => c.openHeredoc header
    | none =>
      if b == lbrace then c.openBrace
      else if b == rbrace then c.closeBrace
      else .ok (c.emit [Scan.operator c.rest])

/-- One step in the text of an interpolated string, `frames` being what encloses the string. The string
ends where `closes` gives the length of its terminator. -/
def encapsed (c : Cursor) (frames : List Frame) (terminator : Kind)
    (closes : (lineStart : Bool) → Bytes → Option Nat) : Step :=
  match closes c.lineStart c.rest with
  | some n => .ok ((c.withFrames frames).emit [(terminator, n)])
  | none =>
    match c.rest with
    | b :: d :: s =>
      if b == dollar && isNameStart d then
        let n := Scan.nameChars (d :: s) + 1
        .ok (c.emit ((.var, n) :: Scan.simpleSuffix (c.rest.drop n)))
      else if b == lbrace && d == dollar then
        let (ts, c') := c.emit [(.curlyOpen, 1)]
        .ok (ts, c'.withFrames (.nested c'.pos 0 :: c.frames))
      else if b == dollar && d == lbrace then
        let (ts, c') := c.emit [(.dollarCurlyOpen, 2)]
        .ok (ts, c'.withFrames (.nested c'.pos 0 :: c.frames))
      else c.single .encapsed (Scan.literal (fun l t => (closes l t).isSome) c.lineStart c.rest)
    | _ => c.single .encapsed c.rest.length

def closesQuoted (delim : UInt8) (_ : Bool) (s : Bytes) : Option Nat :=
  if s.head? == some delim then some 1 else none

def closesHeredoc (label : Bytes) (lineStart : Bool) (s : Bytes) : Option Nat :=
  if lineStart then Scan.closingLabel? label s else none

def step (c : Cursor) (b : UInt8) (s : Bytes) : Step :=
  match c.frames with
  | .quoted _ delim :: fs => c.encapsed fs .quote (closesQuoted delim)
  | .heredoc _ label :: fs => c.encapsed fs .heredocEnd (closesHeredoc label)
  | _ => c.code b s

/-- The tokens from the cursor on, in at most `fuel` steps. -/
def run : (fuel : Nat) → Cursor → Except Fault (List Token)
  | 0, c => c.atEnd
  | fuel + 1, c =>
    match c.rest with
    | [] => c.atEnd
    | b :: s => do
      let (ts, c') ← c.step b s
      let more ← run fuel c'
      return ts ++ more

end Cursor

def tokenize (src : Bytes) : Except Fault (List Token) := (Cursor.ofSource src).run src.length

end Stencil.Token
