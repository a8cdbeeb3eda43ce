import Stencil.Compile.Environment
import Stencil.SourceMap

/-! Finished pages. While a tree is rendered, the start of a node's text is marked by its fragment number
between two control characters; finishing the page takes the marks out and notes where they stood. -/

namespace Stencil.Page

def markOpen : UInt8 := 0
def markClose : UInt8 := 1

/-- The mark of a fragment. Fragments are counted in 64 bits. -/
def mark (id : Nat) : Bytes := markOpen :: (Bytes.ofInt (Int64.ofNat id).toInt ++ [markClose])

/-- A rendered text is a list of bytes and marks. -/
inductive Segment where
  | byte (c : UInt8)
  | fragment (id : Int)
deriving DecidableEq, Repr

/-- The number of a mark whose first byte is `c`, and how many bytes of `s` belong to the mark. -/
def mark? (c : UInt8) (s : Bytes) : Option (Int × Nat) :=
  if c == markOpen then
    let digits := s.takeWhile (· != markClose)
    if digits.length < s.length then
      (Bytes.toInt64? digits).map fun id => (id.toInt, digits.length + 1)
    else none
  else none

/-- The segments of a text whose first `skip` bytes belong to a mark before. -/
def segmentsFrom : (skip : Nat) → Bytes → List Segment
  | _, [] => []
  | skip + 1, _ :: s => segmentsFrom skip s
  | 0, c :: s =>
    match mark? c s with
    | some (id, n) => .fragment id :: segmentsFrom n s
    | none => .byte c :: segmentsFrom 0 s

def segments (body : Bytes) : List Segment := segmentsFrom 0 body

/-- Without the line break at the start, if there is one; marks may stand before it. -/
def dropLeadingBreak : List Segment → List Segment
  | [] => []
  | .fragment id :: ss => .fragment id :: dropLeadingBreak ss
  | .byte c :: ss => if c == Ascii.newline then ss else .byte c :: ss

end Page

/-- The page written so far, latest first, with the position that comes next. -/
structure Page where
  reversed : Bytes := []
  line : Nat := 0
  column : Nat := 0
  mappings : List Mapping := []
deriving DecidableEq, Repr

namespace Page

def text (p : Page) : Bytes := p.reversed.reverse

def sourceMap (p : Page) (file : Bytes) : SourceMap := ⟨file, some p.mappings.reverse⟩

def writeByte (p : Page) (c : UInt8) : Page :=
  if c == Ascii.newline then
    { p with reversed := c :: p.reversed, line := p.line + 1, column := 0 }
  else { p with reversed := c :: p.reversed, column := p.column + 1 }

def write (p : Page) (s : Bytes) : Page := s.foldl writeByte p

/-- Notes that the text of a fragment starts here. -/
def note (p : Page) (id : Int) (o : Origin) : Page :=
  { p with mappings :=
      { id, outputLine := p.line, outputColumn := p.column, file := o.file, line := o.line,
        offset := o.offset } :: p.mappings }

def fragment? (fragments : Array Origin) (id : Int) : Option Origin :=
  if id < 1 then none else fragments[(id - 1).toNat]?

/-- One more segment. A mark of no fragment leaves nothing; when debugging, the others leave code that
sets the current fragment. -/
def step (env : Environment) (site : Site) (fragments : Array Origin) (p : Page) :
    Segment → Except Failure Page
  | .byte c => .ok (p.writeByte c)
  | .fragment id =>
    match fragment? fragments id with
    | none => .ok p
    | some o =>
      if env.settings.debug then do
        let marker ← env.pattern site "php_handle_code" ["$__pug_debug_id = " ++ Bytes.ofInt id ++ ";"]
        return (p.note id o).write marker
      else .ok (p.note id o)

def body (env : Environment) (site : Site) (fragments : Array Origin) (p : Page) (rendered : Bytes) :
    Except Failure Page :=
  let all := segments rendered
  let kept := if env.settings.pretty then dropLeadingBreak all else all
  kept.foldlM (step env site fragments) p

end Stencil.Page
