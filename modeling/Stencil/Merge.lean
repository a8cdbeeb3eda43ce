import Stencil.Ascii
import Stencil.Unicode.Space
import Stencil.Value.Table

/-! Merging attribute sets. A later value replaces an earlier one, except that classes are collected into
one list of distinct words and styles into one list of declarations. -/

namespace Stencil.Merge

def words (v : Value) : List Bytes := Text.words v.text

/-- The classes one array entry contributes: its key if that is a name and the value is truthy, else
its value or the items of its value. -/
def entryClasses : Key × Value → List Bytes
  | (.name s, v) => if v.isTruthy then Text.words s else []
  | (.int _, .array items) => items.flatMap fun (_, v) => words v
  | (.int _, v) => words v

def valueClasses : Value → List Bytes
  | .array entries => entries.flatMap entryClasses
  | .null => []
  | .bool false => []
  | v => words v

/-- Each class once, at its first position. -/
def classes (values : List Value) : Bytes :=
  Bytes.join [Ascii.space] (values.flatMap valueClasses).eraseDups

/-- A declaration list without white space around it and semicolons after it; none if nothing is left. -/
def declarations (s : Bytes) : List Bytes :=
  match Bytes.dropWhileRight (· == Ascii.semicolon) (Text.trim s) with
  | [] => []
  | t => [t]

def entryStyles : Key × Value → List Bytes
  | (.int _, v) => declarations v.text
  | (.name s, v) => if v.text.isEmpty then [] else [s ++ Ascii.colon :: v.text]

def valueStyles : Value → List Bytes
  | .array entries => entries.flatMap entryStyles
  | v => declarations v.text

def styles (values : List Value) : Bytes :=
  Bytes.join [Ascii.semicolon] (values.flatMap valueStyles)

/-- The value of `key` once `v` is added to what the table holds under it. -/
def combine (t : Table) (key : Key) (v : Value) : Value :=
  let prev := (t.find? key).getD .null
  if key = .name "class" then .string (classes [prev, v])
  else if key = .name "style" then .string (styles [prev, v])
  else v

def addEntry (t : Table) (e : Key × Value) : Table := t.setKey e.1 (combine t e.1 e.2)

/-- The sets merged from left to right; a key stays where it came first. -/
def attributes (sets : List (List (Key × Value))) : List (Key × Value) :=
  (sets.flatten.foldl addEntry Table.empty).entries

end Stencil.Merge
