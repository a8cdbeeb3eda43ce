import Stencil.Ascii

/-! Paths of files, with slashes between their parts, and the names of the files that belong to a tree. -/

namespace Stencil.Path

def dot : Bytes := "."
def dotDot : Bytes := ".."

def parts (path : Bytes) : List Bytes := path.splitOn Ascii.slash

def isRooted (path : Bytes) : Bool := path.head? == some Ascii.slash

/-- Adds a part to a stack of parts, innermost first. Two dots take the innermost part away; at the start
of a path that has no root they stay. -/
def push (rooted : Bool) (stack : List Bytes) (part : Bytes) : List Bytes :=
  if part.isEmpty || part == dot then stack
  else if part == dotDot then
    match stack with
    | [] => if rooted then [] else [part]
    | top :: below => if top == dotDot then part :: stack else below
  else part :: stack

def ofParts (rooted : Bool) (parts : List Bytes) : Bytes :=
  if rooted then Ascii.slash :: Bytes.join [Ascii.slash] parts
  else if parts.isEmpty then dot
  else Bytes.join [Ascii.slash] parts

/-- The parts of the shortest path with the same meaning. -/
def cleanParts (path : Bytes) : List Bytes := ((parts path).foldl (push (isRooted path)) []).reverse

def clean (path : Bytes) : Bytes := ofParts (isRooted path) (cleanParts path)

def join (directory name : Bytes) : Bytes :=
  if directory.isEmpty then clean name else clean (directory ++ Ascii.slash :: name)

def directory (path : Bytes) : Bytes := clean (Bytes.dropWhileRight (· != Ascii.slash) path)

def base (path : Bytes) : Bytes :=
  if path.isEmpty then dot
  else match Bytes.dropWhileRight (· == Ascii.slash) path with
    | [] => [Ascii.slash]
    | s => (s.reverse.takeWhile (· != Ascii.slash)).reverse

/-- The paths of the directories that lead to a clean path, outermost first, and the path itself. -/
def ancestry (path : Bytes) : List Bytes :=
  let all := cleanParts path
  (List.range all.length).map fun n => ofParts (isRooted path) (all.take (n + 1))

def isTreeFile (path : Bytes) : Bool := Bytes.endsWith ".json" path

def outputOf (path : Bytes) : Bytes := Bytes.dropTail ".pug" (Bytes.dropTail ".json" path) ++ ".php"

def sourceOf (path : Bytes) : Bytes :=
  let name := base (Bytes.dropTail ".json" path)
  if Bytes.endsWith ".pug" name then name else name ++ ".pug"

end Stencil.Path
