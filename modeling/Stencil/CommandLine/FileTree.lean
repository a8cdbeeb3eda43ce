import Stencil.CommandLine.Host
import Stencil.CommandLine.Path

/-! Files in memory: a tree of directories and files, seen from the directory a program starts in. -/

namespace Stencil

inductive FileTree.Entry where
  | directory
  | file (content : Bytes)
deriving DecidableEq, Repr

/-- The entries below the starting directory, each under the parts of its path. -/
structure FileTree where
  entries : List (List Bytes × FileTree.Entry) := []
deriving DecidableEq, Repr

namespace FileTree

def Entry.kind : Entry → FileKind
  | .directory => .directory
  | .file _ => .file

def get? (t : FileTree) (spot : List Bytes) : Option Entry :=
  if spot.isEmpty then some .directory else (t.entries.find? (·.1 == spot)).map (·.2)

def set (t : FileTree) (spot : List Bytes) (e : Entry) : FileTree :=
  if (t.get? spot).isSome then
    ⟨t.entries.map fun (p, old) => if p == spot then (p, e) else (p, old)⟩
  else ⟨t.entries ++ [(spot, e)]⟩

/-- Adds the directories that lead to a place, as far as they are missing. -/
def addAncestors (t : FileTree) (spot : List Bytes) : FileTree :=
  (List.range spot.length).foldl (fun t n =>
    if (t.get? (spot.take n)).isSome then t else t.set (spot.take n) .directory) t

/-- Puts a file into the tree, or a directory if the path ends in a slash. -/
def place (t : FileTree) (path content : Bytes) : FileTree :=
  let spot := Path.cleanParts path
  let t := t.addAncestors spot
  if Bytes.endsWith [Ascii.slash] path then
    if (t.get? spot).isSome then t else t.set spot .directory
  else t.set spot (.file content)

/-- Follows the parts of a path from a place that exists. The directory above the starting one is out of
sight. -/
def follow (t : FileTree) : (spot : List Bytes) → List Bytes → Except Obstacle (List Bytes)
  | spot, [] => .ok spot
  | spot, part :: rest =>
    if t.get? spot != some .directory then .error .notADirectory
    else if part.isEmpty || part == Path.dot then follow t spot rest
    else if part == Path.dotDot then
      if spot.isEmpty then .error .missing else follow t spot.dropLast rest
    else if (t.get? (spot ++ [part])).isSome then follow t (spot ++ [part]) rest
    else .error .missing

def locate (t : FileTree) (path : Bytes) : Except Obstacle (List Bytes) :=
  if path.isEmpty || Path.isRooted path then .error .missing else t.follow [] (Path.parts path)

def lookup (t : FileTree) (path : Bytes) : Except Obstacle Entry := do
  match t.get? (← t.locate path) with
  | some e => return e
  | none => .error .missing

/-- The place a file is to be written at: its directory has to exist, and no directory may be there. -/
def target (t : FileTree) (path : Bytes) : Except Obstacle (List Bytes) := do
  if path.isEmpty || Path.isRooted path then .error .missing
  else
    let parts := Path.parts path
    let dir ← t.follow [] parts.dropLast
    let name := parts.getLast?.getD []
    if t.get? dir != some .directory then .error .notADirectory
    else if name.isEmpty || name == Path.dot || name == Path.dotDot then .error .aDirectory
    else if t.get? (dir ++ [name]) == some .directory then .error .aDirectory
    else return dir ++ [name]

def read (t : FileTree) (path : Bytes) : Except Obstacle Bytes := do
  match ← t.lookup path with
  | .file content => return content
  | .directory => .error .aDirectory

def write (t : FileTree) (path content : Bytes) : Except Obstacle FileTree := do
  return t.set (← t.target path) (.file content)

def append (t : FileTree) (path content : Bytes) : Except Obstacle FileTree := do
  let spot ← t.target path
  match t.get? spot with
  | some (.file old) => return t.set spot (.file (old ++ content))
  | _ => return t.set spot (.file content)

def makeDirectory (t : FileTree) (path : Bytes) : Except Obstacle FileTree := do
  return t.set (← t.target path) .directory

def childName? (spot path : List Bytes) : Option Bytes :=
  if path.dropLast == spot then path.getLast? else none

def list (t : FileTree) (path : Bytes) : List (Bytes × FileKind) :=
  match t.locate path with
  | .error _ => []
  | .ok spot =>
    (t.entries.filterMap fun (p, e) => (childName? spot p).map fun name => (name, e.kind)).mergeSort
      fun a b => Bytes.le a.1 b.1

/-- The files of `t` that are not in `before` with the same content. -/
def changed (before t : FileTree) : List (Bytes × Bytes) :=
  t.entries.filterMap fun (p, e) => match e with
    | .file content =>
      if before.get? p == some e then none else some (Path.ofParts false p, content)
    | .directory => none

end FileTree

structure World where
  files : FileTree := {}
  output : Bytes := []
  errors : Bytes := []
deriving DecidableEq, Repr

namespace World

/-- Makes a change to the files, unless there is an obstacle. -/
def change (f : FileTree → Except Obstacle FileTree) : StateM World (Except Obstacle Unit) := do
  match f (← get).files with
  | .ok files =>
    modify fun w => { w with files }
    return .ok ()
  | .error e => return .error e

def host : Host (StateM World) where
  status path := return ((← get).files.lookup path).map (·.kind)
  entries path := return (← get).files.list path
  read path := return (← get).files.read path
  write path content := change (·.write path content)
  append path content := change (·.append path content)
  makeDirectory path := change (·.makeDirectory path)
  print text := modify fun w => { w with output := w.output ++ text }
  complain text := modify fun w => { w with errors := w.errors ++ text }

end World

end Stencil
