import Stencil.Bytes

/-! What the program asks of the system it runs on. The program is written against these operations, so that
it runs on files in memory as well as on a disk. -/

namespace Stencil

inductive Obstacle where
  | missing
  | notADirectory
  | aDirectory
  | other (description : Bytes)
deriving DecidableEq, Repr

def Obstacle.message : Obstacle → Bytes
  | .missing => "no such file or directory"
  | .notADirectory => "not a directory"
  | .aDirectory => "is a directory"
  | .other description => description

inductive FileKind where
  | file | directory
deriving DecidableEq, Repr

structure Host (m : Type → Type) where
  status : Bytes → m (Except Obstacle FileKind)
  /-- The entries of a directory, sorted by name. -/
  entries : Bytes → m (List (Bytes × FileKind))
  read : Bytes → m (Except Obstacle Bytes)
  /-- Sets the content of a file, which need not exist. -/
  write : (path content : Bytes) → m (Except Obstacle Unit)
  /-- Adds to the end of a file, which need not exist. -/
  append : (path content : Bytes) → m (Except Obstacle Unit)
  makeDirectory : Bytes → m (Except Obstacle Unit)
  print : Bytes → m Unit
  /-- Prints to the error output. -/
  complain : Bytes → m Unit

end Stencil
