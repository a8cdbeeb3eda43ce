import Stencil.CommandLine.Run

/-! The program on a disk. -/

namespace Stencil.Disk

def name (path : Bytes) : String := path.toString?.getD ""

/-- Error number 21 tells a directory where a file was expected from the other way round. -/
def obstacle : IO.Error → Obstacle
  | .noFileOrDirectory .. => .missing
  | .inappropriateType _ number _ => if number == 21 then .aDirectory else .notADirectory
  | e => .other (toString e)

def attempt {α : Type} (action : IO α) : IO (Except Obstacle α) := do
  try return .ok (← action)
  catch e => return .error (obstacle e)

def kind (type : IO.FS.FileType) : FileKind := if type == .dir then .directory else .file

def host : Host IO where
  status path := attempt do
    return kind (← ((← IO.currentDir) / name path).metadata).type
  entries path := do
    let found ← attempt do
      (← ((← IO.currentDir) / name path).readDir).mapM fun entry => do
        return (Bytes.ofString entry.fileName, kind (← entry.path.metadata).type)
    return match found with
      | .ok list => list.toList.mergeSort fun a b => Bytes.le a.1 b.1
      | .error _ => []
  read path := attempt do return (← IO.FS.readBinFile (name path)).data.toList
  write path content := attempt (IO.FS.writeBinFile (name path) ⟨content.toArray⟩)
  append path content := attempt do
    (← IO.FS.Handle.mk (name path) .append).write ⟨content.toArray⟩
  makeDirectory path := attempt (IO.FS.createDir (name path))
  print text := do (← IO.getStdout).write ⟨text.toArray⟩
  complain text := do (← IO.getStderr).write ⟨text.toArray⟩

end Stencil.Disk

def main (args : List String) : IO UInt32 := do
  let debugLog := (← IO.getEnv "PUGFMT_DEBUG").getD ""
  Stencil.Run.program Stencil.Disk.host (Stencil.Bytes.ofString debugLog) (args.map Stencil.Bytes.ofString)
