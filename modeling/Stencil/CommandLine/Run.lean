import Stencil.CommandLine.Host
import Stencil.CommandLine.Options
import Stencil.CommandLine.Path
import Stencil.Compile.Session
import Stencil.Wire.Build

/-! The program: it finds trees, compiles each in a session of its own, writes the pages and reports what
went wrong. -/

namespace Stencil.Run

def version : Bytes := "0.1.0"

def usage : Bytes :=
"pugfmt - compile pug element trees to PHP templates

Usage:
  pugfmt <command> [options] [path...]

Commands:
  format      Compile .json element trees to .php templates
  check       Compile without writing output
  version     Print version information
  help        Show this help message

Options:
  -format <alias>   Output format (html, xhtml, xml, basic, 5, transitional, ...)
  -pretty           Indent block tags
  -indent <string>  Indentation unit used with -pretty (default two spaces)
  -debug            Wrap templates with source-mapped error reporting
  -map              Also write a .php.map source map next to each template
  -stdout           Print templates to stdout instead of writing files
  -storage <name>   PHP variable holding the runtime helpers (default pugModule)
  -log <path>       Append debug logs to path
  -v                Verbose output

Examples:
  pugfmt format ./...                 Recursively compile all .json trees
  pugfmt format -pretty views         Compile a directory with indentation
  pugfmt format -format xml feed.json Force the XML format
  pugfmt check -debug ./...           Validate every tree

Set PUGFMT_DEBUG to a file path to enable debug logging.
"

structure Refusal where
  operation : Bytes
  path : Bytes
  obstacle : Obstacle
deriving DecidableEq, Repr

def Refusal.message (r : Refusal) : Bytes := r.operation ++ " " ++ r.path ++ ": " ++ r.obstacle.message

inductive Trouble where
  | options (e : Options.Error)
  | logDirectory (r : Refusal)
  | logFile (r : Refusal)
  | status (path : Bytes) (r : Refusal)
  | walking (root : Bytes) (r : Refusal)
  | noFiles
  | writing (path : Bytes) (r : Refusal)
  | files (count : Nat)
deriving DecidableEq, Repr

def Trouble.message : Trouble → Bytes
  | .options e => e.message
  | .logDirectory r => "failed to create log directory: " ++ r.message
  | .logFile r => "failed to open debug log: " ++ r.message
  | .status path r => "stat " ++ path ++ ": " ++ r.message
  | .walking root r => "walking " ++ root ++ ": " ++ r.message
  | .noFiles => "no .json files found"
  | .writing path r => "writing " ++ path ++ ": " ++ r.message
  | .files count => Bytes.ofNat count ++ " file(s) had errors"

inductive FileTrouble where
  | reading (r : Refusal)
  | decoding (e : Wire.PlantError)
  | settings (e : Setting.Error)
  | compiling (f : Failure)

def FileTrouble.message : FileTrouble → Bytes
  | .reading r => "reading file: " ++ r.message
  | .decoding e => "decoding tree: " ++ e.message
  | .settings e => e.message
  | .compiling f => f.message

/-- The message says where in the template the trouble is. -/
def FileTrouble.isReport : FileTrouble → Bool
  | .compiling f => f.isReport
  | _ => false

structure Compiled where
  text : Bytes
  map : Bytes

structure Result where
  input : Bytes
  output : Bytes
  outcome : Except FileTrouble Compiled

/-- Compiles a tree, with everything that is logged meanwhile. -/
def compile (o : Options) (path data : Bytes) : Array Bytes × Except FileTrouble Compiled :=
  match Wire.plantText .empty data with
  | .error e => (#[], .error (.decoding e))
  | .ok (forest, root) =>
    match Settings.ofList (o.settings (Path.sourceOf path)) with
    | .error e => (#[], .error (.settings e))
    | .ok settings =>
      let selector := if o.format.isEmpty then .auto else .named o.format
      match Session.format { settings } forest (some root) selector with
      | (s, _, .error f) => (s.ledger.log, .error (.compiling f))
      | (s, _, .ok body) =>
        match s.preamble with
        | (s, .error f) => (s.ledger.log, .error (.compiling f))
        | (s, .ok preamble) =>
          let map := (s.sourceMap.getD {}).shift (preamble.count Ascii.newline)
          (s.ledger.log, .ok ⟨preamble ++ body ++ [Ascii.newline], map.write⟩)

variable {m : Type → Type} [Monad m]

abbrev LogFile := Option Bytes

def log (host : Host m) (file : LogFile) (lines : List Bytes) : m Unit :=
  match file with
  | none => return ()
  | some path => do
    let _ ← host.append path (lines.flatMap (· ++ [Ascii.newline]))

/-- Makes the directories of a path one after the other, as far as they are missing. -/
def makePath (host : Host m) : List Bytes → m (Except Refusal Unit)
  | [] => return .ok ()
  | dir :: more => do
    match ← host.status dir with
    | .ok .directory => makePath host more
    | .ok .file => return .error ⟨"mkdir", dir, .notADirectory⟩
    | .error _ =>
      match ← host.makeDirectory dir with
      | .ok () => makePath host more
      | .error e => return .error ⟨"mkdir", dir, e⟩

/-- Makes sure that a log file can be written. -/
def openLog (host : Host m) (path : Bytes) : m (Except Trouble Unit) := do
  let dir := Path.directory path
  match ← makePath host (if dir == Path.dot then [] else Path.ancestry dir) with
  | .error r => return .error (.logDirectory r)
  | .ok () =>
    match ← host.append path [] with
    | .ok () => return .ok ()
    | .error e => return .error (.logFile ⟨"open", path, e⟩)

/-- No path a system accepts has more parts. -/
def maxDepth : Nat := 4096

/-- The trees at a path and below it, in the order of their names. -/
def walk (host : Host m) : (depth : Nat) → Bytes × FileKind → m (List Bytes)
  | 0, _ => return []
  | _ + 1, (path, .file) => return if Path.isTreeFile path then [path] else []
  | depth + 1, (path, .directory) => do
    let below ← (← host.entries path).mapM fun (name, kind) =>
      walk host depth (Path.join path name, kind)
    return below.flatten

/-- The trees a path stands for: those of a directory, those below it if the path ends in dots, or the
file itself. -/
def collectPath (host : Host m) (path : Bytes) : m (Except Trouble (List Bytes)) := do
  if Bytes.endsWith "/..." path then
    let root := Bytes.dropTail "/..." path
    let root := if root.isEmpty then Path.dot else root
    match ← host.status root with
    | .error e => return .error (.walking root ⟨"lstat", root, e⟩)
    | .ok kind => return .ok (← walk host maxDepth (root, kind))
  else
    match ← host.status path with
    | .error e => return .error (.status path ⟨"stat", path, e⟩)
    | .ok .file => return .ok (if Path.isTreeFile path then [path] else [])
    | .ok .directory =>
      let entries ← host.entries path
      return .ok ((entries.filter fun (name, kind) => kind == .file && Path.isTreeFile name).map
        fun (name, _) => Path.join path name)

def collect (host : Host m) : List Bytes → m (Except Trouble (List Bytes))
  | [] => return .ok []
  | path :: more => do
    match ← collectPath host path with
    | .error e => return .error e
    | .ok files => return (← collect host more).map (files ++ ·)

def compileFile (host : Host m) (o : Options) (file : LogFile) (path : Bytes) : m Result := do
  log host file [Topic.commandLine.tag ++ "compiling " ++ path]
  let output := Path.outputOf path
  match ← host.read path with
  | .error e => return ⟨path, output, .error (.reading ⟨"open", path, e⟩)⟩
  | .ok data =>
    let (lines, outcome) := compile o path data
    log host file lines.toList
    return ⟨path, output, outcome⟩

def writePage (host : Host m) (o : Options) (output : Bytes) (page : Compiled) : m (Except Trouble Unit) := do
  match ← host.write output page.text with
  | .error e => return .error (.writing output ⟨"open", output, e⟩)
  | .ok () =>
    if o.map then
      let mapPath := SourceMap.fileName output
      match ← host.write mapPath page.map with
      | .error e => return .error (.writing mapPath ⟨"open", mapPath, e⟩)
      | .ok () => return .ok ()
    else return .ok ()

def writeResult (host : Host m) (o : Options) (file : LogFile) (r : Result) : m (Except Trouble Unit) := do
  match r.outcome with
  | .error _ => return .ok ()
  | .ok page =>
    match ← writePage host o r.output page with
    | .error e => return .error e
    | .ok () =>
      log host file [Topic.commandLine.tag ++ "wrote " ++ r.output]
      return .ok ()

/-- Compiles the files in order. One that cannot be written does not keep the others from being written,
but the run ends with the first such trouble. -/
def compileAll (host : Host m) (o : Options) (check : Bool) (file : LogFile) :
    List Bytes → m (Except Trouble (List Result))
  | [] => return .ok []
  | path :: more => do
    let r ← compileFile host o file path
    let written ← if check || o.stdout then pure (.ok ()) else writeResult host o file r
    let rest ← compileAll host o check file more
    match written with
    | .error e => return .error e
    | .ok () => return rest.map (r :: ·)

def reportFile (host : Host m) (o : Options) (check : Bool) (r : Result) : m Unit :=
  match r.outcome with
  | .error e =>
    let lead : Bytes := if e.isReport then [] else "error: "
    host.complain (lead ++ r.input ++ ": " ++ e.message ++ "\n")
  | .ok page =>
    if o.stdout && !check then host.print page.text
    else if o.verbose && check then host.print ("ok " ++ r.input ++ "\n")
    else if o.verbose then host.print (r.input ++ " -> " ++ r.output ++ "\n")
    else return ()

def isFailed (r : Result) : Bool :=
  match r.outcome with
  | .error _ => true
  | .ok _ => false

def report (host : Host m) (o : Options) (check : Bool) (results : List Result) : m (Except Trouble Unit) := do
  results.forM (reportFile host o check)
  let failed := results.countP isFailed
  return if failed == 0 then .ok () else .error (.files failed)

def compilePaths (host : Host m) (o : Options) (check : Bool) (file : LogFile) : m (Except Trouble Unit) := do
  match ← collect host o.paths with
  | .error e => return .error e
  | .ok [] => return .error .noFiles
  | .ok files =>
    if o.verbose then host.print ("Found " ++ Bytes.ofNat files.length ++ " .json file(s)\n")
    match ← compileAll host o check file files with
    | .error e => return .error e
    | .ok results => report host o check results

def format (host : Host m) (check : Bool) (file : LogFile) (args : List Bytes) : m (Except Trouble Unit) := do
  match Options.parse args with
  | .error e => return .error (.options e)
  | .ok o =>
    if o.log.isEmpty then compilePaths host o check file
    else
      match ← openLog host o.log with
      | .error e => return .error e
      | .ok () => compilePaths host o check (some o.log)

def exitCode (host : Host m) : Except Trouble Unit → m UInt32
  | .ok () => return 0
  | .error e => do
    host.complain ("error: " ++ e.message ++ "\n")
    return 1

/-- The log the environment asks for, if it can be written. -/
def environmentLog (host : Host m) (path : Bytes) : m LogFile :=
  if path.isEmpty then return none
  else do
    match ← openLog host path with
    | .ok () => return some path
    | .error e =>
      host.complain ("warning: " ++ e.message ++ "\n")
      return none

def program (host : Host m) (debugLog : Bytes) : List Bytes → m UInt32
  | [] => do
    host.print usage
    return 1
  | command :: args => do
    let file ← environmentLog host debugLog
    if command == "format" then exitCode host (← format host false file args)
    else if command == "check" then exitCode host (← format host true file args)
    else if command == "version" then
      host.print ("pugfmt version " ++ version ++ "\n")
      return 0
    else if command == "help" || command == "-h" || command == "--help" then
      host.print usage
      return 0
    else
      host.complain ("unknown command: " ++ command ++ "\n\n")
      host.print usage
      return 1

end Stencil.Run
