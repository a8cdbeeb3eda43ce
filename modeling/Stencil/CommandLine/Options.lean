import Stencil.Ascii
import Stencil.Compile.Settings

/-! The options of a command. A flag starts with dashes and may have its value after an equals sign or in
the next argument; anything else is a path. -/

namespace Stencil

structure Options where
  format : Bytes := []
  pretty : Bool := false
  indent : Bytes := []
  debug : Bool := false
  map : Bool := false
  stdout : Bool := false
  storage : Bytes := []
  log : Bytes := []
  verbose : Bool := false
  paths : List Bytes := []
deriving DecidableEq, Repr

namespace Options

inductive Error where
  | unknownFlag (arg : Bytes)
  | missingValue (name : Bytes)
deriving DecidableEq, Repr

def Error.message : Error → Bytes
  | .unknownFlag arg => "unknown flag: " ++ arg
  | .missingValue name => "flag -" ++ name ++ " requires a value"

def isFlag (arg : Bytes) : Bool := arg.head? == some Ascii.minus && arg != [Ascii.minus]

def cut (arg : Bytes) : Bytes × Option Bytes :=
  let s := arg.dropWhile (· == Ascii.minus)
  match s.dropWhile (· != Ascii.equals) with
  | [] => (s, none)
  | _ :: value => (s.takeWhile (· != Ascii.equals), some value)

/-- What a flag with a value sets. -/
def valued? (name : Bytes) : Option (Options → Bytes → Options) :=
  if name == "format" then some fun o v => { o with format := v }
  else if name == "indent" then some fun o v => { o with indent := v }
  else if name == "storage" then some fun o v => { o with storage := v }
  else if name == "log" then some fun o v => { o with log := v }
  else none

/-- What a flag without value switches on; a value is ignored. -/
def switch? (name : Bytes) : Option (Options → Options) :=
  if name == "pretty" then some fun o => { o with pretty := true }
  else if name == "debug" then some fun o => { o with debug := true }
  else if name == "map" then some fun o => { o with map := true }
  else if name == "stdout" then some fun o => { o with stdout := true }
  else if name == "v" || name == "verbose" then some fun o => { o with verbose := true }
  else none

def parseFrom (o : Options) : List Bytes → Except Error Options
  | [] => .ok o
  | arg :: rest =>
    if !isFlag arg then parseFrom { o with paths := o.paths ++ [arg] } rest
    else
      let (name, value) := cut arg
      match valued? name with
      | some set =>
        match value, rest with
        | some v, rest => parseFrom (set o v) rest
        | none, v :: rest => parseFrom (set o v) rest
        | none, [] => .error (.missingValue name)
      | none =>
        match switch? name with
        | some set => parseFrom (set o) rest
        | none => .error (.unknownFlag arg)

/-- The options of a command; without paths, the current directory is meant. -/
def parse (args : List Bytes) : Except Error Options := do
  let o ← parseFrom {} args
  return if o.paths.isEmpty then { o with paths := ["."] } else o

def settings (o : Options) (source : Bytes) : List Setting :=
  let indent : List Setting := if o.indent.isEmpty then [] else [.indent o.indent]
  let storage : List Setting := if o.storage.isEmpty then [] else [.storage o.storage]
  [.pretty o.pretty, .debug o.debug, .sourceFile source] ++ indent ++ storage

end Options

end Stencil
