import Stencil.Json.Printer
import Stencil.Json.Reader
import Stencil.Origin

/-! Source maps: where in the output each node's text starts. Output lines and columns count from zero,
columns in bytes. -/

namespace Stencil

structure Mapping where
  id : Int := 0
  outputLine : Int := 0
  outputColumn : Int := 0
  file : Bytes := []
  line : Int := 0
  offset : Int := 0
deriving DecidableEq, Repr

def Mapping.origin (m : Mapping) : Origin := ⟨m.file, m.line, m.offset⟩

structure SourceMap where
  file : Bytes := []
  /-- A map read from a text may have no list of mappings. -/
  list : Option (List Mapping) := none
deriving DecidableEq, Repr

namespace SourceMap

def empty (file : Bytes) : SourceMap := ⟨file, some []⟩

def mappings (m : SourceMap) : List Mapping := m.list.getD []

def add (m : SourceMap) (entry : Mapping) : SourceMap := { m with list := some (m.mappings ++ [entry]) }

def lookup? (m : SourceMap) (id : Int) : Option Origin := (m.mappings.find? (·.id = id)).map (·.origin)

/-- A message about a fragment with its origin in front, if the fragment is known. -/
def locate? (m : SourceMap) (id : Int) (message : Bytes) : Option Bytes :=
  (m.lookup? id).map fun o => o.text ++ ": error: " ++ message

def atOrBefore (line₁ column₁ line₂ column₂ : Int) : Bool :=
  line₁ < line₂ || (line₁ == line₂ && column₁ ≤ column₂)

def later (best : Option Mapping) (m : Mapping) : Option Mapping :=
  match best with
  | none => some m
  | some b =>
    if atOrBefore b.outputLine b.outputColumn m.outputLine m.outputColumn then some m else some b

/-- The origin of the last node that starts at or before an output position. -/
def sourceOf? (m : SourceMap) (line column : Int) : Option Origin :=
  let before := m.mappings.filter fun e => atOrBefore e.outputLine e.outputColumn line column
  (before.foldl later none).map (·.origin)

def shift (m : SourceMap) (count : Nat) : SourceMap :=
  { m with list := m.list.map (·.map fun e => { e with outputLine := e.outputLine + count }) }

def number (n : Int) : Json := .number (Bytes.ofInt n)

def mappingJson (m : Mapping) : Json :=
  let position : List (Bytes × Json) :=
    [("id", number m.id), ("outputLine", number m.outputLine), ("outputCol", number m.outputColumn)]
  let file : List (Bytes × Json) := if m.file.isEmpty then [] else [("file", .string m.file)]
  let place : List (Bytes × Json) := [("line", number m.line), ("offset", number m.offset)]
  .object (position ++ file ++ place)

def toJson (m : SourceMap) : Json :=
  .object [("sourceFile", .string m.file),
    ("mappings", match m.list with
      | some entries => .array (entries.map mappingJson)
      | none => .null)]

def write (m : SourceMap) : Bytes := m.toJson.pretty

open Json.Decoder (field integer record)

def mappingDecoder : Json.Decoder Mapping :=
  record "formatter.SourceMapping"
    [field "id" (·.id) (fun m v => { m with id := v }) integer,
     field "outputLine" (·.outputLine) (fun m v => { m with outputLine := v }) integer,
     field "outputCol" (·.outputColumn) (fun m v => { m with outputColumn := v }) integer,
     field "file" (·.file) (fun m v => { m with file := v }) Json.Decoder.text,
     field "line" (·.line) (fun m v => { m with line := v }) integer,
     field "offset" (·.offset) (fun m v => { m with offset := v }) integer]

/-- The list of mappings; null is no list, which is not the same as an empty one. -/
def listDecoder : Json.Decoder (Option (Json.Draft Mapping)) :=
  Json.Decoder.optional {} (Json.Decoder.list "[]formatter.SourceMapping" {} mappingDecoder)

structure Draft where
  file : Bytes := []
  list : Option (Json.Draft Mapping) := none

def decoder : Json.Decoder Draft :=
  record "formatter.SourceMap"
    [field "sourceFile" (·.file) (fun m v => { m with file := v }) Json.Decoder.text,
     field "mappings" (·.list) (fun m v => { m with list := v }) listDecoder]

inductive Error where
  | text (e : Json.Error)
  | type (m : Json.Mismatch)

def parse (text : Bytes) : Except Error SourceMap := do
  let j ← (Json.parse text).mapError .text
  let draft ← (decoder.run "SourceMap" {} j).mapError .type
  return ⟨draft.file, draft.list.map (·.items)⟩

def fileName (output : Bytes) : Bytes := output ++ ".map"

end SourceMap

end Stencil
