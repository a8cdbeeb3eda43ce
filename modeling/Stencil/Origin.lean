import Stencil.Json.Record

/-! Where a node stands in the template it was written in. -/

namespace Stencil

/-- Lines count from one and offsets on the line from zero; an empty file name means none was given. -/
structure Origin where
  file : Bytes := []
  line : Int := 0
  offset : Int := 0
deriving DecidableEq, Repr

namespace Origin

def text (o : Origin) : Bytes :=
  let place := Bytes.ofInt o.line ++ ":" ++ Bytes.ofInt o.offset
  if o.file.isEmpty then place else o.file ++ ":" ++ place

open Json.Decoder in
def decoder : Json.Decoder Origin :=
  record "element.Origin"
    [field "file" (·.file) (fun o v => { o with file := v }) Json.Decoder.text,
     field "line" (·.line) (fun o v => { o with line := v }) integer,
     field "offset" (·.offset) (fun o v => { o with offset := v }) integer]

end Origin

end Stencil
