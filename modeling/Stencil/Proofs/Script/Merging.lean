import Stencil.Compile.Preamble
import Stencil.Proofs.Script.Language

/-! The helpers that merge classes, styles and attribute sets at run time, read from the text the preamble writes. -/

namespace Stencil

theorem Bytes.ofString_ofList (cs : List Char) :
    Bytes.ofString (String.ofList cs) = cs.flatMap String.utf8EncodeChar := by
  simp [Bytes.ofString, String.ofList, List.utf8Encode]

namespace Script

open Stencil.Script.Expr Stencil.Script.Stmt

def addWords (x : Bytes) : Stmt := assign "classes" (merge (var "classes") (split (toText (var x))))

def addClassEntry : Stmt :=
  .seq (when (isString (var "key")) <|
    .seq (when (var "item") (push "classes" (var "key"))) skip) <|
  foreach (toArray (var "item")) none "sub" (addWords "sub")

def addClasses : Stmt :=
  .seq (when (isArray (var "value")) <|
    .seq (foreach (var "value") (some "key") "item" addClassEntry) skip) <|
  when (and (differs (var "value") .null) (differs (var "value") .no)) (addWords "value")

def mergeClasses : Function where
  rest := "values"
  body :=
    .seq (assign "classes" emptyArray) <|
    .seq (foreach (var "values") none "value" addClasses) <|
    give (implode " " (renumber (unique (nonEmpty (var "classes")))))

def addStyleEntry : Stmt :=
  .seq (when (isString (var "key")) <|
    .seq (when (differs (toText (var "item")) (.text []))
      (push "styles" (concat (concat (var "key") (constant (.text ":"))) (var "item")))) skip) <|
  .seq (assign "item" (trimRight (trim (toText (var "item"))) ";")) <|
  when (differs (var "item") (.text [])) (push "styles" (var "item"))

def addStyles : Stmt :=
  .seq (when (not (isArray (var "value"))) (assign "value" (single (toText (var "value"))))) <|
  foreach (var "value") (some "key") "item" addStyleEntry

def mergeStyles : Function where
  rest := "values"
  body :=
    .seq (assign "styles" emptyArray) <|
    .seq (foreach (var "values") none "value" addStyles) <|
    give (implode ";" (var "styles"))

/-- What `key` has become so far, with the value that comes now. -/
def extend (callee key : Bytes) : Stmt :=
  assign "value" (invoke callee (choose (isSet "attributes" key) (item "attributes" key) (constant .null)) (var "value"))

def addAttribute (classes styles : Bytes) : Stmt :=
  .seq (either (same (var "key") (.text "class")) (extend classes "class")
    (same (var "key") (.text "style")) (extend styles "style")) <|
  put "attributes" "key" (var "value")

def mergeAttributes (storage classes styles : Bytes) : Function where
  rest := "sets"
  shared := some storage
  body :=
    .seq (assign "attributes" emptyArray) <|
    .seq (foreach (var "sets") none "set" <|
      foreach (toArray (var "set")) (some "key") "value" (addAttribute classes styles)) <|
    give (var "attributes")

section Code

set_option maxRecDepth 20000

theorem code_mergeClasses : mergeClasses.code = Preamble.classesCode := by
  refine Eq.trans ?_ (Bytes.ofString_ofList _).symm
  rfl

theorem code_mergeStyles : mergeStyles.code = Preamble.stylesCode := by
  refine Eq.trans ?_ (Bytes.ofString_ofList _).symm
  rfl

theorem code_mergeAttributes (storage classes styles : Bytes) :
    (mergeAttributes storage classes styles).code = Preamble.attributesCode storage classes styles := by
  simp only [Function.code, mergeAttributes, addAttribute, Stmt.code, extend, Expr.code, Constant.code, Preamble.attributesCode,
    List.append_assoc]
  rfl

/-- The preamble declares the function under the name of a built-in helper. -/
def Declares (storage : Storage) (name : Bytes) (fn : Function) : Prop :=
  ∃ d, Preamble.builtin.get? name = some d ∧ ∀ forms fragments,
    Preamble.declaration storage forms fragments (name, d) = storage.accessor name ++ " = " ++ fn.code ++ ";\n"

theorem declares_mergeClasses (storage : Storage) : Declares storage "merge_classes" mergeClasses :=
  ⟨⟨.classes, []⟩, by rfl, fun _ _ => by rw [code_mergeClasses]; rfl⟩

theorem declares_mergeStyles (storage : Storage) : Declares storage "merge_styles" mergeStyles :=
  ⟨⟨.styles, []⟩, by rfl, fun _ _ => by rw [code_mergeStyles]; rfl⟩

theorem declares_mergeAttributes (storage : Storage) :
    Declares storage "merge_attributes" (mergeAttributes storage.name (storage.accessor "merge_classes")
      (storage.accessor "merge_styles")) :=
  ⟨⟨.attributes, ["merge_classes", "merge_styles"]⟩, by rfl, fun _ _ => by rw [code_mergeAttributes]; rfl⟩

end Code

end Script

end Stencil
