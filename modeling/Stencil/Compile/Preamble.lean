import Stencil.Helper
import Stencil.Origin

/-! The helpers that pages may need at run time, and the preamble that declares them. -/

namespace Stencil

/-- How the code of a helper is made from the accessors of its dependencies. -/
inductive Helper.Body where
  | classes | styles | attributes | attributesText | debugMap | debugRethrow
  | custom (code : List Bytes → Bytes)

namespace Preamble

/-- The templates of the dialect that helpers write attributes with. -/
structure Forms where
  pair : Bytes := []
  flag : Bytes := []
  escape : Bytes := []
deriving DecidableEq, Repr

def classesCode : Bytes :=
"function (...$values) \x7b
    $classes = [];
    foreach ($values as $value) \x7b
        if (is_array($value)) \x7b
            foreach ($value as $key => $item) \x7b
                if (is_string($key)) \x7b
                    if ($item) \x7b
                        $classes[] = $key;
                    \x7d
                    continue;
                \x7d
                foreach ((array) $item as $sub) \x7b
                    $classes = array_merge($classes, preg_split('/\\s+/', (string) $sub));
                \x7d
            \x7d
            continue;
        \x7d
        if ($value !== null && $value !== false) \x7b
            $classes = array_merge($classes, preg_split('/\\s+/', (string) $value));
        \x7d
    \x7d
    return implode(' ', array_values(array_unique(array_filter($classes, 'strlen'))));
\x7d"

def stylesCode : Bytes :=
"function (...$values) \x7b
    $styles = [];
    foreach ($values as $value) \x7b
        if (!is_array($value)) \x7b
            $value = [(string) $value];
        \x7d
        foreach ($value as $key => $item) \x7b
            if (is_string($key)) \x7b
                if ((string) $item !== '') \x7b
                    $styles[] = $key . ':' . $item;
                \x7d
                continue;
            \x7d
            $item = rtrim(trim((string) $item), ';');
            if ($item !== '') \x7b
                $styles[] = $item;
            \x7d
        \x7d
    \x7d
    return implode(';', $styles);
\x7d"

def attributesCode (storage classes styles : Bytes) : Bytes :=
  "function (...$sets) use (&$" ++ storage ++ ") \x7b
    $attributes = [];
    foreach ($sets as $set) \x7b
        foreach ((array) $set as $key => $value) \x7b
            if ($key === 'class') \x7b
                $value = " ++ classes ++ "(isset($attributes['class']) ? $attributes['class'] : null, $value);
            \x7d elseif ($key === 'style') \x7b
                $value = " ++ styles ++ "(isset($attributes['style']) ? $attributes['style'] : null, $value);
            \x7d
            $attributes[$key] = $value;
        \x7d
    \x7d
    return $attributes;
\x7d"

def attributesTextCode (storage : Bytes) (forms : Forms) (merge : Bytes) : Bytes :=
  "function (...$sets) use (&$" ++ storage ++ ") \x7b
    $output = '';
    foreach (" ++ merge ++ "(...$sets) as $key => $value) \x7b
        if ($value === null || $value === false || (($key === 'class' || $key === 'style') && $value === '')) \x7b
            continue;
        \x7d
        if ($value === true) \x7b
            $output .= sprintf(" ++ Quoted.encode forms.flag ++ ", $key, $key);
            continue;
        \x7d
        $output .= sprintf(" ++ Quoted.encode forms.pair ++ ", $key, "
    ++ Template.format forms.escape ["(string) $value"] ++ ");
    \x7d
    return $output;
\x7d"

def debugRow (id : Nat) (o : Origin) : Bytes :=
  "\n    " ++ Bytes.ofNat id ++ " => [" ++ Quoted.encode o.file ++ ", " ++ Bytes.ofInt o.line ++ ", "
    ++ Bytes.ofInt o.offset ++ "]"

def debugMapCode (fragments : Array Origin) : Bytes :=
  let rows := fragments.toList.mapIdx fun i o => debugRow (i + 1) o
  let close : Bytes := if rows.isEmpty then "]" else ",\n]"
  "[" ++ Bytes.join ", " rows ++ close

def debugRethrowCode (storage map : Bytes) : Bytes :=
  "function ($error, $id) use (&$" ++ storage ++ ") \x7b
    $map = " ++ map ++ ";
    if (!isset($map[$id])) \x7b
        throw $error;
    \x7d
    list($file, $line, $offset) = $map[$id];
    throw new \\ErrorException(
        $error->getMessage() . ' (' . $file . ':' . $line . ':' . $offset . ')',
        (int) $error->getCode(),
        E_ERROR,
        $file,
        $line,
        $error
    );
\x7d"

def code (storage : Bytes) (forms : Forms) (fragments : Array Origin) (dependencies : List Bytes) :
    Helper.Body → Bytes
  | .classes => classesCode
  | .styles => stylesCode
  | .attributes => attributesCode storage (dependencies.getD 0 []) (dependencies.getD 1 [])
  | .attributesText => attributesTextCode storage forms (dependencies.getD 0 [])
  | .debugMap => debugMapCode fragments
  | .debugRethrow => debugRethrowCode storage (dependencies.getD 0 [])
  | .custom code => code dependencies

def builtin : Dictionary (Helper.Declaration Helper.Body) :=
  [("merge_classes", ⟨.classes, []⟩),
   ("merge_styles", ⟨.styles, []⟩),
   ("merge_attributes", ⟨.attributes, ["merge_classes", "merge_styles"]⟩),
   ("attributes_assignment", ⟨.attributesText, ["merge_attributes"]⟩),
   ("debug_map", ⟨.debugMap, []⟩),
   ("debug_rethrow", ⟨.debugRethrow, ["debug_map"]⟩)]

def declaration (storage : Storage) (forms : Forms) (fragments : Array Origin)
    (h : Bytes × Helper.Declaration Helper.Body) : Bytes :=
  storage.accessor h.1 ++ " = "
    ++ code storage.name forms fragments (h.2.dependencies.map storage.accessor) h.2.body ++ ";\n"

/-- The code that declares helpers, or nothing if there are none. A storage with its own getter is expected
to exist already. -/
def write (storage : Storage) (forms : Forms) (fragments : Array Origin)
    (helpers : Helper.Registry.Emitted Helper.Body) : Bytes :=
  if helpers.isEmpty then []
  else
    let init : Bytes := if storage.getter.isSome then [] else "$" ++ storage.name ++ " = [];\n"
    "<?php\n" ++ init ++ helpers.flatMap (declaration storage forms fragments) ++ "?>\n"

end Preamble

end Stencil
