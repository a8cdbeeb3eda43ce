import Stencil.Ascii
import Stencil.Quoted
import Stencil.Value.Table

/-! The part of the embedded language that helpers are written in: its syntax, its text and what its functions return.
Arrays are ordered, a loop goes over the array as it was at its start, and a variable that is not set is null. A call
that the language answers with an error has no result. -/

namespace Stencil.Script

/-- What values are compared with. -/
inductive Constant where
  | null
  | no
  | text (s : Bytes)

inductive Expr where
  | var (x : Bytes)
  | constant (c : Constant)
  | emptyArray
  | single (e : Expr)
  | isArray (e : Expr)
  | isString (e : Expr)
  | isSet (x key : Bytes)
  | item (x key : Bytes)
  | not (e : Expr)
  | and (a b : Expr)
  | same (e : Expr) (c : Constant)
  | differs (e : Expr) (c : Constant)
  | choose (condition a b : Expr)
  | toText (e : Expr)
  | toArray (e : Expr)
  | concat (a b : Expr)
  | merge (a b : Expr)
  | split (e : Expr)
  | nonEmpty (e : Expr)
  | unique (e : Expr)
  | renumber (e : Expr)
  | implode (separator : Bytes) (e : Expr)
  | trim (e : Expr)
  | trimRight (e : Expr) (characters : Bytes)
  | invoke (callee : Bytes) (a b : Expr)

inductive Stmt where
  | assign (x : Bytes) (e : Expr)
  | push (x : Bytes) (e : Expr)
  | put (x key : Bytes) (e : Expr)
  | foreach (source : Expr) (key : Option Bytes) (item : Bytes) (body : Stmt)
  | when (condition : Expr) (body : Stmt)
  | either (condition₁ : Expr) (body₁ : Stmt) (condition₂ : Expr) (body₂ : Stmt)
  | skip
  | give (e : Expr)
  | seq (first second : Stmt)

/-- A function that takes any number of arguments, and the variable it shares with its surroundings. -/
structure Function where
  rest : Bytes
  shared : Option Bytes := none
  body : Stmt

def Constant.code : Constant → Bytes
  | null => "null"
  | no => "false"
  | text s => Quoted.encode s

def Expr.code : Expr → Bytes
  | var x => "$" ++ x
  | constant c => c.code
  | emptyArray => "[]"
  | single e => "[" ++ e.code ++ "]"
  | isArray e => "is_array(" ++ e.code ++ ")"
  | isString e => "is_string(" ++ e.code ++ ")"
  | isSet x key => "isset($" ++ x ++ "[" ++ Quoted.encode key ++ "])"
  | item x key => "$" ++ x ++ "[" ++ Quoted.encode key ++ "]"
  | not e => "!" ++ e.code
  | and a b => a.code ++ " && " ++ b.code
  | same e c => e.code ++ " === " ++ c.code
  | differs e c => e.code ++ " !== " ++ c.code
  | choose condition a b => condition.code ++ " ? " ++ a.code ++ " : " ++ b.code
  | toText e => "(string) " ++ e.code
  | toArray e => "(array) " ++ e.code
  | concat a b => a.code ++ " . " ++ b.code
  | merge a b => "array_merge(" ++ a.code ++ ", " ++ b.code ++ ")"
  | split e => "preg_split('/\\s+/', " ++ e.code ++ ")"
  | nonEmpty e => "array_filter(" ++ e.code ++ ", 'strlen')"
  | unique e => "array_unique(" ++ e.code ++ ")"
  | renumber e => "array_values(" ++ e.code ++ ")"
  | implode separator e => "implode(" ++ Quoted.encode separator ++ ", " ++ e.code ++ ")"
  | trim e => "trim(" ++ e.code ++ ")"
  | trimRight e characters => "rtrim(" ++ e.code ++ ", " ++ Quoted.encode characters ++ ")"
  | invoke callee a b => callee ++ "(" ++ a.code ++ ", " ++ b.code ++ ")"

def indent (depth : Nat) : Bytes := List.replicate (4 * depth) Ascii.space

def Stmt.code (depth : Nat) : Stmt → Bytes
  | assign x e => indent depth ++ "$" ++ x ++ " = " ++ e.code ++ ";\n"
  | push x e => indent depth ++ "$" ++ x ++ "[] = " ++ e.code ++ ";\n"
  | put x key e => indent depth ++ "$" ++ x ++ "[$" ++ key ++ "] = " ++ e.code ++ ";\n"
  | foreach source key item body =>
    let pair : Bytes := match key with
      | some key => "$" ++ key ++ " => $" ++ item
      | none => "$" ++ item
    indent depth ++ "foreach (" ++ source.code ++ " as " ++ pair ++ ") \x7b\n" ++ body.code (depth + 1)
      ++ indent depth ++ "\x7d\n"
  | when condition body =>
    indent depth ++ "if (" ++ condition.code ++ ") \x7b\n" ++ body.code (depth + 1) ++ indent depth ++ "\x7d\n"
  | either condition₁ body₁ condition₂ body₂ =>
    indent depth ++ "if (" ++ condition₁.code ++ ") \x7b\n" ++ body₁.code (depth + 1) ++ indent depth
      ++ "\x7d elseif (" ++ condition₂.code ++ ") \x7b\n" ++ body₂.code (depth + 1) ++ indent depth ++ "\x7d\n"
  | skip => indent depth ++ "continue;\n"
  | give e => indent depth ++ "return " ++ e.code ++ ";\n"
  | seq first second => first.code depth ++ second.code depth

def Function.code (fn : Function) : Bytes :=
  let shared : Bytes := match fn.shared with
    | some x => " use (&$" ++ x ++ ")"
    | none => []
  "function (...$" ++ fn.rest ++ ")" ++ shared ++ " \x7b\n" ++ fn.body.code 1 ++ "\x7d"

/-- An array gets a new entry under the number after its largest. -/
def pushEntry (es : List (Key × Value)) (v : Value) : List (Key × Value) :=
  es ++ [(.int (es.foldl (fun n e => Table.bump n e.1) 0), v)]

def ofList (vs : List Value) : List (Key × Value) := vs.foldl pushEntry []

def entries? : Value → Option (List (Key × Value))
  | .array es => some es
  | _ => none

/-- The entries of a value taken as an array. -/
def asArray : Value → List (Key × Value)
  | .null => []
  | .array es => es
  | v => ofList [v]

/-- Entries with a number get a new one, and names keep their first place. -/
def mergeEntries (a b : List (Key × Value)) : List (Key × Value) :=
  (a ++ b).foldl (fun es e => match e.1 with
    | .int _ => pushEntry es e.2
    | .name s => setEntry (.name s) e.2 es) []

/-- The pieces between runs of white space; `gap` says that the run before `piece` may go on. -/
def splitFrom : (piece : Bytes) → (gap : Bool) → Bytes → List Bytes
  | piece, _, [] => [piece]
  | piece, gap, c :: s =>
    if Ascii.isSpace c then
      if gap then splitFrom piece true s else piece :: splitFrom [] true s
    else splitFrom (piece ++ [c]) false s

def splitSpace (s : Bytes) : List Bytes := splitFrom [] false s

def isTrimmed (c : UInt8) : Bool := [0x20, 0x0a, 0x0d, 0x09, 0x0b, 0x00].contains c

def trimText (s : Bytes) : Bytes := Bytes.dropWhileRight isTrimmed (s.dropWhile isTrimmed)

def lookup? (es : List (Key × Value)) (key : Key) : Option Value := (es.find? (·.1 = key)).map (·.2)

def identical : Value → Constant → Bool
  | .null, .null => true
  | .bool b, .no => !b
  | .string s, .text t => s == t
  | _, _ => false

abbrev Env := Bytes → Value

def Env.set (env : Env) (x : Bytes) (v : Value) : Env := fun y => if y = x then v else env y

/-- The variables at the start of a round of a loop. -/
def Env.enter (env : Env) (key : Option Bytes) (item : Bytes) (e : Key × Value) : Env :=
  match key with
  | some key => (env.set key e.1.toValue).set item e.2
  | none => env.set item e.2

/-- How the functions held in variables answer. -/
abbrev Callees := Bytes → List Value → Option Value

def Constant.value : Constant → Value
  | null => .null
  | no => .bool false
  | text s => .string s

def Expr.eval (callees : Callees) (env : Env) : Expr → Option Value
  | var x => some (env x)
  | constant c => some c.value
  | emptyArray => some (.array [])
  | single e => do return .array (ofList [← e.eval callees env])
  | isArray e => do return .bool (← e.eval callees env).isArray
  | isString e => do
    match ← e.eval callees env with
    | .string _ => return .bool true
    | _ => return .bool false
  | isSet x key => do
    match lookup? (← entries? (env x)) (.ofText key) with
    | none | some .null => return .bool false
    | _ => return .bool true
  | item x key => do return (lookup? (← entries? (env x)) (.ofText key)).getD .null
  | not e => do return .bool !(← e.eval callees env).isTruthy
  | and a b => do
    if (← a.eval callees env).isTruthy then return .bool (← b.eval callees env).isTruthy
    else return .bool false
  | same e c => do return .bool (identical (← e.eval callees env) c)
  | differs e c => do return .bool !(identical (← e.eval callees env) c)
  | choose condition a b => do
    if (← condition.eval callees env).isTruthy then a.eval callees env else b.eval callees env
  | toText e => do return .string (← e.eval callees env).text
  | toArray e => do return .array (asArray (← e.eval callees env))
  | concat a b => do return .string ((← a.eval callees env).text ++ (← b.eval callees env).text)
  | merge a b => do
    return .array (mergeEntries (← entries? (← a.eval callees env)) (← entries? (← b.eval callees env)))
  | split e => do return .array (ofList ((splitSpace (← e.eval callees env).text).map .string))
  | nonEmpty e => do return .array ((← entries? (← e.eval callees env)).filter fun e => e.2.text != [])
  | unique e => do
    return .array ((← entries? (← e.eval callees env)).eraseDupsBy fun a b => a.2.text == b.2.text)
  | renumber e => do return .array (ofList ((← entries? (← e.eval callees env)).map (·.2)))
  | implode separator e => do
    return .string (Bytes.join separator ((← entries? (← e.eval callees env)).map (·.2.text)))
  | trim e => do return .string (trimText (← e.eval callees env).text)
  | trimRight e characters => do
    return .string (Bytes.dropWhileRight characters.contains (← e.eval callees env).text)
  | invoke callee a b => do callees callee [← a.eval callees env, ← b.eval callees env]

/-- How a statement ends. -/
inductive Flow where
  | next
  | skip
  | result (v : Value)

def loop (step : Env → Key × Value → Option (Env × Flow)) : Env → List (Key × Value) → Option (Env × Flow)
  | env, [] => some (env, .next)
  | env, e :: es => do
    match ← step env e with
    | (env, .result v) => return (env, .result v)
    | (env, _) => loop step env es

def Stmt.exec (callees : Callees) : Stmt → Env → Option (Env × Flow)
  | assign x e, env => do return (env.set x (← e.eval callees env), .next)
  | push x e, env => do
    return (env.set x (.array (pushEntry (← entries? (env x)) (← e.eval callees env))), .next)
  | put x key e, env => do
    return (env.set x (.array (setEntry (.ofValue (env key)) (← e.eval callees env) (← entries? (env x)))), .next)
  | foreach source key item body, env => do
    loop (fun env e => body.exec callees (env.enter key item e)) env (← entries? (← source.eval callees env))
  | when condition body, env => do
    if (← condition.eval callees env).isTruthy then body.exec callees env else return (env, .next)
  | either condition₁ body₁ condition₂ body₂, env => do
    if (← condition₁.eval callees env).isTruthy then body₁.exec callees env
    else if (← condition₂.eval callees env).isTruthy then body₂.exec callees env
    else return (env, .next)
  | skip, env => some (env, .skip)
  | give e, env => do return (env, .result (← e.eval callees env))
  | seq first second, env => do
    match ← first.exec callees env with
    | (env, .next) => second.exec callees env
    | ended => return ended

/-- What the function returns for its arguments; null if it reaches its end. -/
def Function.run (callees : Callees) (fn : Function) (args : List Value) : Option Value := do
  match ← fn.body.exec callees (Env.set (fun _ => .null) fn.rest (.array (ofList args))) with
  | (_, .result v) => return v
  | _ => return .null

end Stencil.Script
