import Stencil.Token.Group
import Stencil.Token.Lexer
import Stencil.Unicode.Lower

/-! Guarding references. A reference is a variable with the chain of accesses that follows it; the plan
of a source says which token ranges are guarded, and writing the plan out puts every guarded range through
the guard. Left alone are variables inside strings, `$this`, member names, parameters and captured variables
of anonymous functions, arguments of `isset`, `empty` and `unset`, assignment targets, incremented variables
and left operands of `??`. -/

namespace Stencil.Reference

open Token (Kind Group)

/-- A piece of a plan: one token as it is, or a range to be guarded. -/
inductive Piece where
  | plain (t : Token)
  | guarded (ts : List Token)
deriving DecidableEq, Repr

namespace Piece

def tokens : Piece → List Token
  | .plain t => [t]
  | .guarded ts => ts

def isGuarded : Piece → Bool
  | .plain _ => false
  | .guarded _ => true

end Piece

/-- The groups at the start that carry no code. -/
def triviaCount (gs : List Group) : Nat := (gs.takeWhile Group.isTrivia).length

def nextSignificant (gs : List Group) : Option Group := (gs.dropWhile Group.isTrivia).head?

def isAccessOp (k : Kind) : Bool := k == .objectOp || k == .nullsafeOp || k == .doubleColon

/-- How many groups one more access takes, leading trivia included: a member after `->`, `?->` or `::`,
or an index. -/
def segment? (gs : List Group) : Option Nat :=
  let n := triviaCount gs
  match gs.drop n with
  | .leaf op :: rest =>
    if isAccessOp op.kind then
      let m := triviaCount rest
      match rest.drop m with
      | .leaf t :: _ => if t.kind = .ident ∨ t.kind = .var then some (n + 1 + m + 1) else none
      | .pair o _ _ :: _ => if o.kind = .lbrace then some (n + 1 + m + 1) else none
      | [] => none
    else none
  | .pair o _ _ :: _ => if o.kind = .lbracket then some (n + 1) else none
  | [] => none

/-- The lengths of the accesses that follow a root, in groups. -/
def segments : (fuel : Nat) → List Group → List Nat
  | 0, _ => []
  | fuel + 1, gs =>
    match segment? gs with
    | some n => n :: segments fuel (gs.drop n)
    | none => []

def extent (lengths : List Nat) : Nat := lengths.foldr (· + ·) 0

/-- What becomes of a reference, and how many groups after its root belong to it. -/
inductive Fate where
  | kept (count : Nat)
  | guarded (count : Nat)
deriving DecidableEq, Repr

def fate (gs : List Group) : Fate :=
  let lengths := segments gs.length gs
  match nextSignificant (gs.drop (extent lengths)) with
  | some (.leaf t) =>
    if t.kind = .assign ∨ t.kind = .incDec ∨ t.kind = .coalesce then .kept (extent lengths)
    else .guarded (extent lengths)
  | some (.pair o _ _) =>
    if o.kind = .lparen then .guarded (extent lengths.dropLast) else .guarded (extent lengths)
  | none => .guarded (extent lengths)

/-- After `t`, a variable is a member name or the name of a variable. -/
def followsAccess (t : Token) : Bool :=
  isAccessOp t.kind || t.kind == .incDec || (t.kind == .operator && t.text == [Ascii.dollar])

/-- What the tokens before a bracket pair make of it. -/
inductive Expectation where
  | nothing
  /-- After `function` or `fn`: the parameters, with an optional `&` before them. -/
  | parameters (ampersand : Bool)
  /-- After the parameters. -/
  | use
  /-- After `use`: the captured variables. -/
  | captures
  /-- After `isset`, `empty` or `unset`. -/
  | arguments
deriving DecidableEq, Repr

/-- Where the plan stands in a list of groups: the significant token before, and what it lets expect. -/
structure Place where
  prev : Option Token
  expectation : Expectation
deriving DecidableEq, Repr

namespace Place

def start : Place := ⟨none, .nothing⟩

def afterAccess (p : Place) : Bool := p.prev.any followsAccess

def expectationAfter (p : Place) (t : Token) : Expectation :=
  if p.expectation = .parameters true ∧ t.kind = .operator ∧ t.text = [Ascii.ampersand] then
    .parameters false
  else if p.expectation = .use ∧ Text.spells "use" t.text then .captures
  else if t.kind = .ident ∧ !t.inString ∧ !p.afterAccess then
    let word := Text.lower t.text
    if word == "function" || word == "fn" then .parameters true
    else if word == "isset" || word == "empty" || word == "unset" then .arguments
    else .nothing
  else .nothing

/-- The bracket pair at this place holds names only. -/
def exempts (p : Place) (opening : Token) : Bool :=
  opening.kind == .lparen &&
    match p.expectation with
    | .parameters _ | .captures | .arguments => true
    | _ => false

def after (p : Place) : Group → Place
  | .leaf t => if t.isTrivia then p else ⟨some t, p.expectationAfter t⟩
  | .pair o _ c =>
    ⟨some c, match p.expectation with
      | .parameters _ => if o.kind = .lparen then .use else .nothing
      | _ => .nothing⟩

end Place

/-- The variable can be the root of a guarded reference. -/
def isRoot (p : Place) (t : Token) : Bool :=
  t.kind == .var && !t.inString && t.text != "$this" && !p.afterAccess

/-- The plan of a list of groups. The first `skip` groups belong to a piece planned before, and inside
`exempt` groups nothing is guarded. -/
def planFrom (exempt : Bool) : (p : Place) → (skip : Nat) → List Group → List Piece
  | _, _, [] => []
  | p, skip + 1, g :: gs => planFrom exempt (p.after g) skip gs
  | p, 0, .pair o body c :: gs =>
    let inner := planFrom (exempt || p.exempts o) .start 0 body
    .plain o :: (inner ++ .plain c :: planFrom exempt (p.after (.pair o [] c)) 0 gs)
  | p, 0, .leaf t :: gs =>
    if !exempt && isRoot p t then
      match fate gs with
      | .kept n =>
        (t :: Group.tokensOf (gs.take n)).map .plain ++ planFrom exempt (p.after (.leaf t)) n gs
      | .guarded n =>
        .guarded (t :: Group.tokensOf (gs.take n)) :: planFrom exempt (p.after (.leaf t)) n gs
    else .plain t :: planFrom exempt (p.after (.leaf t)) 0 gs

/-- The plan of a source. When variables are handled one by one, nothing is guarded, but the brackets
still have to pair up. -/
def plan (variablesHandled : Bool) (src : Bytes) : Except Fault (List Piece) := do
  let groups ← Group.ofTokens (← Token.tokenize src)
  return planFrom variablesHandled .start 0 groups

/-- Templates applied to every token of a kind. -/
abbrev Handlers := List (Kind × (Bytes → Bytes))

def tokenText (handlers : Handlers) (t : Token) : Bytes :=
  match handlers.find? (·.1 = t.kind) with
  | some (_, h) => h t.text
  | none => t.text

def tokenTexts (handlers : Handlers) (ts : List Token) : Bytes := ts.flatMap (tokenText handlers)

def Piece.write (guard : Bytes → Bytes) (handlers : Handlers) : Piece → Bytes
  | .plain t => tokenText handlers t
  | .guarded ts => guard (tokenTexts handlers ts)

def handlesVariables (handlers : Handlers) : Bool := handlers.any (·.1 = .var)

/-- The source with its references guarded. -/
def guardAll (guard : Bytes → Bytes) (handlers : Handlers) (src : Bytes) : Except Fault Bytes := do
  let pieces ← plan (handlesVariables handlers) src
  return pieces.flatMap (·.write guard handlers)

/-- The source with its tokens handled one by one and nothing guarded; brackets need not pair up. -/
def handleAll (handlers : Handlers) (src : Bytes) : Except Fault Bytes := do
  return tokenTexts handlers (← Token.tokenize src)

end Stencil.Reference
