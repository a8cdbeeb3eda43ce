import Stencil.Token.Basic

/-! Tokens grouped by their brackets. Round, square and curly brackets pair up, an interpolation's opening
counting as a curly one; a source whose brackets do not pair up has no groups. -/

namespace Stencil.Token

/-- A token, or a bracket pair with what lies between. -/
inductive Group where
  | leaf (t : Token)
  | pair (opening : Token) (body : List Group) (closing : Token)

inductive Bracket where
  | round | square | curly
deriving DecidableEq, Repr

def Kind.opens : Kind → Option Bracket
  | .lparen => some .round
  | .lbracket => some .square
  | .lbrace => some .curly
  | .curlyOpen => some .curly
  | .dollarCurlyOpen => some .curly
  | _ => none

def Kind.closes : Kind → Option Bracket
  | .rparen => some .round
  | .rbracket => some .square
  | .rbrace => some .curly
  | _ => none

namespace Group

mutual

def tokens : Group → List Token
  | .leaf t => [t]
  | .pair o body c => o :: (tokensOf body ++ [c])

def tokensOf : List Group → List Token
  | [] => []
  | g :: gs => g.tokens ++ tokensOf gs

end

def isTrivia : Group → Bool
  | .leaf t => t.isTrivia
  | .pair .. => false

def last : Group → Token
  | .leaf t => t
  | .pair _ _ c => c

/-- Open brackets, innermost first, each with the groups before it, latest first. -/
abbrev Stack := List (Token × List Group)

/-- Reads tokens inside the brackets of `stack`; `done` holds the groups since the innermost one, latest
first. -/
def build : Stack → (done : List Group) → List Token → Except Fault (List Group)
  | [], done, [] => .ok done.reverse
  | (o, _) :: _, _, [] => .error ⟨o.offset, .unclosedBracket o.text⟩
  | stack, done, t :: ts =>
    if t.kind.opens.isSome then build ((t, done) :: stack) [] ts
    else match t.kind.closes with
      | none => build stack (.leaf t :: done) ts
      | some b =>
        match stack with
        | [] => .error ⟨t.offset, .unexpectedBracket t.text⟩
        | (o, before) :: stack =>
          if o.kind.opens = some b then build stack (.pair o done.reverse t :: before) ts
          else .error ⟨t.offset, .mismatchedBracket t.text⟩

def ofTokens (ts : List Token) : Except Fault (List Group) := build [] [] ts

end Group

end Stencil.Token
