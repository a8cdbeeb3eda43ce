import Stencil.Display

/-! Tokens of embedded code. A token keeps its text and the offset of its first byte, so the texts of
all tokens of a source, in order, are the source. -/

namespace Stencil

inductive Token.Kind where
  | whitespace | comment
  | var | ident | number | string
  | quote | heredocStart | heredocEnd | encapsed | curlyOpen | dollarCurlyOpen
  | lparen | rparen | lbracket | rbracket | lbrace | rbrace
  | comma | semicolon | objectOp | nullsafeOp | doubleColon | doubleArrow | ellipsis
  | assign | incDec | coalesce | operator
deriving DecidableEq, Repr

structure Token where
  kind : Token.Kind
  text : Bytes
  offset : Nat
  /-- The token lies between the delimiters of an interpolated string. -/
  inString : Bool
deriving DecidableEq, Repr

namespace Token

def Kind.all : List Kind :=
  [.whitespace, .comment, .var, .ident, .number, .string, .quote, .heredocStart, .heredocEnd,
   .encapsed, .curlyOpen, .dollarCurlyOpen, .lparen, .rparen, .lbracket, .rbracket, .lbrace, .rbrace,
   .comma, .semicolon, .objectOp, .nullsafeOp, .doubleColon, .doubleArrow, .ellipsis, .assign,
   .incDec, .coalesce, .operator]

def Kind.name : Kind → Bytes
  | .whitespace => "Whitespace"
  | .comment => "Comment"
  | .var => "Variable"
  | .ident => "Ident"
  | .number => "Number"
  | .string => "String"
  | .quote => "Quote"
  | .heredocStart => "HeredocStart"
  | .heredocEnd => "HeredocEnd"
  | .encapsed => "Encapsed"
  | .curlyOpen => "CurlyOpen"
  | .dollarCurlyOpen => "DollarOpenCurly"
  | .lparen => "LParen"
  | .rparen => "RParen"
  | .lbracket => "LBracket"
  | .rbracket => "RBracket"
  | .lbrace => "LBrace"
  | .rbrace => "RBrace"
  | .comma => "Comma"
  | .semicolon => "Semicolon"
  | .objectOp => "ObjectOp"
  | .nullsafeOp => "NullsafeOp"
  | .doubleColon => "DoubleColon"
  | .doubleArrow => "DoubleArrow"
  | .ellipsis => "Ellipsis"
  | .assign => "Assign"
  | .incDec => "IncDec"
  | .coalesce => "Coalesce"
  | .operator => "Operator"

def Kind.index (k : Kind) : Nat := Kind.all.idxOf k

def Kind.ofName? (name : Bytes) : Option Kind := Kind.all.find? (·.name == name)

def Kind.ofNumber? (n : Int) : Option Kind := if 0 ≤ n then Kind.all[n.toNat]? else none

/-- The name of the kind with number `n`. -/
def Kind.label (n : Int) : Bytes :=
  match Kind.ofNumber? n with
  | some k => k.name
  | none => "TokenType(" ++ Bytes.ofInt n ++ ")"

def describe (n : Int) (text : Bytes) : Bytes := Kind.label n ++ "(" ++ Display.quote text ++ ")"

def isTrivia (t : Token) : Bool := t.kind == .whitespace || t.kind == .comment

end Token

inductive Problem where
  | unterminatedComment
  | unterminatedString
  | unterminatedInterpolation
  | unterminatedHeredoc (label : Bytes)
  | unterminatedNowdoc (label : Bytes)
  | unexpectedBracket (text : Bytes)
  | mismatchedBracket (text : Bytes)
  | unclosedBracket (text : Bytes)
deriving DecidableEq, Repr

structure Fault where
  offset : Nat
  problem : Problem
deriving DecidableEq, Repr

def Problem.message : Problem → Bytes
  | .unterminatedComment => "unterminated comment"
  | .unterminatedString => "unterminated string"
  | .unterminatedInterpolation => "unterminated string interpolation"
  | .unterminatedHeredoc label => "unterminated heredoc " ++ label
  | .unterminatedNowdoc label => "unterminated nowdoc " ++ label
  | .unexpectedBracket text => "unexpected '" ++ text ++ "'"
  | .mismatchedBracket text => "mismatched '" ++ text ++ "'"
  | .unclosedBracket text => "unclosed '" ++ text ++ "'"

def Fault.message (fault : Fault) (src : Bytes) : Bytes :=
  "syntax error at offset " ++ Bytes.ofNat fault.offset ++ " in " ++ Display.quote src ++ ": "
    ++ fault.problem.message

end Stencil
