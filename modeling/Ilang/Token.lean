import Ilang.Location
import Ilang.Text.Quoted
/-!
# Tokens

The words that a source text is made of. A token's text is what the source holds, so literals keep
their spelling, quotes and escapes included. The words `true`, `false` and `unit` are literals.
-/
namespace Ilang

/-- What a token is. -/
inductive TokenKind where
  | literal (text : String)
  | identifier (name : String)
  | kwLet
  | kwIf
  | kwElse
  | kwReturn
  | kwExtrn
  | kwWhile
  | kwBreak
  | assign
  | plus
  | minus
  | bang
  | star
  | slash
  | eq
  | ne
  | lt
  | gt
  | le
  | ge
  | shl
  | shr
  | andAnd
  | orOr
  | lparen
  | rparen
  | lbrace
  | rbrace
  | semicolon
  | colon
  | comma
  | ellipsis
  | endOfFile
deriving DecidableEq, Repr, Inhabited

namespace TokenKind

/-- The token as the source writes it; the end of the text is named in words. -/
def text : TokenKind → String
  | literal s => s
  | identifier s => s
  | kwLet => "let"
  | kwIf => "if"
  | kwElse => "else"
  | kwReturn => "return"
  | kwExtrn => "extrn"
  | kwWhile => "while"
  | kwBreak => "break"
  | assign => "="
  | plus => "+"
  | minus => "-"
  | bang => "!"
  | star => "*"
  | slash => "/"
  | eq => "=="
  | ne => "!="
  | lt => "<"
  | gt => ">"
  | le => "<="
  | ge => ">="
  | shl => "<<"
  | shr => ">>"
  | andAnd => "&&"
  | orOr => "||"
  | lparen => "("
  | rparen => ")"
  | lbrace => "\x7b"
  | rbrace => "\x7d"
  | semicolon => ";"
  | colon => ":"
  | comma => ","
  | ellipsis => "..."
  | endOfFile => "end of file"

/-- The class of a token, as listings name it. -/
def className : TokenKind → String
  | literal _ => "Literal"
  | identifier _ => "Identifier"
  | kwLet => "Let"
  | kwIf => "If"
  | kwElse => "Else"
  | kwReturn => "Return"
  | kwExtrn => "Extrn"
  | kwWhile => "While"
  | kwBreak => "Break"
  | assign => "Equal"
  | plus => "Plus"
  | minus => "Minus"
  | bang => "Bang"
  | star => "Star"
  | slash => "Slash"
  | eq => "EqualEqual"
  | ne => "BangEqual"
  | lt => "Less"
  | gt => "Greater"
  | le => "LessEqual"
  | ge => "GreaterEqual"
  | shl => "LeftShift"
  | shr => "RightShift"
  | andAnd => "AmpersandAmpersand"
  | orOr => "PipePipe"
  | lparen => "LeftParen"
  | rparen => "RightParen"
  | lbrace => "LeftBrace"
  | rbrace => "RightBrace"
  | semicolon => "Semicolon"
  | colon => "Colon"
  | comma => "Comma"
  | ellipsis => "Ellipsis"
  | endOfFile => "EndOfFile"

/-- The reserved words. -/
def keywords : List TokenKind :=
  [kwLet, kwIf, kwElse, kwReturn, kwExtrn, kwWhile, kwBreak]

/-- Operators and delimiters. One that is the beginning of another stands behind it, so the first
one that fits a text is the longest that does. -/
def symbols : List TokenKind :=
  [ellipsis, eq, ne, le, ge, shl, shr, andAnd, orOr, assign, bang, lt, gt, plus, minus, star, slash,
    lparen, rparen, lbrace, rbrace, semicolon, colon, comma]

/-- The words that are literals. -/
def literalWords : List String := ["true", "false", "unit"]

/-- The token that a whole word makes. -/
def ofWord (w : String) : TokenKind :=
  match keywords.find? (·.text = w) with
  | some k => k
  | none => if w ∈ literalWords then literal w else identifier w

/-- What a listing shows of a token: its class, and the text of names and literals. -/
def listing : TokenKind → String
  | literal s => "Literal(" ++ Text.quoted s ++ ")"
  | identifier s => "Identifier(" ++ Text.quoted s ++ ")"
  | k => k.className

end TokenKind

/-- A token and the location of its first character. -/
structure Token where
  kind : TokenKind
  location : Location
deriving DecidableEq, Repr, Inhabited

/-- A line of a token listing. -/
def Token.listing (t : Token) : String := t.location.text ++ " " ++ t.kind.listing

end Ilang
