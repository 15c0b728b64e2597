import Ilang.Token
/-!
# Taking tokens from a queue

A rule of the grammar takes tokens from the front of a queue. It gives a result or an error, and in
both cases the tokens that are left.
-/
namespace Ilang

/-- The part of a program that is being read. -/
inductive Construct where
  | functionDeclaration
  | externalDeclaration
  | parameterList
  | parameter
  | block
  | letBinding
  | callArguments
  | parentheses
deriving DecidableEq, Repr

/-- The name of a construct in messages. -/
def Construct.text : Construct → String
  | functionDeclaration => "function declaration"
  | externalDeclaration => "external declaration"
  | parameterList => "parameter list"
  | parameter => "parameter"
  | block => "block"
  | letBinding => "let binding"
  | callArguments => "call arguments"
  | parentheses => "parenthesized expression"

/-- What would have been right at some place. -/
inductive Expected where
  | token (kind : TokenKind) (construct : Construct)
  | typeName (construct : Construct)
  | identifier (construct : Construct)
  | expression
deriving DecidableEq, Repr

/-- What would have been right, in words. -/
def Expected.text : Expected → String
  | token kind construct => "'" ++ kind.text ++ "' in " ++ construct.text
  | typeName construct => "type name in " ++ construct.text
  | identifier construct => "identifier in " ++ construct.text
  | expression => "expression"

/-- Why tokens make no program. -/
inductive ParseError where
  | unexpectedToken (expected : Expected) (found : Token)
  | unexpectedEnd (expected : Expected) (location : Location)
  /-- The budget of a rule was too small for the nesting of the tokens. -/
  | outOfBudget (location : Location)
deriving DecidableEq, Repr

namespace ParseError

/-- What is wrong, without the place. -/
def message : ParseError → String
  | unexpectedToken expected found => "Expected " ++ expected.text ++ ", found " ++ found.kind.text
  | unexpectedEnd expected _ => "Unexpected end of file, expected " ++ expected.text
  | outOfBudget _ => "Nesting too deep"

/-- Where the error is. -/
def location : ParseError → Location
  | unexpectedToken _ found => found.location
  | unexpectedEnd _ l => l
  | outOfBudget l => l

end ParseError

/-- Tokens still to be read. -/
structure Queue where
  tokens : List Token
  /-- The location of whatever is missing behind the last token. -/
  finish : Location
deriving DecidableEq, Repr

namespace Queue

/-- A queue of tokens that ends where its last token stands. -/
def ofTokens (ts : List Token) : Queue :=
  ⟨ts, (ts.getLast?.map Token.location).getD .unknown⟩

/-- The location of the first token, or of the end. -/
def location (q : Queue) : Location :=
  match q.tokens with
  | [] => q.finish
  | t :: _ => t.location

/-- The kind of the first token. -/
def head? (q : Queue) : Option TokenKind := q.tokens.head?.map Token.kind

/-- The queue without its first token. -/
def tail (q : Queue) : Queue := ⟨q.tokens.tail, q.finish⟩

/-- Whether nothing is left but the end of the text. -/
def atEnd (q : Queue) : Bool :=
  match q.head? with
  | none => true
  | some k => k = .endOfFile

/-- The error that something else is expected at the front of a queue. -/
def unexpected (q : Queue) (expected : Expected) : ParseError :=
  match q.tokens with
  | [] => .unexpectedEnd expected q.finish
  | t :: _ =>
    if t.kind = .endOfFile then .unexpectedEnd expected t.location
    else .unexpectedToken expected t

end Queue

/-- The result of a rule and the tokens it leaves. -/
inductive Outcome (α : Type) where
  | ok (value : α) (rest : Queue)
  | error (e : ParseError) (rest : Queue)
deriving Repr

/-- The result alone. -/
def Outcome.toExcept {α : Type} : Outcome α → Except ParseError α
  | ok a _ => .ok a
  | error e _ => .error e

/-- The tokens that are left. -/
def Outcome.rest {α : Type} : Outcome α → Queue
  | ok _ q => q
  | error _ q => q

/-- Something that takes tokens from a queue. -/
def Rule (α : Type) : Type := Queue → Outcome α

namespace Rule

/-- Takes nothing. -/
@[inline] def pure {α : Type} (a : α) : Rule α := fun q => .ok a q

/-- One rule after another; an error of the first one ends both. -/
@[inline] def bind {α β : Type} (p : Rule α) (f : α → Rule β) : Rule β := fun q =>
  match p q with
  | .ok a rest => f a rest
  | .error e rest => .error e rest

instance : Monad Rule where
  pure := Rule.pure
  bind := Rule.bind

/-- Fails where the queue stands. -/
def fail {α : Type} (expected : Expected) : Rule α := fun q => .error (q.unexpected expected) q

/-- Fails because the budget is used up. -/
def exhausted {α : Type} : Rule α := fun q => .error (.outOfBudget q.location) q

/-- The location of what comes next. -/
def location : Rule Location := fun q => .ok q.location q

/-- The kind of the next token, which is not taken. -/
def peek : Rule (Option TokenKind) := fun q => .ok q.head? q

/-- The kind of the token behind the next one. -/
def peekSecond : Rule (Option TokenKind) := fun q => .ok q.tail.head? q

/-- Takes one token. -/
def skip : Rule Unit := fun q => .ok () q.tail

/-- Takes the next token if it is of the given kind, and tells whether it was. -/
def accept (kind : TokenKind) : Rule Bool := fun q =>
  if q.head? = some kind then .ok true q.tail else .ok false q

/-- Takes a token that must be of the given kind. -/
def expect (kind : TokenKind) (construct : Construct) : Rule Unit := fun q =>
  if q.head? = some kind then .ok () q.tail else .error (q.unexpected (.token kind construct)) q

end Rule

end Ilang
