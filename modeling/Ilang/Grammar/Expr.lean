import Ilang.Expr
import Ilang.Grammar.Queue
/-!
# Reading expressions

    block      ::= "{" { expression ";" } [ expression ] "}"
    expression ::= "return" value | "let" ident ":" type "=" value
                 | ident "=" value | "while" value block | "break" | value
    value      ::= unary [ binop value ]
    unary      ::= ( "!" | "-" ) unary | primary
    primary    ::= literal | ident "(" [ value { "," value } ] ")" | ident | "(" value ")"
                 | block | "if" value value [ "else" value ]

A chain of binary operators groups to the right, whatever the operators are: `a - b - c` is
`a - (b - c)`. Each rule has a budget of nested rules; `budget` gives enough for every queue.
-/
namespace Ilang.Grammar

open Rule

/-- A budget that no run of a rule on a queue uses up: at most six rules are entered between one
token and the next. -/
def budget (q : Queue) : Nat := 8 * (q.tokens.length + 1)

/-- Runs a rule with a budget that fits the queue. -/
def withBudget {α : Type} (rule : Nat → Rule α) : Rule α := fun q => rule (budget q) q

/-- A name. -/
def ident (construct : Construct) : Rule Ident := do
  let here ← location
  match ← peek with
  | some (.identifier name) =>
    skip
    return { name := name, location := here }
  | _ => fail (.identifier construct)

/-- The name of a type. The word `unit` is a literal elsewhere. -/
def typeRef (construct : Construct) : Rule TypeRef := do
  let here ← location
  match ← peek with
  | some (.identifier name) =>
    skip
    return .ofName name here
  | some (.literal "unit") =>
    skip
    return .ofName "unit" here
  | _ => fail (.typeName construct)

mutual

/-- Statements between braces. -/
def block : Nat → Rule Expr
  | 0 => exhausted
  | n + 1 => do
    let here ← location
    expect .lbrace .block
    let (body, result) ← statements n
    return .block { location := here } body result

/-- The inside of a block and its closing brace. -/
def statements : Nat → Rule (List Expr × Option Expr)
  | 0 => exhausted
  | n + 1 => do
    if ← accept .rbrace then
      return ([], none)
    else
      let first ← expression n
      if ← accept .semicolon then
        let (body, result) ← statements n
        return (first :: body, result)
      else
        expect .rbrace .block
        return ([], some first)

/-- What can stand between semicolons. -/
def expression : Nat → Rule Expr
  | 0 => exhausted
  | n + 1 => do
    let here ← location
    match ← peek with
    | some .kwReturn =>
      skip
      return .ret { location := here } (← value n)
    | some .kwLet =>
      skip
      let name ← ident .letBinding
      expect .colon .letBinding
      let type ← typeRef .letBinding
      expect .assign .letBinding
      return .bind { location := here } name type (← value n)
    | some .kwWhile =>
      skip
      let condition ← value n
      return .loop { location := here } condition (← block n)
    | some .kwBreak =>
      skip
      return .brk { location := here }
    | some (.identifier name) =>
      if (← peekSecond) = some .assign then
        skip
        skip
        return .assign { location := here } { name := name, location := here } (← value n)
      else
        value n
    | _ => value n

/-- What can be an operand: a unary expression, or a chain of them. -/
def value : Nat → Rule Expr
  | 0 => exhausted
  | n + 1 => do
    let left ← unary n
    match (← peek).bind BinaryOp.ofToken? with
    | some op =>
      skip
      return .binary { location := left.location } op left (← value n)
    | none => return left

/-- Unary operators before a primary expression. -/
def unary : Nat → Rule Expr
  | 0 => exhausted
  | n + 1 => do
    let here ← location
    match (← peek).bind UnaryOp.ofToken? with
    | some op =>
      skip
      return .unary { location := here } op (← unary n)
    | none => primary n

/-- What no operator is part of. -/
def primary : Nat → Rule Expr
  | 0 => exhausted
  | n + 1 => do
    let here ← location
    match ← peek with
    | some (.literal text) =>
      skip
      return .literal { location := here } text none
    | some (.identifier name) =>
      skip
      if (← peek) = some .lparen then
        return .call { location := here } { name := name, location := here } (← arguments n)
      else
        return .var { location := here } { name := name, location := here }
    | some .lparen =>
      skip
      let inner ← value n
      expect .rparen .parentheses
      return .group { location := here } inner
    | some .lbrace => block n
    | some .kwIf =>
      skip
      let condition ← value n
      let onTrue ← value n
      if ← accept .kwElse then
        return .branch { location := here } condition onTrue (some (← value n))
      else
        return .branch { location := here } condition onTrue none
    | _ => fail .expression

/-- The arguments of a call in their parentheses. -/
def arguments : Nat → Rule (List Expr)
  | 0 => exhausted
  | n + 1 => do
    expect .lparen .callArguments
    if (← peek) = some .rparen then
      skip
      return []
    else
      let args ← argumentList n
      expect .rparen .callArguments
      return args

/-- Arguments with commas between them, at least one. -/
def argumentList : Nat → Rule (List Expr)
  | 0 => exhausted
  | n + 1 => do
    let first ← value n
    if ← accept .comma then
      return first :: (← argumentList n)
    else
      return [first]

end

end Ilang.Grammar
