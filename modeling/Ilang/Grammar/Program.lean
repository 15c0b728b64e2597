import Ilang.Program
import Ilang.Grammar.Expr
/-!
# Reading programs

    program    ::= { external | function }
    external   ::= "extrn" type ident "(" [ params ] ")" [ ";" ]
    function   ::= type ident "(" [ params ] ")" block
    params     ::= type ident { "," type ident }

The parameters of an external function may end in `...`, which may also stand alone. As for
expressions, each rule has a budget.
-/
namespace Ilang.Grammar

open Rule

/-- The parameters behind an opening parenthesis, at least one, and whether they end in `...`. -/
def paramList (allowVariadic : Bool) : Nat → Rule (List Param × Bool)
  | 0 => exhausted
  | n + 1 => do
    if allowVariadic && (← peek) = some .ellipsis then
      skip
      return ([], true)
    else
      let type ← typeRef .parameter
      let name ← ident .parameter
      if ← accept .comma then
        let (others, variadic) ← paramList allowVariadic n
        return (⟨name, type⟩ :: others, variadic)
      else
        return ([⟨name, type⟩], false)

/-- Parameters in their parentheses. -/
def params (allowVariadic : Bool) (n : Nat) : Rule (List Param × Bool) := do
  expect .lparen .parameterList
  if (← peek) = some .rparen then
    skip
    return ([], false)
  else
    let result ← paramList allowVariadic n
    expect .rparen .parameterList
    return result

/-- A function with its body. -/
def function (n : Nat) : Rule Function := do
  let here ← location
  let returns ← typeRef .functionDeclaration
  let name ← ident .functionDeclaration
  let (ps, _) ← params false n
  let body ← block n
  return ⟨name, returns, ps, body, here⟩

/-- The declaration of an external function. -/
def external (n : Nat) : Rule External := do
  let here ← location
  expect .kwExtrn .externalDeclaration
  let returns ← typeRef .externalDeclaration
  let name ← ident .externalDeclaration
  let (ps, variadic) ← params true n
  let _ ← accept .semicolon
  return ⟨name, returns, ps, variadic, here⟩

/-- Declarations up to the end of the text. -/
def declarations : Nat → Rule (List Function × List External)
  | 0 => exhausted
  | n + 1 => fun q =>
    if q.atEnd then .ok ([], []) q
    else if q.head? = some .kwExtrn then
      (do
        let e ← external n
        let (functions, externals) ← declarations n
        return (functions, e :: externals)) q
    else
      (do
        let f ← function n
        let (functions, externals) ← declarations n
        return (f :: functions, externals)) q

/-- A whole program. -/
def program : Rule Program := do
  let (functions, externals) ← withBudget declarations
  return { functions := functions, externals := externals }

end Ilang.Grammar

namespace Ilang

/-- The program that a list of tokens makes. -/
def parse (ts : List Token) : Except ParseError Program :=
  (Grammar.program (.ofTokens ts)).toExcept

end Ilang
