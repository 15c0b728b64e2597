import Ilang.Diagnostic
import Ilang.Program
/-!
# Type rules

Compares the types that the expressions of a program have. Every rule is checked and reported for
itself, and the expressions inside are always visited too.
-/
namespace Ilang

/-- Whether a call may have this many arguments. -/
def Signature.admits (s : Signature) (given : Nat) : Bool :=
  if s.variadic then s.params.length ≤ given else given = s.params.length

namespace DeclTable

/-- Reports a function that stands where a variable should. -/
def checkValue (table : DeclTable) (i : Ident) : Report :=
  match table.find i.binding with
  | some d => if d.isCallable then [(Problem.functionAsValue i.name).located i.location] else []
  | none => []

/-- Reports the parameters that have no argument, the first of which is at `position`. -/
def missingArguments (name : String) (location : Location) : (position : Nat) → List Ty → Report
  | _, [] => []
  | position, t :: ts =>
    (Problem.missingArgument name position t).located location ::
      missingArguments name location (position + 1) ts

/-- Compares arguments with parameters, the first of which is at `position`. -/
def checkArguments (name : String) (location : Location) (variadic : Bool) :
    (position : Nat) → List Expr → List Ty → Report
  | position, [], ts => missingArguments name location position ts
  | position, a :: as, t :: ts =>
    (if a.ty = t then [] else [(Problem.argumentType name position t a.ty).located a.location]) ++
      checkArguments name location variadic (position + 1) as ts
  | position, a :: as, [] =>
    (if variadic then [] else [(Problem.extraArgument name position).located a.location]) ++
      checkArguments name location variadic (position + 1) as []

/-- Compares a call with what its name stands for. A name that stands for nothing is not reported
again. -/
def checkCall (table : DeclTable) (callee : Ident) (arguments : List Expr) (location : Location) :
    Report :=
  match table.find callee.binding with
  | none => []
  | some d =>
    match d.signature with
    | none => [(Problem.notAFunction callee.name).located callee.location]
    | some s =>
      (if s.admits arguments.length then []
        else [(Problem.argumentCount callee.name s.params.length s.variadic
          arguments.length).located location]) ++
        checkArguments callee.name location s.variadic 1 arguments s.params

end DeclTable

/-- Reports a condition that is not a truth value. -/
def checkCondition (construct : Conditional) (condition : Expr) : Report :=
  if condition.ty = .bool then []
  else [(Problem.condition construct condition.ty).located condition.location]

mutual

/-- Checks an expression in a function that returns `returns`, inside `depth` loops. -/
def Expr.check (table : DeclTable) (returns : Ty) (depth : Nat) : Expr → Report
  | .literal .. => []
  | .var _ ident => table.checkValue ident
  | .call n callee arguments =>
    checkAll table returns depth arguments ++ table.checkCall callee arguments n.location
  | .block _ body result =>
    checkAll table returns depth body ++ checkOpt table returns depth result
  | .bind n ident type value =>
    value.check table returns depth ++
      if type.ty = value.ty then []
      else [(Problem.boundValue ident.name type.ty value.ty).located n.location]
  | .assign n target value =>
    value.check table returns depth ++ table.checkValue target ++
      match table.find target.binding with
      | none => []
      | some d =>
        if d.ty = value.ty then []
        else [(Problem.assignedValue target.name d.ty value.ty).located n.location]
  | .binary n op left right =>
    (if left.ty = right.ty then []
      else [(Problem.operandTypes op left.ty right.ty).located n.location]) ++
    (if op.appliesTo left.ty then []
      else [(Problem.binaryOperand op left.ty).located n.location]) ++
    left.check table returns depth ++ right.check table returns depth
  | .unary n op operand =>
    (if op.appliesTo operand.ty then []
      else [(Problem.unaryOperand op operand.ty).located n.location]) ++
    operand.check table returns depth
  | .group _ inner => inner.check table returns depth
  | .branch n condition onTrue onFalse =>
    condition.check table returns depth ++ checkCondition .branch condition ++
      onTrue.check table returns depth ++ checkOpt table returns depth onFalse ++
      match onFalse with
      | none => []
      | some e =>
        if e.ty = onTrue.ty then []
        else [(Problem.branchTypes onTrue.ty e.ty).located n.location]
  | .ret n value =>
    value.check table returns depth ++
      if value.ty = returns then []
      else [(Problem.returnedValue returns value.ty).located n.location]
  | .loop _ condition body =>
    condition.check table returns depth ++ checkCondition .loop condition ++
      body.check table returns (depth + 1)
  | .brk n => if depth = 0 then [Problem.breakOutsideLoop.located n.location] else []

/-- Checks expressions that follow each other. -/
def checkAll (table : DeclTable) (returns : Ty) (depth : Nat) : List Expr → Report
  | [] => []
  | e :: es => e.check table returns depth ++ checkAll table returns depth es

/-- Checks an expression that may be missing. -/
def checkOpt (table : DeclTable) (returns : Ty) (depth : Nat) : Option Expr → Report
  | none => []
  | some e => e.check table returns depth

end

/-- Checks a function. -/
def Function.check (table : DeclTable) (f : Function) : Report :=
  f.body.check table f.returns.ty 0 ++
    if f.body.ty = f.returns.ty then []
    else [(Problem.functionBody f.ident.name f.returns.ty f.body.ty).located f.ident.location]

/-- Checks all functions of a program. -/
def Program.check (p : Program) : Report := p.functions.flatMap (Function.check p.table)

end Ilang
