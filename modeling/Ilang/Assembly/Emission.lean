import Ilang.Assembly.Code
import Ilang.Assembly.Frame
import Ilang.Assembly.Label
import Ilang.Literal
import Ilang.Program
/-!
# Code for expressions

The code of every expression leaves its value in `rax`. A binary operator evaluates its right
operand first and keeps both on the stack until the left one is in `rax` and the right one in `rbx`.
A call keeps its arguments on the stack until all are evaluated. What has no value leaves zero.
-/
namespace Ilang

/-- The labels for branches and loops that are still free. -/
structure Labels where
  branches : LabelSupply := { stem := ".conditional_label" }
  loops : LabelSupply := { stem := ".loop_label" }
deriving DecidableEq, Repr, Inhabited

/-- What the code of an expression depends on. -/
structure Surroundings where
  frame : Frame
  /-- The functions that the program defines. All others are external. -/
  functions : List String
  /-- Whether comments tell what the code is for. -/
  comments : Bool
deriving Repr

/-- Makes code with labels that are not used yet, or fails. -/
abbrev Emit := StateT Labels (Except GenError)

namespace Emit

/-- A new label for a branch. -/
def branchLabel : Emit String := do
  let labels ← get
  let (label, supply) := labels.branches.fresh
  set { labels with branches := supply }
  return label

/-- A new label for a loop. -/
def loopLabel : Emit String := do
  let labels ← get
  let (label, supply) := labels.loops.fresh
  set { labels with loops := supply }
  return label

end Emit

/-- The place of the variable that a name means. -/
def Frame.slotOf (f : Frame) (i : Ident) : Except GenError Operand :=
  match i.slot.bind fun index => f.vars[index]? with
  | some var => .ok (.slot var.offset)
  | none => .error (.unresolvedLocal i.name i.location)

/-- The register of an argument, counted from zero. -/
def Convention.argumentReg (index : Nat) : Except GenError Reg :=
  match argumentRegs[index]? with
  | some r => .ok r
  | none => .error (.invalidRegister index maxArguments)

/-- A comment, if comments are wanted. -/
def remark (wanted : Bool) (text : String) : List Instr := if wanted then [.comment text] else []

/-- The code for the value of what has none. -/
def unitCode : List Instr := [.mov (.imm 0) Reg.rax]

/-- The code for a literal. -/
def literalCode (n : Node) (text : String) (constant : Option String) :
    Except GenError (List Instr) :=
  let unsupported := .error (.unsupportedLiteral text n.ty n.location)
  match n.ty with
  | .int =>
    match Text.int64? text with
    | some value => .ok [.mov (.imm value) Reg.rax]
    | none => unsupported
  | .bool =>
    if text = "true" then .ok [.mov (.imm 1) Reg.rax]
    else if text = "false" then .ok [.mov (.imm 0) Reg.rax]
    else unsupported
  | .string =>
    match constant with
    | some label => .ok [.lea (.symbol label .rip) .rax]
    | none => unsupported
  | .unit => .ok []
  | .float | .undefined => unsupported

/-- The code of an operator, with its operands in `rax` and `rbx`. -/
def BinaryOp.code : BinaryOp → List Instr
  | add => [.add Reg.rbx .rax]
  | sub => [.sub Reg.rbx Reg.rax]
  | mul => [.imul Reg.rbx .rax]
  | div => [.cqto, .idiv .rbx]
  | shl => [.mov Reg.rbx Reg.rcx, .shl .cl .rax]
  | shr => [.mov Reg.rbx Reg.rcx, .shr .cl .rax]
  | and => [.and Reg.rbx .rax]
  | or => [.or Reg.rbx .rax]
  | eq => compare .e
  | ne => compare .ne
  | lt => compare .l
  | gt => compare .g
  | le => compare .le
  | ge => compare .ge
where
  /-- A comparison whose outcome becomes zero or one. -/
  compare (c : Cond) : List Instr := [.cmp Reg.rbx Reg.rax, .set c .al, .movzbq .al .rax]

/-- The code of an operator, with its operand in `rax`. -/
def UnaryOp.code : UnaryOp → List Instr
  | not => [.cmp (.imm 0) Reg.rax, .set .e .al, .movzbq .al .rax]
  | neg => [.imul (.imm (-1)) .rax]

/-- Takes that many arguments from the stack, the last one first. -/
def popArguments : Nat → Except GenError (List Instr)
  | 0 => .ok []
  | n + 1 => do return .pop (← Convention.argumentReg n) :: (← popArguments n)

mutual

/-- The code of an expression. -/
def Expr.emit (env : Surroundings) : Expr → Emit Code
  | .literal n text constant => do
    return .instrs (remark env.comments "literal expression" ++ (← literalCode n text constant))
  | .var _ ident => do
    return .instrs (remark env.comments "identifier expression" ++
      [.mov (← env.frame.slotOf ident) Reg.rax])
  | .call n callee arguments => do
    if Convention.maxArguments < arguments.length then
      throw (.tooManyArguments callee.name arguments.length Convention.maxArguments n.location)
    else
      let args ← emitArguments env arguments
      let pops ← popArguments arguments.length
      let external := !env.functions.contains callee.name
      return .instrs (remark env.comments "function call expression") ++ args ++ .instrs pops ++
        .instrs [.mov (.imm 0) Reg.rax, .call callee.name external]
  | .block _ body result => do
    let statements ← emitAll env body
    let last ← emitOpt env (remark env.comments "implicit return expression") result
    return .instrs (remark env.comments "block expression") ++ statements ++ last
  | .bind _ ident _ value => do
    let v ← value.emit env
    return v ++ .instrs (remark env.comments "bind expression" ++
      [.mov Reg.rax (← env.frame.slotOf ident)])
  | .assign _ target value => do
    let v ← value.emit env
    return v ++ .instrs (remark env.comments "assignment expression" ++
      [.mov Reg.rax (← env.frame.slotOf target)])
  | .binary _ op left right => do
    let r ← right.emit env
    let l ← left.emit env
    return .instrs (remark env.comments "binary expression") ++ r ++ .instrs [.push .rax] ++ l ++
      .instrs ([.push .rax, .pop .rax, .pop .rbx] ++ op.code)
  | .unary _ op operand => do
    return .instrs (remark env.comments "unary expression") ++ (← operand.emit env) ++
      .instrs op.code
  | .group _ inner => inner.emit env
  | .branch _ condition onTrue onFalse => do
    let elseLabel ← Emit.branchLabel
    let endLabel ← Emit.branchLabel
    let c ← condition.emit env
    let t ← onTrue.emit env
    let f ← emitOpt env [] onFalse
    return .instrs (remark env.comments "conditional expression") ++ c ++
      .instrs [.cmp (.imm 0) Reg.rax, .je elseLabel] ++ t ++
      .instrs [.jmp endLabel, .label elseLabel] ++ f ++ .instrs [.label endLabel]
  | .ret _ value => do
    return .instrs (remark env.comments "return expression") ++ (← value.emit env) ++
      .instrs [.leave, .ret]
  | .loop _ condition body => do
    let startLabel ← Emit.loopLabel
    let endLabel ← Emit.loopLabel
    let inside := { env with frame := env.frame.pushLoop endLabel }
    let c ← condition.emit inside
    let b ← body.emit inside
    return .instrs (remark env.comments "loop expression" ++ [.label startLabel]) ++ c ++
      .instrs [.cmp (.imm 0) Reg.rax, .je endLabel] ++ b ++
      .instrs [.jmp startLabel, .label endLabel]
  | .brk n =>
    match env.frame.currentLoop? with
    | some endLabel => return .instrs (remark env.comments "break expression" ++ [.jmp endLabel])
    | none => throw (.breakOutsideLoop n.location)

/-- The code of expressions that follow each other. -/
def emitAll (env : Surroundings) : List Expr → Emit Code
  | [] => return .instrs []
  | e :: es => do
    let first ← e.emit env
    return first ++ (← emitAll env es)

/-- The code of arguments, each of which is put on the stack. -/
def emitArguments (env : Surroundings) : List Expr → Emit Code
  | [] => return .instrs []
  | e :: es => do
    let first ← e.emit env
    return first ++ .instrs [.push .rax] ++ (← emitArguments env es)

/-- The code of an expression that may be missing, with a heading if it is not. -/
def emitOpt (env : Surroundings) (heading : List Instr) : Option Expr → Emit Code
  | none => return .instrs unitCode
  | some e => return .instrs heading ++ (← e.emit env)

end

/-- The code that puts arguments into the frame, the first of which has the given number. -/
def storeParams (f : Frame) : (index : Nat) → List Param → Except GenError (List Instr)
  | _, [] => .ok []
  | index, p :: ps => do
    let reg ← Convention.argumentReg index
    let slot ← f.slotOf p.ident
    return .mov reg slot :: (← storeParams f (index + 1) ps)

/-- The code of a function that has been placed in a frame. -/
def Function.emit (comments : Bool) (functions : List String) (frame : Frame) (f : Function) :
    Emit Code := do
  if Convention.maxArguments < f.params.length then
    throw (.tooManyParameters frame.function f.params.length Convention.maxArguments)
  else
    let stores ← storeParams frame 0 f.params
    let body ← f.body.emit ⟨frame, functions, comments⟩
    return .instrs ([.label frame.function] ++ remark comments "prologue" ++
        [.push .rbp, .mov Reg.rsp Reg.rbp] ++ remark comments "stack allocation" ++
        [.sub (.imm frame.size) Reg.rsp] ++
        remark comments "move function parameters into local stack space") ++
      .instrs stores ++ .instrs (remark comments "function body") ++ body ++
      .instrs (remark comments "epilogue" ++ [.leave, .ret])

/-- The code of functions with their frames. -/
def emitFunctions (comments : Bool) (functions : List String) : List (Function × Frame) → Emit Code
  | [] => return .instrs []
  | (f, frame) :: fs => do
    let first ← f.emit comments functions frame
    return first ++ (← emitFunctions comments functions fs)

end Ilang
