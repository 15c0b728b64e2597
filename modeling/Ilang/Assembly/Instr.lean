/-!
# Instructions

The part of the x86-64 instruction set that programs are compiled to, and how it is written: the
source operand first, registers with a percent sign, immediate values with a dollar sign.
-/
namespace Ilang

/-- A register. `rax` holds the value of every expression, `rbx` the second operand of a binary
operator. `al` and `cl` are the low bytes of `rax` and `rcx`. -/
inductive Reg where
  | rax
  | rbx
  | rcx
  | rdx
  | rsi
  | rdi
  | r8
  | r9
  | rbp
  | rsp
  | rip
  | al
  | cl
deriving DecidableEq, Repr, Inhabited

/-- A register as it is written. -/
def Reg.text : Reg → String
  | rax => "%rax"
  | rbx => "%rbx"
  | rcx => "%rcx"
  | rdx => "%rdx"
  | rsi => "%rsi"
  | rdi => "%rdi"
  | r8 => "%r8"
  | r9 => "%r9"
  | rbp => "%rbp"
  | rsp => "%rsp"
  | rip => "%rip"
  | al => "%al"
  | cl => "%cl"

/-- What an instruction works on. -/
inductive Operand where
  | reg (r : Reg)
  | imm (n : Int)
  /-- Memory at a distance from where a register points. -/
  | mem (offset : Int) (base : Reg)
  /-- The address of a label, relative to a register. -/
  | symbol (label : String) (base : Reg)
deriving DecidableEq, Repr, Inhabited

instance : Coe Reg Operand := ⟨.reg⟩

/-- A place in the frame of the running function. -/
def Operand.slot (offset : Int) : Operand := .mem offset .rbp

/-- An operand as it is written. -/
def Operand.text : Operand → String
  | reg r => r.text
  | imm n => "$" ++ toString n
  | mem offset base => toString offset ++ "(" ++ base.text ++ ")"
  | symbol label base => label ++ "(" ++ base.text ++ ")"

/-- The outcome of a comparison that a byte can be set from. -/
inductive Cond where
  | e
  | ne
  | l
  | g
  | le
  | ge
deriving DecidableEq, Repr, Inhabited

/-- A condition as it is written. -/
def Cond.text : Cond → String
  | e => "e"
  | ne => "ne"
  | l => "l"
  | g => "g"
  | le => "le"
  | ge => "ge"

/-- A line of assembly. -/
inductive Instr where
  | mov (src dst : Operand)
  | lea (src : Operand) (dst : Reg)
  | push (r : Reg)
  | pop (r : Reg)
  | movzbq (src dst : Reg)
  | add (src : Operand) (dst : Reg)
  | sub (src dst : Operand)
  | imul (src : Operand) (dst : Reg)
  | cqto
  | idiv (r : Reg)
  | and (src : Operand) (dst : Reg)
  | or (src : Operand) (dst : Reg)
  | shl (count dst : Reg)
  | shr (count dst : Reg)
  | cmp (lhs rhs : Operand)
  | set (cond : Cond) (r : Reg)
  | jmp (label : String)
  | je (label : String)
  /-- A call; an external target goes through the linkage table. -/
  | call (target : String) (external : Bool)
  | leave
  | ret
  | label (name : String)
  | comment (text : String)
  | directive (text : String)
  /-- The bytes of a string and a zero behind them. -/
  | asciz (text : String)
deriving DecidableEq, Repr, Inhabited

namespace Instr

/-- An instruction as it is written. -/
def text : Instr → String
  | mov src dst => "mov " ++ src.text ++ ", " ++ dst.text
  | lea src dst => "lea " ++ src.text ++ ", " ++ dst.text
  | push r => "push " ++ r.text
  | pop r => "pop " ++ r.text
  | movzbq src dst => "movzbq " ++ src.text ++ ", " ++ dst.text
  | add src dst => "add " ++ src.text ++ ", " ++ dst.text
  | sub src dst => "sub " ++ src.text ++ ", " ++ dst.text
  | imul src dst => "imul " ++ src.text ++ ", " ++ dst.text
  | cqto => "cqto"
  | idiv r => "idiv " ++ r.text
  | and src dst => "and " ++ src.text ++ ", " ++ dst.text
  | or src dst => "or " ++ src.text ++ ", " ++ dst.text
  | shl count dst => "shl " ++ count.text ++ ", " ++ dst.text
  | shr count dst => "shr " ++ count.text ++ ", " ++ dst.text
  | cmp lhs rhs => "cmp " ++ lhs.text ++ ", " ++ rhs.text
  | set cond r => "set" ++ cond.text ++ " " ++ r.text
  | jmp name => "jmp " ++ name
  | je name => "je " ++ name
  | call target false => "call " ++ target
  | call target true => "call " ++ target ++ "@PLT"
  | leave => "leave"
  | ret => "ret"
  | label name => name ++ ":"
  | comment t => "#   " ++ t
  | directive t => t
  | asciz t => ".asciz " ++ t

/-- Whether a line starts at the margin. All others are indented. -/
def atMargin : Instr → Bool
  | label _ | comment _ | directive _ => true
  | _ => false

/-- An instruction as a line of its own. -/
def line (i : Instr) : String := (if i.atMargin then "" else "    ") ++ i.text ++ "\n"

/-- Instructions as lines. -/
def lines (is : List Instr) : String := is.foldl (fun s i => s ++ i.line) ""

end Instr

/-! ## The calling convention -/

namespace Convention

/-- The registers that hold the arguments of a call, in order. There are no others. -/
def argumentRegs : List Reg := [.rdi, .rsi, .rdx, .rcx, .r8, .r9]

/-- The greatest number of arguments that a call can have. -/
def maxArguments : Nat := argumentRegs.length

end Convention

end Ilang
