import Ilang.Assembly.Instr
import Ilang.Proofs.Evaluation
import Ilang.Proofs.Labels
/-!
# The machine

Runs the code of one function. A register or a place in memory holds a word or an address in the
stack; what a called function leaves behind is not known. Addresses in the stack are integers, and
are no words: code can neither compute with them, but for reserving space, nor hand them to others.

A call is answered by the world. It gets the argument registers that were filled for it: `filled`
counts the words that were taken from the stack into them since the last call. It keeps the stack
from the top on, `rsp` and `rbp`, and nothing else.
-/
namespace Ilang

/-- What a register or eight bytes of memory hold. -/
inductive Value where
  | word (w : Word)
  /-- An address in the stack. -/
  | stack (a : Int)
  /-- The address to which the function returns. -/
  | caller
  /-- Nothing that is known. -/
  | junk
deriving DecidableEq, Repr

/-- The word that a value is. -/
def Value.word? : Value → Option Word
  | word w => some w
  | _ => none

/-- What the machine remembers. -/
structure Machine where
  regs : Reg → Value
  /-- The eight bytes from an address on. -/
  memory : Int → Value
  /-- The words that were compared last, if nothing was computed since. -/
  flags : Option (Word × Word)
  /-- How many argument registers were filled since the last call. -/
  filled : Nat
  /-- The calls that were made, the latest first. -/
  calls : List Call

/-- A register that is read and written as a whole. -/
def Reg.isWide : Reg → Bool
  | al | cl | rip => false
  | _ => true

/-- Whether a condition holds for two words. -/
def Cond.holds : Cond → Word → Word → Bool
  | e, a, b => a = b
  | ne, a, b => a ≠ b
  | l, a, b => a.slt b
  | g, a, b => b.slt a
  | le, a, b => a.sle b
  | ge, a, b => b.sle a

namespace Machine

/-! ## Registers and memory -/

def setReg (m : Machine) (r : Reg) (v : Value) : Machine :=
  { m with regs := fun q => if q = r then v else m.regs q }

/-- Writes eight bytes. What overlaps them is not known any more. -/
def store (m : Machine) (a : Int) (v : Value) : Machine :=
  { m with memory := fun x =>
      if x = a then v else if a - 8 < x ∧ x < a + 8 then .junk else m.memory x }

/-- The value of an operand. -/
def read (m : Machine) : Operand → Option Value
  | .reg r => if r.isWide then some (m.regs r) else none
  | .imm n => some (.word (BitVec.ofInt 64 n))
  | .mem offset base =>
    match m.regs base with
    | .stack a => some (m.memory (a + offset))
    | _ => none
  | .symbol .. => none

/-- The word that an operand has. -/
def readWord (m : Machine) (o : Operand) : Option Word := (m.read o).bind Value.word?

/-- Gives an operand a value. -/
def write (m : Machine) (v : Value) : Operand → Option Machine
  | .reg r => if r.isWide then some (m.setReg r v) else none
  | .mem offset base =>
    match m.regs base with
    | .stack a => some (m.store (a + offset) v)
    | _ => none
  | _ => none

/-- Computes a word from a register and an operand. -/
def compute (m : Machine) (f : Word → Word → Word) (src : Operand) (dst : Reg) : Option Machine := do
  let x ← m.readWord dst
  let y ← m.readWord src
  m.write (.word (f x y)) dst |>.map ({ · with flags := none })

/-- Shifts a register by the low bits of `rcx`. -/
def shift (m : Machine) (f : Word → Nat → Word) (dst : Reg) : Option Machine := do
  let x ← m.readWord dst
  let c ← m.readWord Reg.rcx
  m.write (.word (f x ((c.setWidth 8).toNat % 64))) dst |>.map ({ · with flags := none })

/-! ## Instructions -/

/-- What an instruction does that goes on to the next one. -/
def exec (world : World) (m : Machine) : Instr → Option Machine
  | .label _ => some m
  | .mov src dst => do m.write (← m.read src) dst
  | .lea (.symbol label .rip) dst => m.write (.word (world.address label)) dst
  | .push r =>
    match m.regs .rsp with
    | .stack a => do return (m.setReg .rsp (.stack (a - 8))).store (a - 8) (← m.read r)
    | _ => none
  | .pop r =>
    match m.regs .rsp with
    | .stack a => do
      let n ← (m.setReg .rsp (.stack (a + 8))).write (m.memory a) r
      return { n with filled := if r ∈ Convention.argumentRegs then m.filled + 1 else m.filled }
    | _ => none
  | .movzbq .al dst => do
    let x ← m.readWord Reg.rax
    m.write (.word ((x.setWidth 8).setWidth 64)) dst
  | .add src dst => m.compute (· + ·) src dst
  | .sub src (.reg dst) =>
    match m.regs dst, src with
    | .stack a, .imm n => (m.write (.stack (a - n)) dst).map ({ · with flags := none })
    | _, _ => m.compute (· - ·) src dst
  | .imul src dst => m.compute (· * ·) src dst
  | .and src dst => m.compute (· &&& ·) src dst
  | .or src dst => m.compute (· ||| ·) src dst
  | .shl .cl dst => m.shift (· <<< ·) dst
  | .shr .cl dst => m.shift (· >>> ·) dst
  | .cqto => do
    let x ← m.readWord Reg.rax
    return m.setReg .rdx (.word (if x.msb then -1 else 0))
  | .cmp lhs rhs => do
    let x ← m.readWord rhs
    let y ← m.readWord lhs
    return { m with flags := some (x, y) }
  | .set cond .al => do
    let (x, y) ← m.flags
    let w ← m.readWord Reg.rax
    let low : BitVec 8 := if cond.holds x y then 1 else 0
    return m.setReg .rax (.word (w.extractLsb' 8 56 ++ low))
  | .leave =>
    match m.regs .rbp with
    | .stack a => some ((m.setReg .rsp (.stack (a + 8))).setReg .rbp (m.memory a))
    | _ => none
  | _ => none

/-- The quotient and the remainder of the number in `rdx` and `rax`. Nothing, if the quotient is
none or does not fit into a register. -/
def quotient (high low divisor : Word) : Option (Word × Word) :=
  let n := high.toInt * 0x10000000000000000 + low.toNat
  let q := n.tdiv divisor.toInt
  if divisor = 0 ∨ q < -0x8000000000000000 ∨ 0x8000000000000000 ≤ q then none
  else some (BitVec.ofInt 64 q, BitVec.ofInt 64 (n.tmod divisor.toInt))

/-- What is known of the machine when a called function gives back a word. -/
def resume (m : Machine) (w : Word) (top : Int) : Machine where
  regs r := if r = .rax then .word w else if r = .rsp ∨ r = .rbp then m.regs r else .junk
  memory a := if top ≤ a then m.memory a else .junk
  flags := none
  filled := 0
  calls := m.calls

end Machine

/-! ## Runs -/

/-- The code that is still to be run, and the machine. -/
structure Point where
  code : List Instr
  machine : Machine

/-- What a run has come to. -/
inductive Progress where
  | running (c : Point)
  | ended (ending : Ending) (m : Machine)

namespace Machine

/-- Goes on at a label. -/
def jump (program : List Instr) (label : String) (m : Machine) : Progress :=
  match Instr.codeAt label program with
  | some code => .running ⟨code, m⟩
  | none => .ended .stuck m

/-- Divides, and goes on. -/
def divide (m : Machine) (r : Reg) (rest : List Instr) : Progress :=
  match m.readWord Reg.rdx, m.readWord Reg.rax, m.readWord r with
  | some high, some low, some divisor =>
    match quotient high low divisor with
    | some (q, remainder) =>
      .running ⟨rest, { (m.setReg .rax (.word q)).setReg .rdx (.word remainder) with flags := none }⟩
    | none => .ended .trapped m
  | _, _, _ => .ended .stuck m

/-- Makes a call, and goes on when it ends. -/
def call (world : World) (m : Machine) (target : String) (rest : List Instr) : Progress :=
  match m.regs .rsp, (Convention.argumentRegs.take m.filled).mapM fun r => (m.regs r).word? with
  | .stack top, some arguments =>
    let m := { m with calls := ⟨target, arguments⟩ :: m.calls }
    match world.answer m.calls with
    | some w => .running ⟨rest, m.resume w top⟩
    | none => .ended .abandoned m
  | _, _ => .ended .stuck m

/-- Returns from the function. -/
def ret (m : Machine) : Progress :=
  match m.regs .rsp, m.regs .rax with
  | .stack a, .word w =>
    if m.memory a = .caller then .ended (.returned w) (m.setReg .rsp (.stack (a + 8)))
    else .ended .stuck m
  | _, _ => .ended .stuck m

end Machine

/-- Runs one instruction of a program. -/
def Point.step (world : World) (program : List Instr) (c : Point) : Progress :=
  match c.code with
  | [] => .ended .stuck c.machine
  | .jmp label :: _ => c.machine.jump program label
  | .je label :: rest =>
    match c.machine.flags with
    | some (x, y) => if x = y then c.machine.jump program label else .running ⟨rest, c.machine⟩
    | none => .ended .stuck c.machine
  | .idiv r :: rest => c.machine.divide r rest
  | .call target _ :: rest => c.machine.call world target rest
  | .ret :: _ => c.machine.ret
  | i :: rest =>
    match c.machine.exec world i with
    | some m => .running ⟨rest, m⟩
    | none => .ended .stuck c.machine

/-- Runs at most that many instructions. -/
def Point.run (world : World) (program : List Instr) : Nat → Point → Progress
  | 0, c => .running c
  | n + 1, c =>
    match c.step world program with
    | .running c' => c'.run world program n
    | .ended ending m => .ended ending m

end Ilang
