import Ilang.Proofs.Machine
/-!
# Runs of the machine

Runs are put together step by step (`Reaches`). The code of an operator computes what the operator
means, or traps where that has no meaning (`BinaryOp.reaches_code`, `UnaryOp.reaches_code`), and
leaves all but the registers for values as it was (`Machine.Same`).
-/
namespace Ilang

variable {world : World} {program : List Instr}

/-! ## One step after another -/

namespace Point

theorem run_add (n k : Nat) (c : Point) :
    c.run world program (n + k) = match c.run world program n with
      | .running c' => c'.run world program k
      | .ended ending m => .ended ending m := by
  induction n generalizing c with
  | zero => simp [run]
  | succ n ih =>
    rw [Nat.succ_add, run, run]
    cases c.step world program with
    | running c' => exact ih c'
    | ended ending m => rfl

theorem run_of_step {c c' : Point} (h : c.step world program = .running c') (n : Nat) :
    c.run world program (n + 1) = c'.run world program n := by
  rw [run, h]

/-- A run that has ended goes on being ended in the same way. -/
theorem run_ended_mono {c : Point} {n k : Nat} {ending : Ending} {m : Machine}
    (h : c.run world program n = .ended ending m) (hk : n ≤ k) :
    c.run world program k = .ended ending m := by
  obtain ⟨d, rfl⟩ := Nat.exists_eq_add_of_le hk
  rw [run_add, h]

/-- A run ends in one way only. -/
theorem run_ended_unique {c : Point} {n k : Nat} {x y : Ending} {m m' : Machine}
    (h : c.run world program n = .ended x m) (h' : c.run world program k = .ended y m') :
    x = y ∧ m = m' := by
  have hn := run_ended_mono h (Nat.le_max_left n k)
  rw [run_ended_mono h' (Nat.le_max_right n k)] at hn
  cases hn
  exact ⟨rfl, rfl⟩

/-- A configuration is reached from another one. -/
def Reaches (world : World) (program : List Instr) (c c' : Point) : Prop :=
  ∃ n, c.run world program n = .running c'

/-- A run does not end within that many instructions. -/
def Outlasts (world : World) (program : List Instr) (n : Nat) (c : Point) : Prop :=
  ∃ c', c.run world program n = .running c'

theorem Reaches.refl (c : Point) : Reaches world program c c := ⟨0, rfl⟩

theorem Reaches.run_eq {c c' : Point} (h : Reaches world program c c') :
    ∃ n, ∀ k, c.run world program (n + k) = c'.run world program k := by
  obtain ⟨n, hn⟩ := h
  exact ⟨n, fun k => by rw [run_add, hn]⟩

theorem Reaches.trans {c c' c'' : Point} (h : Reaches world program c c')
    (h' : Reaches world program c' c'') : Reaches world program c c'' := by
  obtain ⟨n, hn⟩ := h.run_eq
  obtain ⟨k, hk⟩ := h'
  exact ⟨n + k, (hn k).trans hk⟩

theorem Reaches.of_step {c c' : Point} (h : c.step world program = .running c') :
    Reaches world program c c' :=
  ⟨1, by rw [run_of_step h]; rfl⟩

theorem Outlasts.mono {c : Point} {n k : Nat} (h : Outlasts world program k c) (hn : n ≤ k) :
    Outlasts world program n c := by
  obtain ⟨c', hc⟩ := h
  cases hr : c.run world program n with
  | running c₁ => exact ⟨c₁, hr⟩
  | ended ending m =>
    rw [run_ended_mono hr hn] at hc
    cases hc

theorem Reaches.outlasts {c c' : Point} {n : Nat} (h : Reaches world program c c')
    (h' : Outlasts world program n c') : Outlasts world program n c := by
  obtain ⟨k, hk⟩ := h.run_eq
  obtain ⟨c'', hc⟩ := h'
  exact Outlasts.mono ⟨c'', (hk n).trans hc⟩ (Nat.le_add_left n k)

theorem Outlasts.of_step {c c' : Point} {n : Nat} (h : c.step world program = .running c')
    (h' : Outlasts world program n c') : Outlasts world program (n + 1) c := by
  obtain ⟨c'', hc⟩ := h'
  exact ⟨c'', by rw [run_of_step h, hc]⟩

theorem step_exec {i : Instr} {rest : List Instr} {m m' : Machine} (h : m.exec world i = some m') :
    step world program ⟨i :: rest, m⟩ = .running ⟨rest, m'⟩ := by
  cases i <;> simp_all [step, Machine.exec]

theorem Reaches.exec {i : Instr} {rest : List Instr} {m m' : Machine}
    (h : m.exec world i = some m') : Reaches world program ⟨i :: rest, m⟩ ⟨rest, m'⟩ :=
  .of_step (step_exec h)

end Point

/-! ## Registers -/

namespace Machine

variable (m : Machine)

@[simp] theorem setReg_regs (r q : Reg) (v : Value) :
    (m.setReg r v).regs q = if q = r then v else m.regs q := rfl

@[simp] theorem setReg_memory (r : Reg) (v : Value) : (m.setReg r v).memory = m.memory := rfl

@[simp] theorem setReg_flags (r : Reg) (v : Value) : (m.setReg r v).flags = m.flags := rfl

@[simp] theorem setReg_filled (r : Reg) (v : Value) : (m.setReg r v).filled = m.filled := rfl

@[simp] theorem setReg_calls (r : Reg) (v : Value) : (m.setReg r v).calls = m.calls := rfl

@[simp] theorem store_regs (a : Int) (v : Value) : (m.store a v).regs = m.regs := rfl

@[simp] theorem store_filled (a : Int) (v : Value) : (m.store a v).filled = m.filled := rfl

@[simp] theorem store_calls (a : Int) (v : Value) : (m.store a v).calls = m.calls := rfl

theorem store_memory_self (a : Int) (v : Value) : (m.store a v).memory a = v := by
  simp [store]

/-- What does not overlap the bytes that are written is kept. -/
theorem store_memory_of_apart {a b : Int} (v : Value) (h : b + 8 ≤ a ∨ a + 8 ≤ b) :
    (m.store a v).memory b = m.memory b := by
  unfold store
  dsimp only
  rw [if_neg (by omega), if_neg (by omega)]

/-- All but the registers for values is the same. -/
structure Same (m m' : Machine) : Prop where
  memory : m'.memory = m.memory
  rsp : m'.regs .rsp = m.regs .rsp
  rbp : m'.regs .rbp = m.regs .rbp
  filled : m'.filled = m.filled
  calls : m'.calls = m.calls

variable {m}

@[simp] theorem readWord_reg {r : Reg} {w : Word} (hr : r.isWide = true) (h : m.regs r = .word w) :
    m.readWord (.reg r) = some w := by
  simp [readWord, read, hr, h, Value.word?]

@[simp] theorem readWord_imm (n : Int) : m.readWord (.imm n) = some (BitVec.ofInt 64 n) := rfl

end Machine

/-! ## Operators -/

/-- A low byte that was set is what a register holds once the rest is cleared. -/
theorem setWidth_append_low (w : Word) (low : BitVec 8) :
    (w.extractLsb' 8 56 ++ low).setWidth 8 = low := by
  apply BitVec.eq_of_toNat_eq
  have hlow := low.isLt
  rw [BitVec.toNat_setWidth, BitVec.toNat_append, Nat.shiftLeft_eq, Nat.mul_comm,
    ← Nat.two_pow_add_eq_or_of_lt hlow]
  omega

theorem setWidth_truth (b : Bool) : (if b then 1 else 0 : BitVec 8).setWidth 64 = truth b := by
  cases b <;> rfl

theorem toNat_setWidth_mod (b : Word) : (b.setWidth 8).toNat % 64 = b.toNat % 64 := by
  rw [BitVec.toNat_setWidth]
  exact Nat.mod_mod_of_dvd _ (by decide)

theorem toInt_signFill (a : Word) :
    (if a.msb then (-1 : Word) else 0).toInt * 0x10000000000000000 + a.toNat = a.toInt := by
  rw [BitVec.toInt_eq_msb_cond a]
  cases a.msb
  · simp
  · simp
    omega

/-- Division of a word that fills both registers is division of words. -/
theorem quotient_signFill (a b : Word) :
    (Machine.quotient (if a.msb then -1 else 0) a b).map Prod.fst = BinaryOp.div.apply a b := by
  unfold Machine.quotient BinaryOp.apply
  dsimp only
  rw [toInt_signFill]
  by_cases hb : b = 0
  · simp [hb]
  · by_cases hmin : a = BitVec.intMin 64 ∧ b = -1
    · obtain ⟨rfl, rfl⟩ := hmin
      rfl
    · -- Only the least number divided by minus one is too great for a word.
      have hfit : (a.sdiv b).toInt = a.toInt.tdiv b.toInt :=
        BitVec.toInt_sdiv_of_ne_or_ne a b (by
          by_cases ha : a = BitVec.intMin 64
          · exact .inr fun hb' => hmin ⟨ha, hb'⟩
          · exact .inl ha)
      have hlow := BitVec.le_toInt (a.sdiv b)
      have hhigh := BitVec.toInt_lt (x := a.sdiv b)
      rw [hfit] at hlow hhigh
      have hrange : ¬(b = 0 ∨ a.toInt.tdiv b.toInt < -0x8000000000000000 ∨
          0x8000000000000000 ≤ a.toInt.tdiv b.toInt) := by
        simp only [hb, false_or]
        omega
      have hfine : ¬(b = 0 ∨ a = BitVec.intMin 64 ∧ b = -1) := by
        simp only [hb, false_or]
        exact hmin
      rw [if_neg hrange, if_neg hfine, ← hfit]
      simp

namespace Machine

variable {m : Machine} {a b : Word}

theorem compute_eq {f : Word → Word → Word} {src : Operand} (ha : m.regs .rax = .word a)
    (hb : m.readWord src = some b) :
    m.compute f src .rax = some { m.setReg .rax (.word (f a b)) with flags := none } := by
  rw [compute, readWord_reg rfl ha, hb]
  rfl

theorem same_setReg_rax (v : Value) : m.Same (m.setReg .rax v) := ⟨rfl, rfl, rfl, rfl, rfl⟩

theorem same_setReg_rax_flags (v : Value) (flags : Option (Word × Word)) :
    m.Same { m.setReg .rax v with flags := flags } := ⟨rfl, rfl, rfl, rfl, rfl⟩

/-- An instruction that computes a word leaves it in `rax`. -/
theorem reaches_compute {i : Instr} {rest : List Instr} {w : Word}
    (h : m.exec world i = some { m.setReg .rax (.word w) with flags := none }) :
    ∃ m', Point.Reaches world program ⟨i :: rest, m⟩ ⟨rest, m'⟩ ∧ m'.regs .rax = .word w ∧
      m.Same m' :=
  ⟨_, .exec h, rfl, same_setReg_rax_flags _ _⟩

/-- A comparison leaves zero or one in `rax`. -/
theorem reaches_compare {src : Operand} (ha : m.regs .rax = .word a) (hb : m.readWord src = some b)
    (cond : Cond) (rest : List Instr) :
    ∃ m', Point.Reaches world program
        ⟨.cmp src Reg.rax :: .set cond .al :: .movzbq .al .rax :: rest, m⟩ ⟨rest, m'⟩ ∧
      m'.regs .rax = .word (truth (cond.holds a b)) ∧ m.Same m' := by
  let low : BitVec 8 := if cond.holds a b then 1 else 0
  let m₁ : Machine := { m with flags := some (a, b) }
  let m₂ : Machine := m₁.setReg .rax (.word (a.extractLsb' 8 56 ++ low))
  have h₁ : m.exec world (.cmp src Reg.rax) = some m₁ := by
    simp [exec, readWord_reg rfl ha, hb, m₁]
  have h₂ : m₁.exec world (.set cond .al) = some m₂ := by
    have ha₁ : m₁.regs .rax = .word a := ha
    simp [exec, m₁, m₂, low, readWord_reg rfl ha₁]
  have h₃ : m₂.exec world (.movzbq .al .rax) =
      some (m₂.setReg .rax (.word (truth (cond.holds a b)))) := by
    have ha₂ : m₂.regs .rax = .word (a.extractLsb' 8 56 ++ low) := rfl
    simp only [exec, readWord_reg rfl ha₂, Option.bind_eq_bind, Option.bind_some, write, Reg.isWide,
      setWidth_append_low, if_true]
    rw [← setWidth_truth]
  refine ⟨_, (Point.Reaches.exec h₁).trans ((Point.Reaches.exec h₂).trans (.exec h₃)), rfl, ?_⟩
  exact ⟨rfl, rfl, rfl, rfl, rfl⟩

/-- A shift takes its count from `rbx`. -/
theorem reaches_shift {f : Word → Nat → Word} {i : Instr} (ha : m.regs .rax = .word a)
    (hb : m.regs .rbx = .word b) (hi : ∀ m : Machine, m.exec world i = m.shift f .rax)
    (rest : List Instr) :
    ∃ m', Point.Reaches world program ⟨.mov Reg.rbx Reg.rcx :: i :: rest, m⟩ ⟨rest, m'⟩ ∧
      m'.regs .rax = .word (f a (b.toNat % 64)) ∧ m.Same m' := by
  let m₁ : Machine := m.setReg .rcx (.word b)
  have h₁ : m.exec world (.mov Reg.rbx Reg.rcx) = some m₁ := by
    simp [exec, read, write, Reg.isWide, hb, m₁]
  have h₂ : m₁.exec world i =
      some { m₁.setReg .rax (.word (f a (b.toNat % 64))) with flags := none } := by
    have ha₁ : m₁.regs .rax = .word a := ha
    have hb₁ : m₁.regs .rcx = .word b := rfl
    rw [hi, shift, readWord_reg rfl ha₁, readWord_reg rfl hb₁, ← toNat_setWidth_mod]
    rfl
  exact ⟨_, (Point.Reaches.exec h₁).trans (.exec h₂), rfl, ⟨rfl, rfl, rfl, rfl, rfl⟩⟩

/-- A division ends in a trap or with the quotient in `rax`. -/
theorem reaches_divide (ha : m.regs .rax = .word a) (hb : m.regs .rbx = .word b)
    (rest : List Instr) :
    match BinaryOp.div.apply a b with
    | some w => ∃ m', Point.Reaches world program ⟨.cqto :: .idiv .rbx :: rest, m⟩ ⟨rest, m'⟩ ∧
        m'.regs .rax = .word w ∧ m.Same m'
    | none => ∃ n m', Point.run world program n ⟨.cqto :: .idiv .rbx :: rest, m⟩ =
        .ended .trapped m' ∧ m'.calls = m.calls := by
  let high : Word := if a.msb then -1 else 0
  let m₁ : Machine := m.setReg .rdx (.word high)
  have h₁ : m.exec world .cqto = some m₁ := by
    simp [exec, readWord_reg rfl ha, m₁, high]
  have hstep : Point.step world program ⟨.idiv .rbx :: rest, m₁⟩ = m₁.divide .rbx rest := rfl
  have hhigh : m₁.regs .rdx = .word high := rfl
  have ha₁ : m₁.regs .rax = .word a := ha
  have hb₁ : m₁.regs .rbx = .word b := hb
  rw [divide, readWord_reg rfl hhigh, readWord_reg rfl ha₁, readWord_reg rfl hb₁] at hstep
  dsimp only at hstep
  rw [← quotient_signFill]
  cases hq : quotient high a b with
  | some r =>
    rw [hq] at hstep
    exact ⟨_, (Point.Reaches.exec h₁).trans (.of_step hstep), rfl, ⟨rfl, rfl, rfl, rfl, rfl⟩⟩
  | none =>
    rw [hq] at hstep
    have hreach : Point.Reaches world program ⟨.cqto :: .idiv .rbx :: rest, m⟩
        ⟨.idiv .rbx :: rest, m₁⟩ := .exec h₁
    obtain ⟨n, hn⟩ := hreach.run_eq
    exact ⟨n + 1, m₁, by rw [hn, Point.run, hstep], rfl⟩

end Machine

/-- The code of an operator leaves in `rax` what the operator makes of its operands, or traps. -/
theorem BinaryOp.reaches_code (op : BinaryOp) {m : Machine} {a b : Word}
    (ha : m.regs .rax = .word a) (hb : m.regs .rbx = .word b) (rest : List Instr) :
    match op.apply a b with
    | some w => ∃ m', Point.Reaches world program ⟨op.code ++ rest, m⟩ ⟨rest, m'⟩ ∧
        m'.regs .rax = .word w ∧ m.Same m'
    | none => ∃ n m', Point.run world program n ⟨op.code ++ rest, m⟩ = .ended .trapped m' ∧
        m'.calls = m.calls := by
  have hb' : m.readWord Reg.rbx = some b := Machine.readWord_reg rfl hb
  cases op with
  | add | mul | and | or => exact Machine.reaches_compute (Machine.compute_eq ha hb')
  | sub =>
    have hexec : m.exec world (.sub Reg.rbx Reg.rax) = m.compute (· - ·) Reg.rbx .rax := by
      simp [Machine.exec, ha]
    exact Machine.reaches_compute (hexec.trans (Machine.compute_eq ha hb'))
  | div => exact Machine.reaches_divide ha hb rest
  | shl | shr => exact Machine.reaches_shift ha hb (fun _ => rfl) rest
  | eq => exact Machine.reaches_compare ha hb' .e rest
  | ne => exact Machine.reaches_compare ha hb' .ne rest
  | lt => exact Machine.reaches_compare ha hb' .l rest
  | gt => exact Machine.reaches_compare ha hb' .g rest
  | le => exact Machine.reaches_compare ha hb' .le rest
  | ge => exact Machine.reaches_compare ha hb' .ge rest

/-- The code of an operator leaves in `rax` what the operator makes of its operand. -/
theorem UnaryOp.reaches_code (op : UnaryOp) {m : Machine} {a : Word} (ha : m.regs .rax = .word a)
    (rest : List Instr) :
    ∃ m', Point.Reaches world program ⟨op.code ++ rest, m⟩ ⟨rest, m'⟩ ∧
      m'.regs .rax = .word (op.apply a) ∧ m.Same m' := by
  cases op with
  | not => exact Machine.reaches_compare ha (Machine.readWord_imm 0) .e rest
  | neg =>
    have hneg : a * BitVec.ofInt 64 (-1) = -a := by
      rw [show BitVec.ofInt 64 (-1) = -1#64 by decide, BitVec.mul_neg, BitVec.mul_one]
    have hexec : m.exec world (.imul (.imm (-1)) .rax) = _ :=
      Machine.compute_eq ha (Machine.readWord_imm (-1))
    rw [hneg] at hexec
    exact Machine.reaches_compute hexec

end Ilang
