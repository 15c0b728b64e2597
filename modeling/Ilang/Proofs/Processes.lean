import Ilang.Proofs.Listing
import Ilang.Proofs.Runs
/-!
# Runs of whole programs

The machine leaves every call to the world. A process runs the code of a whole program: a call to
one of its functions goes to the code of that function, which returns to what stands behind the
call, and only calls to external functions are answered by the world.

A process goes over a listing and passes the notes in it without a step, so that it runs as it would
without them (`Process.run_plain`). It is safe for some number of steps if it does not come to
something that has no meaning, and what the notes tell holds whenever it comes to them
(`Process.Safe`). Straight code is passed as by the machine alone (`Process.Safe.reaches`,
`Process.Safe.ends`).
-/
namespace Ilang

/-! ## Steps -/

/-- A run of a program. -/
structure Process where
  /-- The listing from the place on where the run is. -/
  code : List Line
  machine : Machine
  /-- The functions that wait for a return, the latest call first: where the return address stands
  in the stack, and the code that it stands for. -/
  callers : List (Int × List Line)

namespace Process

/-- Goes on at a label. -/
def jump (listing : List Line) (label : String) (m : Machine) (callers : List (Int × List Line)) :
    Except Ending Process :=
  match Line.codeAt label listing with
  | some code => .ok ⟨code, m, callers⟩
  | none => .error .stuck

/-- Calls a function of the program. The return address is put on the stack. -/
def call (listing : List Line) (target : String) (rest : List Line) (m : Machine)
    (callers : List (Int × List Line)) : Except Ending Process :=
  match m.regs .rsp with
  | .stack a =>
    let entered := (m.setReg .rsp (.stack (a - 8))).store (a - 8) .caller
    jump listing target { entered with filled := 0 } ((a - 8, rest) :: callers)
  | _ => .error .stuck

/-- Goes on with what stands behind an instruction, if the machine does. -/
def proceed (rest : List Line) (callers : List (Int × List Line)) :
    Progress → Except Ending Process
  | .running c => .ok ⟨rest, c.machine, callers⟩
  | .ended ending _ => .error ending

/-- Returns from a function. The run ends if it is the one that was entered first. -/
def ret (m : Machine) : List (Int × List Line) → Except Ending Process
  | [] => proceed [] [] m.ret
  | (a, rest) :: callers =>
    if m.regs .rsp = .stack a ∧ m.memory a = .caller then
      .ok ⟨rest, m.setReg .rsp (.stack (a + 8)), callers⟩
    else .error .stuck

/-- Runs an instruction, behind which `rest` stands. All but jumps, calls to functions of the
program and returns do what they do in a function alone. -/
def exec (world : World) (listing : List Line) (m : Machine) (callers : List (Int × List Line))
    (rest : List Line) : Instr → Except Ending Process
  | .jmp label => jump listing label m callers
  | .je label =>
    match m.flags with
    | some (x, y) => if x = y then jump listing label m callers else .ok ⟨rest, m, callers⟩
    | none => .error .stuck
  | .call target false => call listing target rest m callers
  | .ret => ret m callers
  | i => proceed rest callers (Point.step world [] ⟨[i], m⟩)

/-- Runs the first instruction of a listing. -/
def execFirst (world : World) (listing : List Line) (m : Machine)
    (callers : List (Int × List Line)) : List Line → Except Ending Process
  | [] => .error .stuck
  | .note _ :: rest => execFirst world listing m callers rest
  | .instr i :: rest => exec world listing m callers rest i

/-- Runs one instruction, or tells how the run ends. -/
def step (world : World) (listing : List Line) (p : Process) : Except Ending Process :=
  execFirst world listing p.machine p.callers p.code

/-- Runs that many instructions, or tells how the run ends before. -/
def run (world : World) (listing : List Line) : Nat → Process → Except Ending Process
  | 0, p => .ok p
  | n + 1, p => (p.step world listing).bind (run world listing n)

/-! ## Without notes -/

/-- A run without the notes. -/
def plain (p : Process) : Process where
  code := Line.code (Line.instructions p.code)
  machine := p.machine
  callers := p.callers.map fun c => (c.1, Line.code (Line.instructions c.2))

variable {world : World} {listing rest : List Line} {m m' : Machine}
  {callers : List (Int × List Line)}

theorem jump_plain (label : String) :
    jump (Line.code (Line.instructions listing)) label m
        (callers.map fun c => (c.1, Line.code (Line.instructions c.2))) =
      (jump listing label m callers).map plain := by
  unfold jump
  rw [Line.codeAt_instructions]
  cases Line.codeAt label listing <;> rfl

theorem exec_plain (i : Instr) :
    exec world (Line.code (Line.instructions listing)) m
        (callers.map fun c => (c.1, Line.code (Line.instructions c.2)))
        (Line.code (Line.instructions rest)) i =
      (exec world listing m callers rest i).map plain := by
  have hother : proceed (Line.code (Line.instructions rest))
      (callers.map fun c => (c.1, Line.code (Line.instructions c.2)))
        (Point.step world [] ⟨[i], m⟩) =
      (proceed rest callers (Point.step world [] ⟨[i], m⟩)).map plain := by
    cases Point.step world [] ⟨[i], m⟩ <;> rfl
  cases i with
  | jmp label => exact jump_plain label
  | je label =>
    unfold exec
    cases m.flags with
    | none => rfl
    | some x =>
      dsimp only
      split
      -- The flags alone decide, on both sides.
      · exact jump_plain label
      · rfl
  | call target external =>
    cases external with
    | true => exact hother
    -- The code behind the call is kept for the return, without its notes on the left.
    | false =>
      unfold exec call
      cases m.regs .rsp with
      | stack a => exact @jump_plain listing _ ((a - 8, rest) :: callers) target
      | _ => rfl
  | ret =>
    cases callers with
    | nil =>
      simp only [exec, ret, List.map_nil]
      cases m.ret <;> rfl
    | cons c callers =>
      by_cases hret : m.regs .rsp = .stack c.1 ∧ m.memory c.1 = .caller
      · simp [exec, ret, hret, plain, Except.map]
      · simp [exec, ret, hret, Except.map]
  | _ => exact hother

theorem step_plain (p : Process) :
    p.plain.step world (Line.code (Line.instructions listing)) =
      (p.step world listing).map plain := by
  obtain ⟨code, m, callers⟩ := p
  unfold step
  induction code with
  | nil => rfl
  | cons line code ih =>
    cases line with
    | note n => exact ih
    | instr i => exact exec_plain i

/-- A program runs the same with or without notes. -/
theorem run_plain (n : Nat) (p : Process) :
    p.plain.run world (Line.code (Line.instructions listing)) n =
      (p.run world listing n).map plain := by
  induction n generalizing p with
  | zero => rfl
  | succ n ih =>
    rw [run, run, step_plain]
    cases p.step world listing with
    | error ending => rfl
    | ok q => exact ih q

/-! ## Safety -/

/-- What the notes about the place of a run tell holds. -/
def Complies (holds : Note → Machine → Prop) (p : Process) : Prop :=
  ∀ n ∈ Line.notes p.code, holds n p.machine

/-- For some number of steps, or until the run ends, it does not come to something that has no
meaning, and what notes tell holds. -/
def Safe (world : World) (listing : List Line) (holds : Note → Machine → Prop) :
    Nat → Process → Prop
  | 0, p => p.Complies holds
  | k + 1, p => p.Complies holds ∧ p.step world listing ≠ .error .stuck ∧
    ∀ q, p.step world listing = .ok q → Safe world listing holds k q

namespace Safe

variable {holds : Note → Machine → Prop} {k : Nat} {p q : Process}

theorem complies (h : Safe world listing holds k p) : p.Complies holds := by
  cases k with
  | zero => exact h
  | succ k => exact h.1

theorem of_succ (h : Safe world listing holds (k + 1) p) : Safe world listing holds k p := by
  induction k generalizing p with
  | zero => exact h.1
  | succ k ih => exact ⟨h.1, h.2.1, fun q hq => ih (h.2.2 q hq)⟩

theorem mono {j : Nat} (h : Safe world listing holds k p) (hj : j ≤ k) :
    Safe world listing holds j p := by
  induction hj with
  | refl => exact h
  | step _ ih => exact ih h.of_succ

/-- Within its steps, a run that is safe does not get stuck and complies with the notes. -/
theorem run_safe {n : Nat} (h : Safe world listing holds k p) (hn : n ≤ k) :
    p.run world listing n ≠ .error .stuck ∧
      ∀ q, p.run world listing n = .ok q → q.Complies holds := by
  induction n generalizing k p with
  | zero =>
    refine ⟨by simp [run], ?_⟩
    rintro q ⟨⟩
    exact h.complies
  | succ n ih =>
    -- One step is spent, and the next place is safe for those that are left.
    obtain ⟨k, rfl⟩ : ∃ j, k = j + 1 := ⟨k - 1, by omega⟩
    rw [run]
    cases hstep : p.step world listing with
    | error ending =>
      refine ⟨?_, by rintro q ⟨⟩⟩
      rintro ⟨⟩
      exact h.2.1 hstep
    | ok r => exact ih (h.2.2 r hstep) (by omega)

/-- A note is passed where it holds. -/
theorem note {n : Note} (hn : holds n m) (h : Safe world listing holds k ⟨rest, m, callers⟩) :
    Safe world listing holds k ⟨.note n :: rest, m, callers⟩ := by
  have hcomplies : Complies holds ⟨.note n :: rest, m, callers⟩ :=
    List.forall_mem_cons.2 ⟨hn, h.complies⟩
  cases k with
  | zero => exact hcomplies
  | succ k => exact ⟨hcomplies, h.2⟩

/-- An instruction is safe if what it comes to is safe for the steps that are left. -/
theorem of_step {i : Instr} (h : ∀ j < k, ∃ q, exec world listing m callers rest i = .ok q ∧
    Safe world listing holds j q) : Safe world listing holds k ⟨.instr i :: rest, m, callers⟩ := by
  have hcomplies : Complies holds ⟨.instr i :: rest, m, callers⟩ :=
    fun n hn => absurd hn List.not_mem_nil
  cases k with
  | zero => exact hcomplies
  | succ k =>
    obtain ⟨q, hq, hsafe⟩ := h k (Nat.lt_succ_self k)
    have hstep : step world listing ⟨.instr i :: rest, m, callers⟩ = .ok q := hq
    refine ⟨hcomplies, by simp [hstep], fun q' hq' => ?_⟩
    rw [hstep] at hq'
    cases hq'
    exact hsafe

theorem of_exec {i : Instr} (hi : exec world listing m callers rest i = .ok q)
    (h : Safe world listing holds k q) :
    Safe world listing holds k ⟨.instr i :: rest, m, callers⟩ :=
  of_step fun _ hj => ⟨q, hi, h.mono (Nat.le_of_lt hj)⟩

/-- An instruction that ends the run is safe if it has a meaning. -/
theorem of_end {i : Instr} {ending : Ending}
    (hi : exec world listing m callers rest i = .error ending) (hending : ending ≠ .stuck) :
    Safe world listing holds k ⟨.instr i :: rest, m, callers⟩ := by
  have hcomplies : Complies holds ⟨.instr i :: rest, m, callers⟩ :=
    fun n hn => absurd hn List.not_mem_nil
  have hstep : step world listing ⟨.instr i :: rest, m, callers⟩ = .error ending := hi
  cases k with
  | zero => exact hcomplies
  | succ k => exact ⟨hcomplies, by simp [hstep, hending], by simp [hstep]⟩

end Safe

end Process

/-! ## Straight code -/

/-- Whether an instruction goes on with the next one, if at all. -/
def Instr.isStraight : Instr → Bool
  | jmp _ | je _ | call _ false | ret => false
  | _ => true

variable {world : World} {program : List Instr} {listing rest : List Line} {m m' : Machine}
  {callers : List (Int × List Line)}

/-- Behind a straight instruction, the machine goes on with what stands there. -/
theorem Point.step_straight {i : Instr} (hi : i.isStraight = true) (is : List Instr) :
    Point.step world program ⟨i :: is, m⟩ = match Point.step world [] ⟨[i], m⟩ with
      | .running c => .running ⟨is, c.machine⟩
      | .ended ending m' => .ended ending m' := by
  cases i with
  | jmp | je | ret => cases hi
  | idiv r =>
    simp only [Point.step, Machine.divide]
    split
    · split <;> rfl
    · rfl
  | call target external =>
    simp only [Point.step, Machine.call]
    split
    · split <;> rfl
    · rfl
  | _ =>
    simp only [Point.step]
    split <;> rfl

/-- A straight instruction does in a process what it does in a function alone. -/
theorem Process.exec_straight {i : Instr} (hi : i.isStraight = true) (is : List Instr) :
    Process.exec world listing m callers rest i =
      proceed rest callers (Point.step world program ⟨i :: is, m⟩) := by
  have hstep : proceed rest callers (Point.step world program ⟨i :: is, m⟩) =
      proceed rest callers (Point.step world [] ⟨[i], m⟩) := by
    rw [Point.step_straight hi]
    cases Point.step world [] ⟨[i], m⟩ <;> rfl
  rw [hstep]
  cases i with
  | jmp | je | ret => cases hi
  | call target external =>
    cases external with
    | false => cases hi
    | true => rfl
  | _ => rfl

/-- An instruction that goes on to the next one does the same in a process. -/
theorem Process.exec_of_exec {i : Instr} (h : m.exec world i = some m') :
    Process.exec world listing m callers rest i = .ok ⟨rest, m', callers⟩ := by
  have hi : i.isStraight = true := by
    cases i with
    | jmp | je | call | ret => cases h
    | _ => rfl
  rw [@Process.exec_straight world [] listing rest m callers i hi [], Point.step_exec h]
  rfl

section
variable {holds : Note → Machine → Prop} {k n : Nat} {is : List Instr}
  (hstraight : ∀ i ∈ is, i.isStraight = true)
include hstraight

/-- Straight code that the machine comes to the end of is safe if what follows it is. -/
theorem Process.Safe.reaches (hreach : Point.Reaches world program ⟨is, m⟩ ⟨[], m'⟩)
    (h : Process.Safe world listing holds k ⟨rest, m', callers⟩) :
    Process.Safe world listing holds k ⟨Line.code is ++ rest, m, callers⟩ := by
  obtain ⟨n, hn⟩ := hreach
  induction is generalizing m n with
  | nil =>
    cases n with
    | zero =>
      cases hn
      exact h
    | succ n => cases hn
  | cons i is ih =>
    obtain ⟨hi, his⟩ := List.forall_mem_cons.1 hstraight
    rw [Line.code_cons, List.cons_append]
    cases n with
    | zero => cases hn
    | succ n =>
      rw [Point.run, Point.step_straight hi] at hn
      cases hone : Point.step world [] ⟨[i], m⟩ with
      | ended ending m' =>
        rw [hone] at hn
        cases hn
      | running c =>
        rw [hone] at hn
        refine Process.Safe.of_exec ?_ (ih his n hn)
        rw [Process.exec_straight hi [], hone]
        rfl

/-- Straight code in which the run ends is safe if that has a meaning. -/
theorem Process.Safe.ends {ending : Ending}
    (hrun : Point.run world program n ⟨is, m⟩ = .ended ending m') (hending : ending ≠ .stuck) :
    Process.Safe world listing holds k ⟨Line.code is ++ rest, m, callers⟩ := by
  induction is generalizing m n with
  | nil =>
    cases n with
    | zero => cases hrun
    | succ n =>
      cases hrun
      exact absurd rfl hending
  | cons i is ih =>
    obtain ⟨hi, his⟩ := List.forall_mem_cons.1 hstraight
    rw [Line.code_cons, List.cons_append]
    cases n with
    | zero => cases hrun
    | succ n =>
      rw [Point.run, Point.step_straight hi] at hrun
      cases hone : Point.step world [] ⟨[i], m⟩ with
      | ended ending m' =>
        rw [hone] at hrun
        cases hrun
        refine Process.Safe.of_end ?_ hending
        rw [Process.exec_straight hi [], hone]
        rfl
      | running c =>
        rw [hone] at hrun
        refine Process.Safe.of_exec ?_ (ih his hrun)
        rw [Process.exec_straight hi [], hone]
        rfl

end

end Ilang
