import Ilang.Proofs.Translation
/-!
# Pushes and pops

A path through the code of a function goes from instruction to instruction, whatever the words are: a
conditional jump is taken or not, a call is stepped over (`Spot.follow`). It carries the pushes whose
words are outstanding. Where no `break` leaves a loop with a word waiting, they depend on the place
alone and not on the path, and each pop takes the word of the push that belongs to it
(`Program.pops_matched`).

Going through the code line by line (`stops`) gives each instruction its outstanding pushes. Every
jump goes to a label with the pushes that are outstanding at the jump, so that no path ever differs
from that.
-/
namespace Ilang

/-! ## Paths -/

/-- A place on a path: the index of an instruction, and the indices of the pushes whose words are
outstanding in front of it, the latest first. -/
structure Spot where
  index : Nat
  pending : List Nat
deriving DecidableEq, Repr

namespace Spot

/-- The next place on a path. `leave` gives up the frame with all that is outstanding, and ends it. -/
def step (program : List Instr) (taken : Bool) (s : Spot) : Option Spot :=
  let jump (label : String) := (program.idxOf? (.label label)).map fun i => ⟨i, s.pending⟩
  match program[s.index]? with
  | none | some .leave | some .ret => none
  | some (.push _) => some ⟨s.index + 1, s.index :: s.pending⟩
  | some (.pop _) =>
    match s.pending with
    | [] => none
    | _ :: pending => some ⟨s.index + 1, pending⟩
  | some (.jmp label) => jump label
  | some (.je label) => if taken then jump label else some ⟨s.index + 1, s.pending⟩
  | some _ => some ⟨s.index + 1, s.pending⟩

/-- Where a path leads. There is a choice for each instruction, which matters at conditional jumps. -/
def follow (program : List Instr) : List Bool → Spot → Option Spot
  | [], s => some s
  | taken :: choices, s => (s.step program taken).bind (follow program choices)

end Spot

/-! ## Which pop belongs to which push -/

mutual

/-- How many instructions the code of an expression has. -/
def Expr.codeSize : Expr → Nat
  | .literal n _ _ => if n.ty = .unit then 0 else 1
  | .var .. | .brk .. => 1
  | .call _ _ arguments => argumentsSize arguments + arguments.length + 2
  | .block _ body result => allSize body + optSize result
  | .bind _ _ _ value | .assign _ _ value => value.codeSize + 1
  | .binary _ op left right => right.codeSize + 1 + left.codeSize + 3 + op.code.length
  | .unary _ op operand => operand.codeSize + op.code.length
  | .group _ inner => inner.codeSize
  | .branch _ condition onTrue onFalse =>
    condition.codeSize + 2 + onTrue.codeSize + 2 + optSize onFalse + 1
  | .ret _ value => value.codeSize + 2
  | .loop _ condition body => 1 + condition.codeSize + 2 + body.codeSize + 2

def allSize : List Expr → Nat
  | [] => 0
  | e :: es => e.codeSize + allSize es

def argumentsSize : List Expr → Nat
  | [] => 0
  | e :: es => e.codeSize + 1 + argumentsSize es

def optSize : Option Expr → Nat
  | none => unitCode.length
  | some e => e.codeSize

end

/-- The indices of the pushes of arguments, the code of which starts at an index. -/
def argumentPushes (start : Nat) : List Expr → List Nat
  | [] => []
  | e :: es => (start + e.codeSize) :: argumentPushes (start + e.codeSize + 1) es

mutual

/-- The pushes of an expression with their pops, if its code starts at an index: the operands of an
operator, and the arguments of a call. -/
def Expr.pairs (start : Nat) : Expr → List (Nat × Nat)
  | .literal .. | .var .. | .brk .. => []
  | .call _ _ arguments =>
    argumentsPairs start arguments ++ (argumentPushes start arguments).reverse.zip
      (List.range' (start + argumentsSize arguments) arguments.length)
  | .block _ body result => allPairs start body ++ optPairs (start + allSize body) result
  | .bind _ _ _ value | .assign _ _ value | .unary _ _ value | .group _ value | .ret _ value =>
    value.pairs start
  | .binary _ _ left right =>
    let first := start + right.codeSize
    let second := first + 1 + left.codeSize
    right.pairs start ++ left.pairs (first + 1) ++ [(second, second + 1), (first, second + 2)]
  | .branch _ condition onTrue onFalse =>
    let whenTrue := start + condition.codeSize + 2
    condition.pairs start ++ onTrue.pairs whenTrue ++
      optPairs (whenTrue + onTrue.codeSize + 2) onFalse
  | .loop _ condition body =>
    condition.pairs (start + 1) ++ body.pairs (start + 1 + condition.codeSize + 2)

def allPairs (start : Nat) : List Expr → List (Nat × Nat)
  | [] => []
  | e :: es => e.pairs start ++ allPairs (start + e.codeSize) es

def argumentsPairs (start : Nat) : List Expr → List (Nat × Nat)
  | [] => []
  | e :: es => e.pairs start ++ argumentsPairs (start + e.codeSize + 1) es

def optPairs (start : Nat) : Option Expr → List (Nat × Nat)
  | none => []
  | some e => e.pairs start

end

/-! ## Going through code line by line -/

/-- An instruction, its index and the pushes that are outstanding in front of it. -/
structure Stop where
  index : Nat
  instr : Instr
  pending : List Nat

/-- The pushes that are outstanding behind an instruction. -/
def Instr.pendingBehind (index : Nat) (pending : List Nat) : Instr → List Nat
  | push _ => index :: pending
  | pop _ => pending.tail
  | _ => pending

/-- The instructions of some code, line by line. -/
def stops (index : Nat) (pending : List Nat) : List Instr → List Stop
  | [] => []
  | i :: is => ⟨index, i, pending⟩ :: stops (index + 1) (i.pendingBehind index pending) is

/-- The pushes that are outstanding behind the last line. -/
def pendingBehind (index : Nat) (pending : List Nat) : List Instr → List Nat
  | [] => pending
  | i :: is => pendingBehind (index + 1) (i.pendingBehind index pending) is

variable {index : Nat} {pending : List Nat}

theorem pendingBehind_append (c d : List Instr) :
    pendingBehind index pending (c ++ d) =
      pendingBehind (index + c.length) (pendingBehind index pending c) d := by
  induction c generalizing index pending with
  | nil => rfl
  | cons i c ih =>
    rw [List.cons_append, pendingBehind, ih, pendingBehind, List.length_cons]
    congr 1
    omega

theorem stops_append (c d : List Instr) :
    stops index pending (c ++ d) =
      stops index pending c ++ stops (index + c.length) (pendingBehind index pending c) d := by
  induction c generalizing index pending with
  | nil => rfl
  | cons i c ih =>
    rw [List.cons_append, stops, ih, stops, pendingBehind, List.cons_append, List.length_cons]
    congr 3
    omega

/-- The instruction of a line is the one of that index. -/
theorem getElem?_of_mem_stops {code : List Instr} {t : Stop} (h : t ∈ stops index pending code) :
    index ≤ t.index ∧ code[t.index - index]? = some t.instr := by
  induction code generalizing index pending with
  | nil => cases h
  | cons i code ih =>
    rcases List.mem_cons.1 h with rfl | h
    · simp
    · obtain ⟨hle, hget⟩ := ih h
      refine ⟨by omega, ?_⟩
      rw [show t.index - index = t.index - (index + 1) + 1 by omega, List.getElem?_cons_succ]
      exact hget

/-- There is one line for each index. -/
theorem eq_of_mem_stops {c : List Instr} {t t' : Stop} (h : t ∈ stops index pending c)
    (h' : t' ∈ stops index pending c) (heq : t.index = t'.index) : t = t' := by
  induction c generalizing index pending with
  | nil => cases h
  | cons i c ih =>
    rcases List.mem_cons.1 h with rfl | h
    · rcases List.mem_cons.1 h' with rfl | h'
      · rfl
      · have hle := (getElem?_of_mem_stops h').1
        dsimp only at heq
        omega
    · rcases List.mem_cons.1 h' with rfl | h'
      · have hle := (getElem?_of_mem_stops h).1
        dsimp only at heq
        omega
      · exact ih h h'

/-- Behind each line there is another one, unless the code ends there. -/
theorem mem_stops_next {c : List Instr} {t : Stop} (h : t ∈ stops index pending c)
    (hlast : c.getLast? = some .ret) (ht : t.instr ≠ .ret) :
    ∃ i, ⟨t.index + 1, i, t.instr.pendingBehind t.index t.pending⟩ ∈ stops index pending c := by
  induction c generalizing index pending with
  | nil => cases h
  | cons i c ih =>
    cases c with
    | nil =>
      cases List.mem_singleton.1 h
      exact absurd (Option.some.inj hlast) ht
    | cons j c =>
      rcases List.mem_cons.1 h with rfl | h
      · exact ⟨j, List.mem_cons_of_mem _ List.mem_cons_self⟩
      · obtain ⟨k, hk⟩ := ih h (by rwa [List.getLast?_cons_cons] at hlast)
        exact ⟨k, List.mem_cons_of_mem _ hk⟩

/-! ## The size of code -/

theorem length_literalCode {n : Node} {text : String} {constant : Option String} {is : List Instr}
    (h : literalCode n text constant = .ok is) : is.length = if n.ty = .unit then 0 else 1 := by
  unfold literalCode at h
  dsimp only at h
  repeat' split at h
  all_goals cases h
  all_goals simp [*]

theorem length_popArguments {k : Nat} {is : List Instr} (h : popArguments k = .ok is) :
    is.length = k := by
  induction k generalizing is with
  | zero => cases h; rfl
  | succ k ih =>
    obtain ⟨r, pops, -, hp, rfl⟩ := popArguments_succ h
    rw [List.length_cons, ih hp]

mutual

theorem Emits.length_eq {env : Surroundings} {l m : Labels} {e : Expr} {c : List Instr}
    (h : Emits env l e c m) : c.length = e.codeSize := by
  cases h with
  | literal h => rw [length_literalCode h, Expr.codeSize]
  | var | brk => rfl
  | call hmax ha hp => simp [Expr.codeSize, ha.length_eq, length_popArguments hp]; omega
  | block hb hr => simp [Expr.codeSize, hb.length_eq, hr.length_eq]
  | bind hv | assign hv => simp [Expr.codeSize, hv.length_eq]
  | binary hr hl => simp [Expr.codeSize, hr.length_eq, hl.length_eq]; omega
  | unary h => simp [Expr.codeSize, h.length_eq]
  | group h => rw [h.length_eq, Expr.codeSize]
  | branch hc ht hf => simp [Expr.codeSize, hc.length_eq, ht.length_eq, hf.length_eq]; omega
  | ret h => simp [Expr.codeSize, h.length_eq]
  | loop hc hb => simp [Expr.codeSize, hc.length_eq, hb.length_eq]; omega

theorem EmitsAll.length_eq {env : Surroundings} {l m : Labels} {es : List Expr} {c : List Instr}
    (h : EmitsAll env l es c m) : c.length = allSize es := by
  cases h with
  | nil => rfl
  | cons he hes => rw [List.length_append, he.length_eq, hes.length_eq, allSize]

theorem EmitsArguments.length_eq {env : Surroundings} {l m : Labels} {es : List Expr}
    {c : List Instr} (h : EmitsArguments env l es c m) : c.length = argumentsSize es := by
  cases h with
  | nil => rfl
  | cons he hes => simp [argumentsSize, he.length_eq, hes.length_eq]; omega

theorem EmitsOpt.length_eq {env : Surroundings} {l m : Labels} {e : Option Expr} {c : List Instr}
    (h : EmitsOpt env l e c m) : c.length = optSize e := by
  cases h with
  | none => rfl
  | some h => exact h.length_eq

end

/-! ## Code takes off what it puts on the stack -/

/-- An instruction that neither uses the stack nor jumps. -/
def Instr.isQuiet : Instr → Bool
  | push _ | pop _ | jmp _ | je _ => false
  | _ => true

theorem pendingBehind_of_quiet {c : List Instr} (h : ∀ i ∈ c, i.isQuiet = true) :
    pendingBehind index pending c = pending := by
  induction c generalizing index with
  | nil => rfl
  | cons i c ih =>
    obtain ⟨hi, hc⟩ := List.forall_mem_cons.1 h
    have hbehind : i.pendingBehind index pending = pending := by
      cases i <;> first | rfl | cases hi
    rw [pendingBehind, hbehind]
    exact ih hc

theorem literalCode_quiet {n : Node} {text : String} {constant : Option String} {is : List Instr}
    (h : literalCode n text constant = .ok is) : ∀ i ∈ is, i.isQuiet = true := by
  unfold literalCode at h
  dsimp only at h
  repeat' split at h
  all_goals cases h
  all_goals simp [Instr.isQuiet]

theorem storeParams_quiet {frame : Frame} {first : Nat} {ps : List Param} {is : List Instr}
    (h : storeParams frame first ps = .ok is) : is.length = ps.length ∧ ∀ i ∈ is, i.isQuiet = true := by
  induction ps generalizing first is with
  | nil => cases h; simp
  | cons p ps ih =>
    obtain ⟨r, place, stores, -, -, hs, rfl⟩ := storeParams_cons h
    simpa [Instr.isQuiet] using ih hs

theorem BinaryOp.code_quiet (op : BinaryOp) : ∀ i ∈ op.code, i.isQuiet = true := by
  cases op <;> decide

theorem UnaryOp.code_quiet (op : UnaryOp) : ∀ i ∈ op.code, i.isQuiet = true := by
  cases op <;> decide

theorem pendingBehind_popArguments {k : Nat} {pops : List Instr} (h : popArguments k = .ok pops)
    {pushes : List Nat} (hlength : pushes.length = k) :
    pendingBehind index (pushes ++ pending) pops = pending := by
  induction k generalizing index pops pushes with
  | zero =>
    cases h
    rw [List.length_eq_zero_iff.1 hlength]
    rfl
  | succ k ih =>
    obtain ⟨r, pops, -, hp, rfl⟩ := popArguments_succ h
    obtain ⟨push, pushes, rfl⟩ := List.exists_cons_of_length_eq_add_one hlength
    exact ih hp (Nat.succ.inj hlength)

theorem length_argumentPushes (start : Nat) (es : List Expr) :
    (argumentPushes start es).length = es.length := by
  induction es generalizing start with
  | nil => rfl
  | cons e es ih => rw [argumentPushes, List.length_cons, List.length_cons, ih]

mutual

/-- Behind the code of an expression the same pushes are outstanding as before it. -/
theorem Emits.pendingBehind_eq {env : Surroundings} {l m : Labels} {e : Expr} {c : List Instr}
    (h : Emits env l e c m) (index : Nat) (pending : List Nat) :
    pendingBehind index pending c = pending := by
  cases h with
  | literal h => exact pendingBehind_of_quiet (literalCode_quiet h)
  | var | brk => rfl
  | call hmax ha hp =>
    rw [pendingBehind_append, pendingBehind_append, ha.pendingBehind_eq,
      pendingBehind_popArguments hp (by rw [List.length_reverse, length_argumentPushes])]
    rfl
  | block hb hr => rw [pendingBehind_append, hb.pendingBehind_eq, hr.pendingBehind_eq]
  | bind hv | assign hv => rw [pendingBehind_append, hv.pendingBehind_eq]; rfl
  | binary hr hl =>
    rw [pendingBehind_append, hr.pendingBehind_eq, pendingBehind, pendingBehind_append,
      hl.pendingBehind_eq]
    exact pendingBehind_of_quiet (BinaryOp.code_quiet _)
  | unary h =>
    rw [pendingBehind_append, h.pendingBehind_eq, pendingBehind_of_quiet (UnaryOp.code_quiet _)]
  | group h => exact h.pendingBehind_eq index pending
  | branch hc ht hf =>
    rw [pendingBehind_append, hc.pendingBehind_eq]
    simp only [pendingBehind, Instr.pendingBehind]
    rw [pendingBehind_append, ht.pendingBehind_eq]
    simp only [pendingBehind, Instr.pendingBehind]
    rw [pendingBehind_append, hf.pendingBehind_eq]
    rfl
  | ret h => rw [pendingBehind_append, h.pendingBehind_eq]; rfl
  | loop hc hb =>
    rw [pendingBehind, pendingBehind_append, hc.pendingBehind_eq]
    simp only [pendingBehind, Instr.pendingBehind]
    rw [pendingBehind_append, hb.pendingBehind_eq]
    rfl

theorem EmitsAll.pendingBehind_eq {env : Surroundings} {l m : Labels} {es : List Expr}
    {c : List Instr} (h : EmitsAll env l es c m) (index : Nat) (pending : List Nat) :
    pendingBehind index pending c = pending := by
  cases h with
  | nil => rfl
  | cons he hes => rw [pendingBehind_append, he.pendingBehind_eq, hes.pendingBehind_eq]

/-- Behind the code of arguments their pushes are outstanding. -/
theorem EmitsArguments.pendingBehind_eq {env : Surroundings} {l m : Labels} {es : List Expr}
    {c : List Instr} (h : EmitsArguments env l es c m) (index : Nat) (pending : List Nat) :
    pendingBehind index pending c = (argumentPushes index es).reverse ++ pending := by
  cases h with
  | nil => rfl
  | cons he hes =>
    rw [pendingBehind_append, he.pendingBehind_eq, pendingBehind, hes.pendingBehind_eq, he.length_eq]
    simp [argumentPushes, Instr.pendingBehind]

theorem EmitsOpt.pendingBehind_eq {env : Surroundings} {l m : Labels} {e : Option Expr}
    {c : List Instr} (h : EmitsOpt env l e c m) (index : Nat) (pending : List Nat) :
    pendingBehind index pending c = pending := by
  cases h with
  | none => rfl
  | some h => exact h.pendingBehind_eq index pending

end

/-! ## Jumps and pops -/

/-- A jump goes to a label where the same pushes are outstanding, and a pop takes the word of the push
that belongs to it. -/
def Stop.Sound (all : List Stop) (pairs : List (Nat × Nat)) (t : Stop) : Prop :=
  match t.instr with
  | .jmp label | .je label => ∃ u ∈ all, u.instr = .label label ∧ u.pending = t.pending
  | .pop _ => ∃ push rest, t.pending = push :: rest ∧ (push, t.index) ∈ pairs
  | _ => True

variable {all : List Stop} {pairs : List (Nat × Nat)}

theorem sound_of_quiet {c : List Instr} (h : ∀ i ∈ c, i.isQuiet = true) :
    ∀ t ∈ stops index pending c, t.Sound all pairs := by
  induction c generalizing index pending with
  | nil => simp [stops]
  | cons i c ih =>
    obtain ⟨hi, hc⟩ := List.forall_mem_cons.1 h
    refine List.forall_mem_cons.2 ⟨?_, ih hc⟩
    cases i <;> first | exact trivial | cases hi

theorem sound_popArguments {k : Nat} {pops : List Instr} (h : popArguments k = .ok pops)
    {pushes : List Nat} (hlength : pushes.length = k)
    (hpairs : ∀ x ∈ pushes.zip (List.range' index k), x ∈ pairs) :
    ∀ t ∈ stops index (pushes ++ pending) pops, t.Sound all pairs := by
  induction k generalizing index pops pushes with
  | zero =>
    cases h
    simp [stops]
  | succ k ih =>
    obtain ⟨r, pops, -, hp, rfl⟩ := popArguments_succ h
    obtain ⟨push, pushes, rfl⟩ := List.exists_cons_of_length_eq_add_one hlength
    rw [List.range'_succ, List.zip_cons_cons, List.forall_mem_cons] at hpairs
    refine List.forall_mem_cons.2 ⟨⟨push, pushes ++ pending, rfl, hpairs.1⟩, ?_⟩
    exact ih hp (Nat.succ.inj hlength) hpairs.2

mutual

/-- In the code of an expression all jumps and pops are sound, if the label of the loop around it
stands where the same pushes are outstanding as where a `break` may stand. -/
theorem Emits.sound {env : Surroundings} {l m : Labels} {e : Expr} {c : List Instr} {clear : Bool}
    {index : Nat} {pending outer : List Nat} (h : Emits env l e c m)
    (hclear : e.breaksClear clear = true) (houter : clear = true → pending = outer)
    (hloop : ∀ label, env.frame.currentLoop? = some label →
      ∃ u ∈ all, u.instr = .label label ∧ u.pending = outer)
    (hall : ∀ t ∈ stops index pending c, t ∈ all) (hpairs : ∀ x ∈ e.pairs index, x ∈ pairs) :
    ∀ t ∈ stops index pending c, t.Sound all pairs := by
  cases h with
  | literal h => exact sound_of_quiet (literalCode_quiet h)
  | var => exact sound_of_quiet (by simp [Instr.isQuiet])
  | call hmax ha hp =>
    simp only [Expr.pairs, List.forall_mem_append] at hpairs
    simp only [stops_append, ha.pendingBehind_eq, ha.length_eq, List.forall_mem_append] at hall ⊢
    refine ⟨ha.sound hclear houter hloop hall.1 hpairs.1, ?_, sound_of_quiet (by simp [Instr.isQuiet])⟩
    exact sound_popArguments hp (by rw [List.length_reverse, length_argumentPushes]) hpairs.2
  | block hb hr =>
    simp only [Expr.breaksClear, Bool.and_eq_true] at hclear
    simp only [Expr.pairs, List.forall_mem_append] at hpairs
    simp only [stops_append, hb.pendingBehind_eq, hb.length_eq, List.forall_mem_append] at hall ⊢
    exact ⟨hb.sound hclear.1 houter hloop hall.1 hpairs.1,
      hr.sound hclear.2 houter hloop hall.2 hpairs.2⟩
  | bind hv | assign hv =>
    simp only [stops_append, List.forall_mem_append] at hall ⊢
    exact ⟨hv.sound hclear houter hloop hall.1 hpairs, sound_of_quiet (by simp [Instr.isQuiet])⟩
  | binary hr hl =>
    simp only [Expr.breaksClear, Bool.and_eq_true] at hclear
    simp only [Expr.pairs, List.forall_mem_append, List.forall_mem_cons] at hpairs
    simp only [stops_append, stops, hr.pendingBehind_eq, hl.pendingBehind_eq, hr.length_eq,
      hl.length_eq, Instr.pendingBehind, List.tail_cons, List.forall_mem_append,
      List.forall_mem_cons] at hall ⊢
    obtain ⟨⟨hpr, hpl⟩, hsecond, hfirst, -⟩ := hpairs
    refine ⟨hr.sound hclear.1 houter hloop hall.1 hpr, trivial, ?_, trivial, ⟨_, _, rfl, hsecond⟩,
      ⟨_, _, rfl, hfirst⟩, sound_of_quiet (BinaryOp.code_quiet _)⟩
    exact hl.sound hclear.2 (by simp) hloop hall.2.2.1 hpl
  | unary h =>
    simp only [stops_append, List.forall_mem_append] at hall ⊢
    exact ⟨h.sound hclear houter hloop hall.1 hpairs, sound_of_quiet (UnaryOp.code_quiet _)⟩
  | group h => exact h.sound hclear houter hloop hall hpairs
  | branch hc ht hf =>
    simp only [Expr.breaksClear, Bool.and_eq_true] at hclear
    simp only [Expr.pairs, List.forall_mem_append] at hpairs
    simp only [stops_append, stops, hc.pendingBehind_eq, ht.pendingBehind_eq, hf.pendingBehind_eq,
      hc.length_eq, ht.length_eq, hf.length_eq, Instr.pendingBehind, List.forall_mem_append,
      List.forall_mem_cons] at hall ⊢
    obtain ⟨hac, -, -, hat, -, helse, haf, hend, -⟩ := hall
    exact ⟨hc.sound hclear.1.1 houter hloop hac hpairs.1.1, trivial, ⟨_, helse, rfl, rfl⟩,
      ht.sound hclear.1.2 houter hloop hat hpairs.1.2, ⟨_, hend, rfl, rfl⟩, trivial,
      hf.sound hclear.2 houter hloop haf hpairs.2, trivial, by simp⟩
  | ret h =>
    simp only [stops_append, List.forall_mem_append] at hall ⊢
    exact ⟨h.sound hclear houter hloop hall.1 hpairs, sound_of_quiet (by simp [Instr.isQuiet])⟩
  | loop hc hb =>
    simp only [Expr.breaksClear, Bool.and_eq_true] at hclear
    simp only [Expr.pairs, List.forall_mem_append] at hpairs
    simp only [stops_append, stops, hc.pendingBehind_eq, hb.pendingBehind_eq, hc.length_eq,
      hb.length_eq, Instr.pendingBehind, List.forall_mem_append, List.forall_mem_cons] at hall ⊢
    obtain ⟨hstart, hac, -, -, hab, -, hend, -⟩ := hall
    -- The label behind the loop stands where the same pushes are outstanding as in front of it.
    have hinner : ∀ label, (env.inLoop l.loopEnd).frame.currentLoop? = some label →
        ∃ u ∈ all, u.instr = .label label ∧ u.pending = pending := by
      rintro _ ⟨⟩
      exact ⟨_, hend, rfl, rfl⟩
    exact ⟨trivial, hc.sound hclear.1 (fun _ => rfl) hinner hac hpairs.1, trivial,
      ⟨_, hend, rfl, rfl⟩, hb.sound hclear.2 (fun _ => rfl) hinner hab hpairs.2,
      ⟨_, hstart, rfl, rfl⟩, trivial, by simp⟩
  | brk hlabel =>
    obtain rfl := houter hclear
    simpa [stops, Stop.Sound] using hloop _ hlabel

theorem EmitsAll.sound {env : Surroundings} {l m : Labels} {es : List Expr} {c : List Instr}
    {clear : Bool} {index : Nat} {pending outer : List Nat} (h : EmitsAll env l es c m)
    (hclear : allBreakClear clear es = true) (houter : clear = true → pending = outer)
    (hloop : ∀ label, env.frame.currentLoop? = some label →
      ∃ u ∈ all, u.instr = .label label ∧ u.pending = outer)
    (hall : ∀ t ∈ stops index pending c, t ∈ all) (hpairs : ∀ x ∈ allPairs index es, x ∈ pairs) :
    ∀ t ∈ stops index pending c, t.Sound all pairs := by
  cases h with
  | nil => simp [stops]
  | cons he hes =>
    simp only [allBreakClear, Bool.and_eq_true] at hclear
    simp only [allPairs, List.forall_mem_append] at hpairs
    simp only [stops_append, he.pendingBehind_eq, he.length_eq, List.forall_mem_append] at hall ⊢
    exact ⟨he.sound hclear.1 houter hloop hall.1 hpairs.1,
      hes.sound hclear.2 houter hloop hall.2 hpairs.2⟩

theorem EmitsArguments.sound {env : Surroundings} {l m : Labels} {es : List Expr} {c : List Instr}
    {clear : Bool} {index : Nat} {pending outer : List Nat} (h : EmitsArguments env l es c m)
    (hclear : argumentsBreakClear clear es = true) (houter : clear = true → pending = outer)
    (hloop : ∀ label, env.frame.currentLoop? = some label →
      ∃ u ∈ all, u.instr = .label label ∧ u.pending = outer)
    (hall : ∀ t ∈ stops index pending c, t ∈ all)
    (hpairs : ∀ x ∈ argumentsPairs index es, x ∈ pairs) :
    ∀ t ∈ stops index pending c, t.Sound all pairs := by
  cases h with
  | nil => simp [stops]
  | cons he hes =>
    simp only [argumentsBreakClear, Bool.and_eq_true] at hclear
    simp only [argumentsPairs, List.forall_mem_append] at hpairs
    simp only [stops_append, stops, he.pendingBehind_eq, he.length_eq, Instr.pendingBehind,
      List.forall_mem_append, List.forall_mem_cons] at hall ⊢
    exact ⟨he.sound hclear.1 houter hloop hall.1 hpairs.1, trivial,
      hes.sound hclear.2 (by simp) hloop hall.2.2 hpairs.2⟩

theorem EmitsOpt.sound {env : Surroundings} {l m : Labels} {e : Option Expr} {c : List Instr}
    {clear : Bool} {index : Nat} {pending outer : List Nat} (h : EmitsOpt env l e c m)
    (hclear : optBreaksClear clear e = true) (houter : clear = true → pending = outer)
    (hloop : ∀ label, env.frame.currentLoop? = some label →
      ∃ u ∈ all, u.instr = .label label ∧ u.pending = outer)
    (hall : ∀ t ∈ stops index pending c, t ∈ all) (hpairs : ∀ x ∈ optPairs index e, x ∈ pairs) :
    ∀ t ∈ stops index pending c, t.Sound all pairs := by
  cases h with
  | none => exact sound_of_quiet (by simp [unitCode, Instr.isQuiet])
  | some h => exact h.sound hclear houter hloop hall hpairs

end

/-! ## Paths keep to the lines -/

/-- If each label stands in one place only, that is where a jump goes. -/
theorem idxOf?_label {program : List Instr} {name : String} {k : Nat}
    (hnodup : (Instr.labels program).Nodup) (h : program[k]? = some (.label name)) :
    program.idxOf? (.label name) = some k := by
  induction program generalizing k with
  | nil => cases h
  | cons i program ih =>
    rw [Instr.labels_cons] at hnodup
    cases k with
    | zero =>
      cases h
      simp [List.idxOf?_cons]
    | succ k =>
      rw [List.getElem?_cons_succ] at h
      have hne : i ≠ .label name := by
        rintro rfl
        refine (List.nodup_cons.1 hnodup).1 ?_
        exact List.mem_filterMap.2 ⟨.label name, List.mem_of_getElem? h, rfl⟩
      rw [List.idxOf?_cons, ih (List.nodup_append.1 hnodup).2.1 h]
      simp [hne]

/-- The lines of the code of a function, in a program: a path that is on one of them stays on them. -/
structure Lines (program : List Instr) (pairs : List (Nat × Nat)) (all : List Stop) : Prop where
  nodup : (Instr.labels program).Nodup
  instr : ∀ t ∈ all, program[t.index]? = some t.instr
  unique : ∀ t ∈ all, ∀ u ∈ all, t.index = u.index → t = u
  next : ∀ t ∈ all, t.instr ≠ .ret →
    ∃ i, ⟨t.index + 1, i, t.instr.pendingBehind t.index t.pending⟩ ∈ all
  sound : ∀ t ∈ all, t.Sound all pairs

namespace Lines

variable {program : List Instr} {s s' : Spot}

theorem jump (h : Lines program pairs all) {t : Stop} {label : String}
    (ht : ∃ u ∈ all, u.instr = .label label ∧ u.pending = t.pending)
    (hs : (program.idxOf? (.label label)).map (fun i => (⟨i, t.pending⟩ : Spot)) = some s) :
    ∃ i, ⟨s.index, i, s.pending⟩ ∈ all := by
  obtain ⟨u, hu, hlabel, hpending⟩ := ht
  have hindex := h.instr u hu
  rw [hlabel] at hindex
  rw [idxOf?_label h.nodup hindex] at hs
  cases hs
  exact ⟨u.instr, hpending ▸ hu⟩

/-- One step of a path goes from line to line. -/
theorem step (h : Lines program pairs all) {i : Instr} (hs : ⟨s.index, i, s.pending⟩ ∈ all)
    {taken : Bool} (hstep : s.step program taken = some s') :
    ∃ j, ⟨s'.index, j, s'.pending⟩ ∈ all := by
  have hsound := h.sound _ hs
  unfold Spot.step at hstep
  dsimp only at hstep
  rw [h.instr _ hs] at hstep
  cases i with
  | leave | ret => cases hstep
  | push r =>
    cases hstep
    exact h.next _ hs (by simp)
  | pop r =>
    obtain ⟨push, rest, hpending, -⟩ := hsound
    dsimp only at hstep hpending
    rw [hpending] at hstep hs
    cases hstep
    exact h.next _ hs (by simp)
  | jmp label => exact h.jump hsound hstep
  | je label =>
    cases taken with
    | true => exact h.jump hsound hstep
    | false =>
      cases hstep
      exact h.next _ hs (by simp)
  | _ =>
    cases hstep
    exact h.next _ hs (by simp)

/-- A path stays on the lines. -/
theorem follow (h : Lines program pairs all) {i : Instr} (hs : ⟨s.index, i, s.pending⟩ ∈ all)
    {choices : List Bool} (hfollow : s.follow program choices = some s') :
    ∃ j, ⟨s'.index, j, s'.pending⟩ ∈ all := by
  induction choices generalizing s i with
  | nil =>
    cases hfollow
    exact ⟨i, hs⟩
  | cons taken choices ih =>
    obtain ⟨t, hstep, hrest⟩ := Option.bind_eq_some_iff.1 hfollow
    obtain ⟨j, hj⟩ := h.step hs hstep
    exact ih hj hrest

end Lines

/-- The code of a function behind its first instructions is gone through on its lines. -/
theorem Function.TranslatedAt.lines {f : Function} {program start : List Instr} {frame : Frame}
    (h : f.TranslatedAt program frame start) (hclear : f.body.breaksClear true = true) :
    ∃ before size behind, program = before ++ .label f.ident.name :: .push .rbp ::
        .mov Reg.rsp Reg.rbp :: .sub (.imm size) Reg.rsp :: behind ∧
      ∃ all i, Lines program (f.body.pairs (before.length + 4 + f.params.length)) all ∧
        ⟨before.length + 4, i, []⟩ ∈ all := by
  obtain ⟨functions, l, l', code, rest, hcode, rfl⟩ := h.emits
  obtain ⟨before, hbefore⟩ := h.suffix
  rw [← h.laid.function_eq]
  cases hcode with
  | intro hmax hstores hemits =>
    rename_i stores body
    obtain ⟨hlength, hquiet⟩ := storeParams_quiet hstores
    let d := stores ++ (body ++ [Instr.leave, .ret])
    have hprogram : program = before ++ .label frame.function :: .push .rbp ::
        .mov Reg.rsp Reg.rbp :: .sub (.imm frame.size) Reg.rsp :: (d ++ rest) := by
      simp [← hbefore, d]
    have hsound : ∀ all, (∀ t ∈ stops (before.length + 4) [] d, t ∈ all) →
        ∀ t ∈ stops (before.length + 4) [] d,
          t.Sound all (f.body.pairs (before.length + 4 + f.params.length)) := by
      intro all hall
      simp only [d, stops_append, pendingBehind_of_quiet hquiet, hlength,
        List.forall_mem_append] at hall ⊢
      refine ⟨sound_of_quiet hquiet, ?_, sound_of_quiet (by simp [Instr.isQuiet])⟩
      refine hemits.sound hclear (fun _ => rfl) ?_ hall.2.1 (fun x hx => hx)
      intro label hlabel
      rw [h.laid.currentLoop?_eq] at hlabel
      cases hlabel
    obtain ⟨i, d', hd⟩ := List.exists_cons_of_ne_nil (show d ≠ [] by simp [d])
    refine ⟨before, frame.size, d ++ rest, hprogram, stops (before.length + 4) [] d, i,
      ⟨h.nodup, ?_, ?_, ?_, ?_⟩, ?_⟩
    · intro t ht
      obtain ⟨hle, hget⟩ := getElem?_of_mem_stops ht
      have hlt := (List.getElem?_eq_some_iff.1 hget).1
      rw [hprogram, List.getElem?_append_right (by omega),
        show t.index - before.length = t.index - (before.length + 4) + 4 by omega]
      simp only [List.getElem?_cons_succ]
      rw [List.getElem?_append_left hlt, hget]
    · intro t ht u hu heq
      exact eq_of_mem_stops ht hu heq
    · intro t ht hne
      exact mem_stops_next ht (by simp [d]) hne
    · exact hsound _ fun t ht => ht
    · rw [hd]
      exact List.mem_cons_self

/-- Pushes and pops match along every path, if no `break` leaves a loop while a word waits that was
pushed inside the loop: behind the first instructions of a function, the pushes whose words are
outstanding depend on the place alone and not on the path, and a pop takes the word of the push that
belongs to it. -/
theorem Program.pops_matched {p : Program} {options : GenOptions} {assembly : Assembly}
    {labels : Labels} {f : Function} (hp : p.Written) (hclean : p.analyze.report = [])
    (hgen : (p.analyze.program.generate options).result = .ok (assembly, labels))
    (hf : f ∈ (p.analyze.program.generate options).program.functions)
    (hclear : f.body.breaksClear true = true) :
    ∃ before size behind, Instr.plain assembly.code = before ++ .label f.ident.name ::
        .push .rbp :: .mov Reg.rsp Reg.rbp :: .sub (.imm size) Reg.rsp :: behind ∧
      let start : Spot := ⟨before.length + 4, []⟩
      ∀ choices s, start.follow (Instr.plain assembly.code) choices = some s →
        (∀ choices' s', start.follow (Instr.plain assembly.code) choices' = some s' →
          s'.index = s.index → s'.pending = s.pending) ∧
        ∀ r, (Instr.plain assembly.code)[s.index]? = some (.pop r) →
          ∃ push rest, s.pending = push :: rest ∧
            (push, s.index) ∈ f.body.pairs (start.index + f.params.length) := by
  obtain ⟨frame, first, htranslated⟩ := Program.translated hp hclean hgen f hf
  obtain ⟨before, size, behind, hprogram, all, i, hlines, hstart⟩ := htranslated.lines hclear
  refine ⟨before, size, behind, hprogram, ?_⟩
  intro start choices s hs
  obtain ⟨j, hj⟩ := hlines.follow (s := start) hstart hs
  constructor
  · intro choices' s' hs' hindex
    obtain ⟨j', hj'⟩ := hlines.follow (s := start) hstart hs'
    exact congrArg Stop.pending (hlines.unique _ hj' _ hj hindex)
  · intro r hr
    have hinstr := hlines.instr _ hj
    rw [hr] at hinstr
    cases hinstr
    exact hlines.sound _ hj

/-- Operands and arguments in each other, in a loop that is left. -/
def Program.nestedText : String :=
  "extrn int add(int a, int b) int main(int n, bool go) " ++
    braced ("let k: int = n; while go " ++
      braced ("k = add(k * n, n - k) + n; if go " ++ braced "break;" ++ ";") ++ "; k / n")

/-- The pops of the text: the operands of `*`, those of `-`, both arguments, the operands of `+` and
those of `/`. -/
theorem Program.pops_matched_nested :
    ∃ (p : Program) (assembly : Assembly) (labels : Labels) (f : Function),
      p.Written ∧ p.analyze.report = [] ∧
      (p.analyze.program.generate {}).result = .ok (assembly, labels) ∧
      f ∈ (p.analyze.program.generate {}).program.functions ∧ f.body.breaksClear true = true ∧
      f.body.pairs 0 = [(11, 12), (9, 13), (19, 20), (17, 21), (23, 24), (15, 25), (28, 29), (7, 30),
        (48, 49), (46, 50)] ∧
      ∃ before size behind, Instr.plain assembly.code = before ++ .label f.ident.name ::
          .push .rbp :: .mov Reg.rsp Reg.rbp :: .sub (.imm size) Reg.rsp :: behind ∧
        let start : Spot := ⟨before.length + 4, []⟩
        ∀ choices s, start.follow (Instr.plain assembly.code) choices = some s →
          (∀ choices' s', start.follow (Instr.plain assembly.code) choices' = some s' →
            s'.index = s.index → s'.pending = s.pending) ∧
          ∀ r, (Instr.plain assembly.code)[s.index]? = some (.pop r) →
            ∃ push rest, s.pending = push :: rest ∧
              (push, s.index) ∈ f.body.pairs (start.index + f.params.length) := by
  have hcheck : compilesWith Program.nestedText (fun _ f => f.body.breaksClear true &&
      f.body.pairs 0 == [(11, 12), (9, 13), (19, 20), (17, 21), (23, 24), (15, 25), (28, 29), (7, 30),
        (48, 49), (46, 50)]) := by
    decide +kernel
  obtain ⟨p, assembly, labels, f, hwritten, hclean, hgen, hf, h⟩ := exists_of_compilesWith hcheck
  obtain ⟨hclear, hpairs⟩ := Bool.and_eq_true_iff.1 h
  exact ⟨p, assembly, labels, f, hwritten, hclean, hgen, hf, hclear, beq_iff_eq.1 hpairs,
    Program.pops_matched hwritten hclean hgen hf hclear⟩

/-- A `break` in an operand that is evaluated while the other one waits. -/
def Program.leakText : String :=
  "int main(int b) " ++ braced (braced ("while true " ++
    braced ("let x: int = " ++ braced "break; 3" ++ " + 2;") ++ "; b") ++ " + 7")

/-- Without the condition on `break` pushes and pops do not match: the pop at `28` belongs to the push
at `8`, but on the path that leaves the loop by its `break` it takes the word of the push at `14`. -/
theorem Program.pops_unmatched_leak :
    ∃ (p : Program) (assembly : Assembly) (labels : Labels) (f : Function),
      p.Written ∧ p.analyze.report = [] ∧
      (p.analyze.program.generate {}).result = .ok (assembly, labels) ∧
      f ∈ (p.analyze.program.generate {}).program.functions ∧
      (Instr.plain assembly.code)[2]? = some (.label f.ident.name) ∧
      f.body.pairs (6 + f.params.length) = [(17, 18), (14, 19), (26, 27), (8, 28)] ∧
      (Instr.plain assembly.code)[28]? = some (.pop .rbx) ∧
      Spot.follow (Instr.plain assembly.code) (List.replicate 11 true) ⟨6, []⟩ = some ⟨28, [8]⟩ ∧
      Spot.follow (Instr.plain assembly.code) (List.replicate 14 false) ⟨6, []⟩ =
        some ⟨28, [14, 8]⟩ := by
  have hcheck : compilesWith Program.leakText (fun assembly f =>
      (Instr.plain assembly.code)[2]? == some (.label f.ident.name) &&
      f.body.pairs (6 + f.params.length) == [(17, 18), (14, 19), (26, 27), (8, 28)] &&
      (Instr.plain assembly.code)[28]? == some (.pop .rbx) &&
      Spot.follow (Instr.plain assembly.code) (List.replicate 11 true) ⟨6, []⟩ == some ⟨28, [8]⟩ &&
      Spot.follow (Instr.plain assembly.code) (List.replicate 14 false) ⟨6, []⟩ ==
        some ⟨28, [14, 8]⟩) := by
    decide +kernel
  obtain ⟨p, assembly, labels, f, hwritten, hclean, hgen, hf, h⟩ := exists_of_compilesWith hcheck
  simp only [Bool.and_eq_true, beq_iff_eq] at h
  obtain ⟨⟨⟨⟨hlabel, hpairs⟩, hpop⟩, hright⟩, hwrong⟩ := h
  exact ⟨p, assembly, labels, f, hwritten, hclean, hgen, hf, hlabel, hpairs, hpop, hright, hwrong⟩

end Ilang
