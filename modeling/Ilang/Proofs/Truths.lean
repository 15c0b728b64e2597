import Ilang.Proofs.Conformity
import Ilang.Proofs.Preservation
import Ilang.Proofs.Processes
/-!
# Truth values in a run

A word is a truth value if it is zero or one. `Fits` says of a machine inside a function, besides
what `Holds` does, that each visible variable of type `bool` has such a word. A `Scene` is what
surrounds a run of the code of an expression; it is ready if calls of other functions and the return
from this one are safe (`Scene.Ready`). The lemmas say of single pieces of code that they are safe
if what follows them is: straight code, tests, operators and calls.
-/
namespace Ilang

/-! ## Words -/

/-- A word that stands for a truth value, which is zero or one. -/
def IsTruth (w : Word) : Prop := ∃ b, w = truth b

theorem truth_and (a b : Bool) : truth a &&& truth b = truth (a && b) := by
  cases a <;> cases b <;> rfl

theorem truth_or (a b : Bool) : truth a ||| truth b = truth (a || b) := by
  cases a <;> cases b <;> rfl

/-- The logical connective that an operator stands for. -/
def BinaryOp.connective? : BinaryOp → Option (Bool → Bool → Bool)
  | and => some fun a b => a && b
  | or => some fun a b => a || b
  | _ => none

/-- Between truth values, an operator on bits is a logical connective. -/
theorem BinaryOp.apply_connective {op : BinaryOp} {f : Bool → Bool → Bool}
    (h : op.connective? = some f) (a b : Bool) :
    op.apply (truth a) (truth b) = some (truth (f a b)) := by
  cases op with
  | and =>
    cases h
    exact congrArg some (truth_and a b)
  | or =>
    cases h
    exact congrArg some (truth_or a b)
  | _ => cases h

/-- The operators that apply to truth values make truth values of them. -/
theorem BinaryOp.isTruth_apply {op : BinaryOp} (hop : op.appliesTo .bool = true) {a b w : Word}
    (ha : IsTruth a) (hb : IsTruth b) (h : op.apply a b = some w) : IsTruth w := by
  obtain ⟨a, rfl⟩ := ha
  obtain ⟨b, rfl⟩ := hb
  cases op with
  | eq | ne =>
    cases h
    exact ⟨_, rfl⟩
  | and =>
    cases h
    exact ⟨_, truth_and a b⟩
  | or =>
    cases h
    exact ⟨_, truth_or a b⟩
  | _ => exact absurd hop (by decide)

theorem UnaryOp.isTruth_apply {op : UnaryOp} (hop : op.appliesTo .bool = true) (a : Word) :
    IsTruth (op.apply a) := by
  cases op with
  | not => exact ⟨_, rfl⟩
  | neg => exact absurd hop (by decide)

/-- The literals of type `bool` are truth values. -/
theorem Literal.isTruth_word {world : World} {latest w : Word} {text : String}
    {constant : Option String} (ht : Literal.type? text = some .bool)
    (h : Literal.word world latest text constant = some w) : IsTruth w := by
  rw [Literal.word, ht] at h
  cases h
  exact ⟨_, rfl⟩

/-! ## What is told of a place -/

/-- The visible variables of type `bool` are truth values. -/
def Machine.ShowsTruths (m : Machine) (frame : Frame) : Prop :=
  ∀ x ∈ frame.scopes.chain.flatten, ∀ v, frame.vars[x.2]? = some v → v.ty = .bool →
    ∃ b, m.read (.mem v.offset .rbp) = some (.word (truth b))

/-- Where the code of an expression of type `bool` ends, `rax` is a truth value, and so are the
visible variables of type `bool` wherever the code of an expression ends. Where an operator takes
operands of type `bool`, both are truth values, and if it is written like a connective, its code
computes that. -/
def Note.Truthful (world : World) : Note → Machine → Prop
  | .done e frame, m =>
    (e.ty = .bool → ∃ b, m.regs .rax = .word (truth b)) ∧ m.ShowsTruths frame
  | .operands op left right, m => left.ty = .bool → right.ty = .bool →
    ∃ a b, m.regs .rax = .word (truth a) ∧ m.regs .rbx = .word (truth b) ∧
      ∀ f, op.connective? = some f → ∃ m', Point.Reaches world [] ⟨op.code, m⟩ ⟨[], m'⟩ ∧
        m'.regs .rax = .word (truth (f a b))

/-- The operands of an operator are as its note tells. -/
theorem Note.truthful_operands {world : World} {op : BinaryOp} {left right : Expr} {m : Machine}
    {a b : Word} (ha : m.regs .rax = .word a) (hb : m.regs .rbx = .word b)
    (hleft : left.ty = .bool → IsTruth a) (hright : right.ty = .bool → IsTruth b) :
    (Note.operands op left right).Truthful world m := by
  intro hl hr
  obtain ⟨a, rfl⟩ := hleft hl
  obtain ⟨b, rfl⟩ := hright hr
  refine ⟨a, b, ha, hb, fun f hf => ?_⟩
  have hcode := @BinaryOp.reaches_code world [] op m _ _ ha hb []
  rw [BinaryOp.apply_connective hf, List.append_nil] at hcode
  obtain ⟨m', hreach, hrax, -⟩ := hcode
  exact ⟨m', hreach, hrax⟩

/-! ## Variables -/

/-- A variable of a frame has the type `bool`. -/
def Frame.IsBool (frame : Frame) (k : Nat) : Prop := ∃ v, frame.vars[k]? = some v ∧ v.ty = .bool

theorem Frame.isBool_iff {frame : Frame} {i : Ident} {k : Nat} {t : Ty} (hs : i.slot = some k)
    (h : frame.typeOf? i = some t) : frame.IsBool k ↔ t = .bool := by
  rw [Frame.typeOf?, hs, Option.bind_some] at h
  obtain ⟨v, hv, rfl⟩ := Option.map_eq_some_iff.1 h
  constructor
  · rintro ⟨v', hv', hty⟩
    rw [hv] at hv'
    cases hv'
    exact hty
  · intro hty
    exact ⟨v, hv, hty⟩

/-- The values of variables of type `bool` are truth values. -/
def Frame.Truths (frame : Frame) (values : Scopes Word) (scopes : Scopes Nat) : Prop :=
  Scopes.Rel (fun w k => frame.IsBool k → IsTruth w) values scopes

/-- What two relations hold of, they hold of with one and the same value. -/
theorem Scopes.Rel.exists_of_mem {α β : Type} {R S : α → β → Prop} {s : Scopes α} {t : Scopes β}
    (h : Scopes.Rel R s t) (h' : Scopes.Rel S s t) {y : String × β}
    (hy : y ∈ t.chain.flatten) : ∃ a, R a y.2 ∧ S a y.2 := by
  have hboth : List.Forall₂ (List.Forall₂ fun x y => R x.2 y.2 ∧ S x.2 y.2) s.chain t.chain :=
    List.Forall₂.mp (fun _ _ hR hS => hR.mp (fun _ _ hr hs => ⟨hr.2, hs.2⟩) hS) h h'
  have hflat := List.rel_flatten hboth
  obtain ⟨i, rfl⟩ := List.mem_iff_get.1 hy
  exact ⟨_, hflat.get (by rw [hflat.length_eq]; exact i.2) i.2⟩

/-- The machine is inside a function, and its variables of type `bool` are truth values. -/
structure Fits (x : Site) (frame : Frame) (waiting : List Word) (scopes : Scopes Nat)
    (latest : Word) (s : Store) (m : Machine) : Prop extends
    Holds x waiting scopes latest s m where
  truths : frame.Truths s.scopes scopes

namespace Fits

variable {x : Site} {frame : Frame} {waiting : List Word} {scopes : Scopes Nat} {latest w : Word}
  {s : Store} {m m' : Machine}

theorem same (h : Fits x frame waiting scopes latest s m) (hm : m.Same m')
    (hrax : m'.regs .rax = .word w) : Fits x frame waiting scopes w s m' :=
  ⟨h.toHolds.same hm hrax, h.truths⟩

theorem enter (h : Fits x frame waiting scopes latest s m) :
    Fits x frame waiting scopes.push latest { s with scopes := s.scopes.push } m :=
  ⟨h.toHolds.enter, h.truths.push⟩

theorem leave (h : Fits x frame waiting scopes latest s m) :
    Fits x frame waiting scopes.pop latest { s with scopes := s.scopes.pop } m :=
  ⟨h.toHolds.leave, h.truths.pop⟩

theorem push (h : Fits x frame waiting scopes latest s m) :
    ∃ m', m.exec x.world (.push .rax) = some m' ∧
      Fits x frame (latest :: waiting) scopes latest s m' := by
  obtain ⟨m', hexec, h', hfilled, hregs⟩ := h.toStands.push rfl h.rax
  exact ⟨m', hexec, ⟨h', (hregs .rax (by decide)).trans h.rax, hfilled.trans h.filled⟩, h.truths⟩

/-- A new variable has a truth value if its type is `bool`. -/
theorem declare {f g : Frame} (h : Fits x frame waiting f.scopes latest s m) (hf : f.Regular)
    {name : String} {ty : Ty} {location : Location} {k : Nat}
    (hk : f.register name ty location = (.ok k, g)) (hcount : k < x.count)
    (hw : frame.IsBool k → IsTruth latest) :
    Fits x frame waiting g.scopes latest { s with scopes := s.scopes.insert name latest }
      (m.store (x.below (k + 1)) (.word latest)) := by
  refine ⟨h.toHolds.declare hf hk hcount, ?_⟩
  rw [(Frame.register_eq_ok hk).2.2.1]
  exact h.truths.insert hw

theorem assign {f : Frame} (h : Fits x frame waiting f.scopes latest s m) (hf : f.Regular)
    {name : String} {k : Nat} (hk : f.scopes.lookup name = some k) (hcount : k < x.count)
    (hw : frame.IsBool k → IsTruth latest) :
    Fits x frame waiting f.scopes latest { s with scopes := s.scopes.update name latest }
      (m.store (x.below (k + 1)) (.word latest)) :=
  ⟨h.toHolds.assign hf hk hcount,
    Scopes.Rel.update (fun _ _ _ hR => hR) hw h.truths hk hf.distinct⟩

/-- A variable of type `bool` that is read is a truth value. -/
theorem isTruth_of_lookup (h : Fits x frame waiting scopes latest s m) {name : String} {k : Nat}
    (hk : scopes.lookup name = some k) (hw : s.scopes.lookup name = some w)
    (hbool : frame.IsBool k) : IsTruth w := by
  have hrel := Scopes.Rel.lookup h.truths name
  rw [hk, hw] at hrel
  cases hrel with
  | some hR => exact hR hbool

/-- The place at the end of an expression is as its note tells. -/
theorem truthful_done (h : Fits x frame waiting scopes latest s m) {seen : Frame}
    (hvars : seen.vars = frame.vars)
    (hoffset : ∀ (k : Nat) (v : FrameVar), frame.vars[k]? = some v →
      k < x.count ∧ v.offset = -(8 * (k + 1) : Nat))
    {e : Expr} (he : e.ty = .bool → IsTruth latest) (world : World) :
    (Note.done e { seen with scopes := scopes }).Truthful world m := by
  constructor
  · intro hty
    obtain ⟨b, rfl⟩ := he hty
    exact ⟨b, h.rax⟩
  · intro y hy v hv hty
    rw [hvars] at hv
    -- The frame holds the value that the evaluation has, and that is a truth value.
    obtain ⟨w, ⟨-, hmemory⟩, htruth⟩ := Scopes.Rel.exists_of_mem h.vars h.truths hy
    obtain ⟨b, rfl⟩ := htruth ⟨v, hv, hty⟩
    refine ⟨b, ?_⟩
    simp [Machine.read, h.rbp, (hoffset _ v hv).2, x.below_succ, hmemory]

end Fits

/-! ## Straight pieces -/

theorem straight_literalCode {n : Node} {text : String} {constant : Option String} {is : List Instr}
    (h : literalCode n text constant = .ok is) : ∀ i ∈ is, i.isStraight = true := by
  unfold literalCode at h
  dsimp only at h
  repeat' split at h
  all_goals cases h
  all_goals simp [Instr.isStraight]

theorem straight_popArguments {k : Nat} {is : List Instr} (h : popArguments k = .ok is) :
    ∀ i ∈ is, i.isStraight = true := by
  intro i hi
  obtain ⟨r, rfl⟩ := mem_popArguments h i hi
  rfl

theorem BinaryOp.straight_code (op : BinaryOp) :
    ∀ i ∈ op.code, i.isStraight = true := by
  cases op <;> decide

theorem UnaryOp.straight_code (op : UnaryOp) : ∀ i ∈ op.code, i.isStraight = true := by
  cases op <;> decide

theorem straight_storeParams {frame : Frame} {index : Nat} {ps : List Param} {is : List Instr}
    (h : storeParams frame index ps = .ok is) : ∀ i ∈ is, i.isStraight = true := by
  intro i hi
  obtain ⟨src, dst, rfl⟩ := mem_storeParams h i hi
  rfl

/-! ## Scenes -/

/-- External functions that are declared to return `bool` answer with truth values. -/
def World.Honest (world : World) (externals : List External) : Prop :=
  ∀ e ∈ externals, e.returns.ty = .bool → ∀ arguments earlier w,
    world.answer (⟨e.ident.name, arguments⟩ :: earlier) = some w → IsTruth w

/-- Arguments are truth values where parameters have the type `bool`. -/
def ArgumentsFit (params : List Param) (arguments : List Word) : Prop :=
  List.Forall₂ (fun param w => param.type.ty = .bool → IsTruth w) params arguments

/-- A function returns from the run, or to a place that is safe if the function has put back what it
found and returns a truth value if its type is `bool`. -/
def ReturnsSafely (world : World) (listing : List Line) (k : Nat) (returns : Ty) (m : Machine)
    (top : Int) (callers : List (Int × List Line)) : Prop :=
  callers = [] ∨ ∃ rest others, callers = (top, rest) :: others ∧ ∀ w m', m.Restored top m' →
    m'.regs .rax = .word w → m'.filled = 0 → (returns = .bool → IsTruth w) →
    Process.Safe world listing (Note.Truthful world) k ⟨rest, m', others⟩

/-- All functions that are entered with fitting arguments are safe, if what they return to is. -/
def CallsSafe (world : World) (listing : List Line) (functions : List Function) (k : Nat) : Prop :=
  ∀ f ∈ functions, ∀ m top latest arguments callers, m.Entered top latest arguments →
    ArgumentsFit f.params arguments →
    ReturnsSafely world listing k f.returns.ty m top callers →
    ∃ code, Line.codeAt f.ident.name listing = some code ∧
      Process.Safe world listing (Note.Truthful world) k ⟨code, m, callers⟩

/-- A function is entered by a call, which puts the return address on the stack. -/
theorem Machine.entered_call {m : Machine} {latest : Word} {words : List Word} {top : Int}
    (hrax : m.regs .rax = .word latest)
    (hwords : (Convention.argumentRegs.take words.length).map m.regs = words.map .word) :
    Machine.Entered { (m.setReg .rsp (.stack top)).store top .caller with filled := 0 } top latest
      words := by
  refine ⟨rfl, Machine.store_memory_self .., hrax, ?_, rfl⟩
  rw [← hwords]
  refine List.map_congr_left fun r hr => ?_
  have hr := Convention.argumentReg_facts r (List.mem_of_mem_take hr)
  simp [hr.2.1]

/-- What surrounds a run inside a function: the functions that can be called, the frame of this one
and the type that it returns, the functions that wait for it, and the steps that are left. -/
structure Scene extends Site where
  listing : List Line
  functions : List Function
  externals : List External
  frame : Frame
  returns : Ty
  callers : List (Int × List Line)
  budget : Nat

namespace Scene

/-- The run is safe that is at some code of the function. -/
def Safe (x : Scene) (code : List Line) (m : Machine) : Prop :=
  Process.Safe x.world x.listing (Note.Truthful x.world) x.budget ⟨code, m, x.callers⟩

/-- The same with other steps left. -/
def within (x : Scene) (j : Nat) : Scene := { x with budget := j }

/-- Calls and returns are safe, and the code is as it was made. -/
structure Ready (x : Scene) : Prop where
  nodup : (Instr.labels (Line.instructions x.listing)).Nodup
  offset : ∀ (k : Nat) (v : FrameVar), x.frame.vars[k]? = some v →
    k < x.count ∧ v.offset = -(8 * (k + 1) : Nat)
  honest : x.world.Honest x.externals
  calls : ∀ j < x.budget, CallsSafe x.world x.listing x.functions j
  returned : ∀ {waiting scopes w s m}, Fits x.toSite x.frame waiting scopes w s m →
    (x.returns = .bool → IsTruth w) → ∀ rest, x.Safe (.instr .leave :: .instr .ret :: rest) m

variable {x : Scene} {waiting : List Word} {scopes : Scopes Nat} {latest w : Word} {s : Store}
  {m m' : Machine} {code rest : List Line}

theorem Safe.within (h : x.Safe code m) {j : Nat} (hj : j ≤ x.budget) :
    (x.within j).Safe code m :=
  Process.Safe.mono h hj

theorem Ready.within (hx : x.Ready) {j : Nat} (hj : j ≤ x.budget) : (x.within j).Ready where
  nodup := hx.nodup
  offset := hx.offset
  honest := hx.honest
  calls i hi := hx.calls i (Nat.lt_of_lt_of_le hi hj)
  returned hm hw rest := (hx.returned hm hw rest).within hj

/-! ## Pieces of code -/

theorem Safe.exec {i : Instr} (hi : m.exec x.world i = some m') (h : x.Safe rest m') :
    x.Safe (.instr i :: rest) m :=
  Process.Safe.of_exec (Process.exec_of_exec hi) h

theorem Safe.reaches {is : List Instr} (hstraight : ∀ i ∈ is, i.isStraight = true)
    (hreach : Point.Reaches x.world x.program ⟨is, m⟩ ⟨[], m'⟩) (h : x.Safe rest m') :
    x.Safe (Line.code is ++ rest) m :=
  Process.Safe.reaches hstraight hreach h

/-- A jump is safe if the code at its label is safe for the steps that are left behind it. -/
theorem Safe.jmp {label : String} (hcode : Line.codeAt label x.listing = some code)
    (h : ∀ j < x.budget, (x.within j).Safe code m) : x.Safe (.instr (.jmp label) :: rest) m := by
  refine Process.Safe.of_step fun j hj => ⟨_, ?_, h j hj⟩
  rw [Process.exec, Process.jump, hcode]
  rfl

/-- A test of the word that was made last goes on at a label if it is zero. -/
theorem Safe.test {label : String} (hcode : Line.codeAt label x.listing = some code)
    (hm : Fits x.toSite x.frame waiting scopes latest s m)
    (hzero : ∀ m, Fits x.toSite x.frame waiting scopes latest s m → x.Safe code m)
    (hother : ∀ m, Fits x.toSite x.frame waiting scopes latest s m → x.Safe rest m) :
    x.Safe (.instr (.cmp (.imm 0) Reg.rax) :: .instr (.je label) :: rest) m := by
  let m₁ : Machine := { m with flags := some (latest, 0) }
  have hcmp : m.exec x.world (.cmp (.imm 0) Reg.rax) = some m₁ := by
    simp [Machine.exec, Machine.readWord_reg rfl hm.rax, m₁]
  have hm₁ : Fits x.toSite x.frame waiting scopes latest s m₁ :=
    hm.same ⟨rfl, rfl, rfl, rfl, rfl⟩ hm.rax
  apply Safe.exec hcmp
  -- The jump is taken if the word that was made last is zero, whatever its type is.
  by_cases hlatest : latest = 0
  · refine Process.Safe.of_exec ((if_pos hlatest).trans ?_) (hzero m₁ hm₁)
    rw [Process.jump, hcode]
  · exact Process.Safe.of_exec (if_neg hlatest) (hother m₁ hm₁)

/-- Both operands are taken from the stack, and the operator makes a word of them. -/
theorem Safe.binary {left right : Word} {op : BinaryOp} {l r : Expr}
    (hm : Fits x.toSite x.frame (right :: waiting) scopes left s m)
    (hleft : l.ty = .bool → IsTruth left) (hright : r.ty = .bool → IsTruth right)
    (hrest : ∀ w m, op.apply left right = some w →
      Fits x.toSite x.frame waiting scopes w s m → x.Safe rest m) :
    x.Safe (.instr (.push .rax) :: .instr (.pop .rax) :: .instr (.pop .rbx) ::
      .note (.operands op l r) :: (Line.code op.code ++ rest)) m := by
  obtain ⟨m₁, hexec₁, h₁⟩ := hm.push
  obtain ⟨m₂, hexec₂, h₂, hrax₂, -, hfilled₂⟩ :=
    h₁.toStands.pop (r := .rax) rfl (by decide) (by decide)
  obtain ⟨m₃, hexec₃, h₃, hrbx, hkept, hfilled₃⟩ := h₂.pop (r := .rbx) rfl (by decide) (by decide)
  have hrax : m₃.regs .rax = .word left := (hkept .rax (by decide) (by decide)).trans hrax₂
  have hfilled : m₃.filled = 0 := by
    rw [hfilled₃, if_neg (by decide), hfilled₂, if_neg (by decide), h₁.filled]
  refine Safe.exec hexec₁ (Safe.exec hexec₂ (Safe.exec hexec₃ (Process.Safe.note
    (Note.truthful_operands hrax hrbx hleft hright) ?_)))
  have hop := @BinaryOp.reaches_code x.world x.program op m₃ left right hrax hrbx []
  rw [List.append_nil] at hop
  cases hw : op.apply left right with
  | some w =>
    rw [hw] at hop
    obtain ⟨m₄, hreach, hrax₄, hsame⟩ := hop
    exact Safe.reaches op.straight_code hreach (hrest w m₄ hw
      ⟨⟨h₃.same hsame, hrax₄, hsame.filled.trans hfilled⟩, hm.truths⟩)
  | none =>
    rw [hw] at hop
    obtain ⟨n, m₄, hrun, -⟩ := hop
    exact Process.Safe.ends op.straight_code hrun (by decide)

/-! ## Calls -/

/-- A call to an external function is safe: its answer is a truth value if its type is `bool`. -/
theorem Ready.callExternal (hx : x.Ready) {e : External} (he : e ∈ x.externals) {words : List Word}
    {pops : List Instr} (hm : Stands x.toSite (words.reverse ++ waiting) scopes s m)
    (htruths : x.frame.Truths s.scopes scopes) (hfilled : m.filled = 0)
    (hp : popArguments words.length = .ok pops)
    (hrest : ∀ w s m, Fits x.toSite x.frame waiting scopes w s m →
      (e.returns.ty = .bool → IsTruth w) → x.Safe rest m) :
    x.Safe (Line.code pops ++ (.instr (.mov (.imm 0) Reg.rax) ::
      .instr (.call e.ident.name true) :: rest)) m := by
  obtain ⟨m₁, hreach, h₁, hfilled₁, hwords, -⟩ := hm.takeArguments hp []
  rw [List.append_nil] at hreach
  rw [hfilled, Nat.zero_add] at hfilled₁
  refine Safe.reaches (straight_popArguments hp) hreach ?_
  have hcall := h₁.call hfilled₁ hwords e.ident.name true []
  have hstraight : ∀ i ∈ [Instr.mov (.imm 0) Reg.rax, .call e.ident.name true],
      i.isStraight = true := by
    simp [Instr.isStraight]
  dsimp only at hcall
  cases hw : x.world.answer (⟨e.ident.name, words⟩ :: s.calls) with
  | some w =>
    rw [hw] at hcall
    obtain ⟨m₂, hreach₂, h₂⟩ := hcall
    exact Process.Safe.reaches hstraight hreach₂ (hrest w _ m₂ ⟨h₂, htruths⟩ fun hty =>
      hx.honest e he hty words s.calls w hw)
  | none =>
    rw [hw] at hcall
    obtain ⟨n, m₂, hrun, -⟩ := hcall
    exact Process.Safe.ends hstraight hrun (by decide)

/-- A call to a function of the program is safe: for the steps that are left behind it, the function
is, and it returns a truth value if its type is `bool`. -/
theorem Ready.callFunction (hx : x.Ready) {f : Function} (hf : f ∈ x.functions) {words : List Word}
    {pops : List Instr} (hm : Stands x.toSite (words.reverse ++ waiting) scopes s m)
    (htruths : x.frame.Truths s.scopes scopes) (hp : popArguments words.length = .ok pops)
    (hwords : ArgumentsFit f.params words)
    (hrest : ∀ w s m, Fits x.toSite x.frame waiting scopes w s m →
      (f.returns.ty = .bool → IsTruth w) → x.Safe rest m) :
    x.Safe (Line.code pops ++ (.instr (.mov (.imm 0) Reg.rax) ::
      .instr (.call f.ident.name false) :: rest)) m := by
  obtain ⟨m₁, hreach, h₁, -, hregs, -⟩ := hm.takeArguments hp []
  rw [List.append_nil] at hreach
  -- Clearing `rax` in front of the call leaves the argument registers alone.
  let m₂ := m₁.setReg .rax (.word 0)
  have h₂ : Stands x.toSite waiting scopes s m₂ := h₁.same (Machine.same_setReg_rax _)
  have hregs₂ : (Convention.argumentRegs.take words.length).map m₂.regs = words.map .word := by
    rw [← hregs]
    refine List.map_congr_left fun r hr => ?_
    have hr := Convention.argumentReg_facts r (List.mem_of_mem_take hr)
    simp [m₂, hr.2.2.2]
  have hmov : m₁.exec x.world (.mov (.imm 0) Reg.rax) = some m₂ := rfl
  refine Safe.reaches (straight_popArguments hp) hreach (Safe.exec hmov ?_)
  apply Process.Safe.of_step
  intro j hj
  let top := x.below (x.count + waiting.length)
  let entered : Machine :=
    { (m₂.setReg .rsp (.stack (top - 8))).store (top - 8) .caller with filled := 0 }
  have hentered : entered.Entered (top - 8) 0 words := Machine.entered_call rfl hregs₂
  -- What stood in the stack in front of the call is still there when the function returns.
  have hreturns : ReturnsSafely x.world x.listing j f.returns.ty entered (top - 8)
      ((top - 8, rest) :: x.callers) := by
    refine .inr ⟨_, _, rfl, fun w m' hrestored hrax hfilled hty => ?_⟩
    have hmemory : ∀ a, top ≤ a → m'.memory a = m₂.memory a := by
      intro a ha
      rw [hrestored.memory a (by omega)]
      exact Machine.store_memory_of_apart _ _ (.inr (by omega))
    have hrsp : m'.regs .rsp = m₂.regs .rsp := by
      rw [hrestored.rsp, h₂.rsp, Int.sub_add_cancel]
    have hstands := h₂.kept hrestored.rbp hrsp hmemory
    exact (hrest w _ m' ⟨⟨hstands, hrax, hfilled⟩, htruths⟩ hty).within (Nat.le_of_lt hj)
  obtain ⟨code, hcode, hsafe⟩ := hx.calls j hj f hf _ _ _ _ _ hentered hwords hreturns
  refine ⟨_, ?_, hsafe⟩
  rw [Process.exec, Process.call, h₂.rsp]
  dsimp only [Process.jump]
  rw [hcode]

end Scene

end Ilang
