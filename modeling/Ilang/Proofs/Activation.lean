import Mathlib.Data.List.Induction
import Ilang.Proofs.Limits
import Ilang.Proofs.Placement
import Ilang.Proofs.Reading
import Ilang.Proofs.Runs
/-!
# The machine inside a function

`Holds` relates the machine to an evaluation: `rax` holds the word that was made last, the frame the
variables that are visible, and below it the words wait that operands and arguments left. The lemmas
say what single pieces of code do to that: literals, reading and writing a variable, putting a word on
the stack and taking it off, a call, and a test of the word that was made last.
-/
namespace Ilang

/-! ## Where words are -/

/-- Where a function runs. -/
structure Site where
  world : World
  program : List Instr
  /-- How many variables the frame has. -/
  count : Nat
  /-- Where `rbp` points. -/
  base : Int
  /-- What memory holds from there on. -/
  above : Int → Value

namespace Site

variable (x : Site)

/-- The address of the `n`-th eight bytes below `rbp`. -/
def below (n : Nat) : Int := x.base - 8 * n

/-- Words wait on the stack, the first of them at the top. -/
def Waits (memory : Int → Value) : List Word → Prop
  | [] => True
  | w :: ws => memory (x.below (x.count + ws.length + 1)) = .word w ∧ Waits memory ws

end Site

/-- The frame holds the variables that are visible, and words wait below it. -/
structure Stands (x : Site) (waiting : List Word) (scopes : Scopes Nat) (s : Store) (m : Machine) :
    Prop where
  rbp : m.regs .rbp = .stack x.base
  rsp : m.regs .rsp = .stack (x.below (x.count + waiting.length))
  above : ∀ a, x.base ≤ a → m.memory a = x.above a
  vars : Scopes.Rel (fun w k => k < x.count ∧ m.memory (x.below (k + 1)) = .word w) s.scopes scopes
  waits : x.Waits m.memory waiting
  calls : m.calls = s.calls

/-- Moreover, `rax` holds the word that was made last, and no call is prepared. -/
structure Holds (x : Site) (waiting : List Word) (scopes : Scopes Nat) (latest : Word) (s : Store)
    (m : Machine) : Prop extends Stands x waiting scopes s m where
  rax : m.regs .rax = .word latest
  filled : m.filled = 0

variable {x : Site} {waiting : List Word} {scopes : Scopes Nat} {latest w : Word} {s : Store}
  {m m' : Machine}

theorem Stands.same (h : Stands x waiting scopes s m) (hm : m.Same m') :
    Stands x waiting scopes s m' := by
  refine ⟨hm.rbp.trans h.rbp, hm.rsp.trans h.rsp, ?_, ?_, ?_, hm.calls.trans h.calls⟩
  all_goals rw [hm.memory]
  · exact h.above
  · exact h.vars
  · exact h.waits

theorem Holds.same (h : Holds x waiting scopes latest s m) (hm : m.Same m')
    (hrax : m'.regs .rax = .word w) : Holds x waiting scopes w s m' :=
  ⟨h.toStands.same hm, hrax, hm.filled.trans h.filled⟩

/-! ## Memory -/

theorem Machine.store_below {n k : Nat} (v : Value) (h : k ≠ n) :
    (m.store (x.below n) v).memory (x.below k) = m.memory (x.below k) := by
  apply m.store_memory_of_apart
  unfold Site.below
  omega

theorem Machine.store_above {n : Nat} (v : Value) {a : Int} (ha : x.base ≤ a) (hn : 0 < n) :
    (m.store (x.below n) v).memory a = m.memory a := by
  apply m.store_memory_of_apart
  unfold Site.below
  omega

/-- Words wait as long as the memory between the frame and the top of the stack is the same. -/
theorem Site.Waits.congr {memory memory' : Int → Value} (h : x.Waits memory waiting)
    (hsame : ∀ n, x.count < n → n ≤ x.count + waiting.length →
      memory' (x.below n) = memory (x.below n)) : x.Waits memory' waiting := by
  induction waiting with
  | nil => trivial
  | cons w ws ih =>
    rw [List.length_cons] at hsame
    refine ⟨?_, ih h.2 fun n hn hle => hsame n hn (by omega)⟩
    rw [hsame _ (by omega) (by omega)]
    exact h.1

theorem Site.Waits.store {n : Nat} {v : Value} (h : x.Waits m.memory waiting)
    (hn : n ≤ x.count ∨ x.count + waiting.length < n) :
    x.Waits (m.store (x.below n) v).memory waiting :=
  h.congr fun k hk hle => Machine.store_below v (by omega)

/-- A word is put on the stack. -/
theorem Stands.push (h : Stands x waiting scopes s m) {r : Reg} (hr : r.isWide = true)
    (hw : m.regs r = .word w) :
    ∃ m', m.exec x.world (.push r) = some m' ∧ Stands x (w :: waiting) scopes s m' ∧
      m'.filled = m.filled ∧ ∀ q, q ≠ .rsp → m'.regs q = m.regs q := by
  have htop : x.below (x.count + waiting.length) - 8 = x.below (x.count + waiting.length + 1) := by
    unfold Site.below
    omega
  let m₁ := m.setReg .rsp (.stack (x.below (x.count + waiting.length + 1)))
  refine ⟨m₁.store (x.below (x.count + waiting.length + 1)) (.word w), ?_, ?_, rfl, ?_⟩
  · simp [Machine.exec, h.rsp, Machine.read, hr, hw, htop, m₁]
  · refine ⟨h.rbp, rfl, ?_, ?_, ⟨Machine.store_memory_self .., ?_⟩, h.calls⟩
    · intro a ha
      rw [Machine.store_above _ ha (by omega)]
      exact h.above a ha
    · refine h.vars.mono fun v k hk => ⟨hk.1, ?_⟩
      rw [Machine.store_below _ (by omega)]
      exact hk.2
    · exact Site.Waits.store (m := m₁) h.waits (.inr (by omega))
  · intro q hq
    simp [m₁, hq]

/-- The word at the top is taken from the stack. -/
theorem Stands.pop (h : Stands x (w :: waiting) scopes s m) {r : Reg} (hr : r.isWide = true)
    (hrsp : r ≠ .rsp) (hrbp : r ≠ .rbp) :
    ∃ m', m.exec x.world (.pop r) = some m' ∧ Stands x waiting scopes s m' ∧
      m'.regs r = .word w ∧ (∀ q, q ≠ r → q ≠ .rsp → m'.regs q = m.regs q) ∧
      m'.filled = if r ∈ Convention.argumentRegs then m.filled + 1 else m.filled := by
  have htop : x.below (x.count + (w :: waiting).length) + 8 = x.below (x.count + waiting.length) := by
    rw [List.length_cons]
    unfold Site.below
    omega
  have hmem : m.memory (x.below (x.count + (w :: waiting).length)) = .word w := h.waits.1
  let m₁ := (m.setReg .rsp (.stack (x.below (x.count + waiting.length)))).setReg r (.word w)
  let filled := if r ∈ Convention.argumentRegs then m.filled + 1 else m.filled
  refine ⟨{ m₁ with filled := filled }, ?_, ?_, by simp [m₁], ?_, rfl⟩
  · simp only [Machine.exec, h.rsp, htop, hmem, Machine.write, hr, if_true]
    rfl
  · refine ⟨?_, ?_, h.above, h.vars, h.waits.2, h.calls⟩
    · simp [m₁, Ne.symm hrbp, h.rbp]
    · simp [m₁, Ne.symm hrsp]
  · intro q hq hqsp
    simp [m₁, hq, hqsp]

/-! ## Variables -/

/-- The surroundings of some code fit the place where it runs. -/
structure Site.Suits (x : Site) (env : Surroundings) : Prop where
  nodup : (Instr.labels x.program).Nodup
  offset : ∀ (k : Nat) (v : FrameVar), env.frame.vars[k]? = some v →
    k < x.count ∧ v.offset = -(8 * (k + 1) : Nat)
  loop : ∀ label, env.frame.currentLoop? = some label →
    ∃ code, Instr.codeAt label x.program = some code

theorem Frame.slotOf_eq {frame : Frame} {count : Nat}
    (hoffset : ∀ (k : Nat) (v : FrameVar), frame.vars[k]? = some v →
      k < count ∧ v.offset = -(8 * (k + 1) : Nat))
    {i : Ident} {k : Nat} {place : Operand} (hi : i.slot = some k)
    (hp : frame.slotOf i = .ok place) :
    k < count ∧ place = .mem (-(8 * (k + 1) : Nat)) .rbp := by
  unfold Frame.slotOf at hp
  rw [hi, Option.bind_some] at hp
  cases hv : frame.vars[k]? with
  | none => rw [hv] at hp; cases hp
  | some v =>
    rw [hv] at hp
    cases hp
    obtain ⟨hk, hoffset⟩ := hoffset k v hv
    exact ⟨hk, by rw [hoffset]; rfl⟩

theorem Site.Suits.slotOf {env : Surroundings} (h : x.Suits env) {i : Ident} {k : Nat}
    {place : Operand} (hi : i.slot = some k) (hp : env.frame.slotOf i = .ok place) :
    k < x.count ∧ place = .mem (-(8 * (k + 1) : Nat)) .rbp :=
  Frame.slotOf_eq h.offset hi hp

theorem Site.below_succ (x : Site) (k : Nat) :
    x.base + -(8 * ((k : Int) + 1)) = x.below (k + 1) := by
  unfold Site.below
  omega

/-- The value of a name is read from the frame. -/
theorem Holds.read (h : Holds x waiting scopes latest s m) {name : String} {k : Nat}
    (hk : scopes.lookup name = some k) :
    ∃ w, s.scopes.lookup name = some w ∧
      ∃ m', m.exec x.world (.mov (.mem (-(8 * (k + 1) : Nat)) .rbp) Reg.rax) = some m' ∧
        Holds x waiting scopes w s m' := by
  have hrel := h.vars.lookup name
  rw [hk] at hrel
  generalize hw : s.scopes.lookup name = o at hrel
  obtain ⟨⟨-, hmem⟩⟩ := hrel
  refine ⟨_, rfl, _, ?_, h.same (Machine.same_setReg_rax _) rfl⟩
  simp [Machine.exec, Machine.read, h.rbp, x.below_succ, hmem, Machine.write, Reg.isWide]

theorem Stands.exec_store (h : Stands x waiting scopes s m) {r : Reg} (hr : r.isWide = true)
    (hw : m.regs r = .word w) (k : Nat) :
    m.exec x.world (.mov r (.mem (-(8 * (k + 1) : Nat)) .rbp)) =
      some (m.store (x.below (k + 1)) (.word w)) := by
  simp [Machine.exec, Machine.read, hr, hw, Machine.write, h.rbp, x.below_succ]

/-- A word that is put into the frame changes what is visible, and nothing else. -/
theorem Stands.store (h : Stands x waiting scopes s m) {k : Nat} (hk : k < x.count)
    {scopes' : Scopes Nat} {values : Scopes Word}
    (hvars : Scopes.Rel (fun v j => j < x.count ∧
      (m.store (x.below (k + 1)) (.word w)).memory (x.below (j + 1)) = .word v) values scopes') :
    Stands x waiting scopes' { s with scopes := values } (m.store (x.below (k + 1)) (.word w)) := by
  refine ⟨h.rbp, h.rsp, ?_, hvars, h.waits.store (.inl (by omega)), h.calls⟩
  intro a ha
  rw [Machine.store_above _ ha (by omega)]
  exact h.above a ha

/-- A new variable has a place of its own. -/
theorem Stands.declare {f g : Frame} (h : Stands x waiting f.scopes s m) (hf : f.Regular)
    {name : String} {ty : Ty} {location : Location} {k : Nat}
    (hk : f.register name ty location = (.ok k, g)) (hcount : k < x.count) (w : Word) :
    Stands x waiting g.scopes { s with scopes := s.scopes.insert name w }
      (m.store (x.below (k + 1)) (.word w)) := by
  obtain ⟨-, rfl, hscopes, -⟩ := Frame.register_eq_ok hk
  apply h.store hcount
  rw [hscopes]
  refine Scopes.Rel.insert (h.vars.mono_of_mem fun v y hy hv => ⟨hv.1, ?_⟩)
    ⟨hcount, Machine.store_memory_self ..⟩
  have hlt := hf.bound y hy
  rw [Machine.store_below _ (by omega)]
  exact hv.2

/-- An assignment changes the variable that its name stands for. -/
theorem Stands.assign {f : Frame} (h : Stands x waiting f.scopes s m) (hf : f.Regular)
    {name : String} {k : Nat} (hk : f.scopes.lookup name = some k) (hcount : k < x.count) (w : Word) :
    Stands x waiting f.scopes { s with scopes := s.scopes.update name w }
      (m.store (x.below (k + 1)) (.word w)) := by
  apply h.store hcount
  refine Scopes.Rel.update ?_ ⟨hcount, Machine.store_memory_self ..⟩ h.vars hk hf.distinct
  intro v j hj hv
  rw [Machine.store_below _ (by omega)]
  exact hv

theorem Holds.declare {f g : Frame} (h : Holds x waiting f.scopes latest s m) (hf : f.Regular)
    {name : String} {ty : Ty} {location : Location} {k : Nat}
    (hk : f.register name ty location = (.ok k, g)) (hcount : k < x.count) :
    Holds x waiting g.scopes latest { s with scopes := s.scopes.insert name latest }
      (m.store (x.below (k + 1)) (.word latest)) :=
  ⟨h.toStands.declare hf hk hcount latest, h.rax, h.filled⟩

theorem Holds.assign {f : Frame} (h : Holds x waiting f.scopes latest s m) (hf : f.Regular)
    {name : String} {k : Nat} (hk : f.scopes.lookup name = some k) (hcount : k < x.count) :
    Holds x waiting f.scopes latest { s with scopes := s.scopes.update name latest }
      (m.store (x.below (k + 1)) (.word latest)) :=
  ⟨h.toStands.assign hf hk hcount latest, h.rax, h.filled⟩

theorem Holds.eval_assign (h : Holds x waiting scopes latest s m) {name : String} {k : Nat}
    (hk : scopes.lookup name = some k) (w : Word) :
    Eval.assign name w s = .done () { s with scopes := s.scopes.update name w } := by
  refine if_pos ?_
  rw [← Option.not_isNone, Scopes.isNone_of_rel (h.vars.lookup name), hk]
  rfl

/-! ## Arguments -/

theorem Convention.argumentReg_eq_ok {k : Nat} {r : Reg} (h : argumentReg k = .ok r) :
    argumentRegs[k]? = some r := by
  unfold argumentReg at h
  cases hr : argumentRegs[k]? with
  | none => rw [hr] at h; cases h
  | some q => rw [hr] at h; cases h; rfl

theorem Convention.argumentReg_facts :
    ∀ r ∈ argumentRegs, r.isWide = true ∧ r ≠ .rsp ∧ r ≠ .rbp ∧ r ≠ .rax := by
  decide

theorem Convention.argumentRegs_nodup : argumentRegs.Nodup := by decide

/-- The words of the arguments are taken from the stack into the argument registers. -/
theorem Stands.takeArguments {words : List Word} {pops : List Instr}
    (h : Stands x (words.reverse ++ waiting) scopes s m) (hp : popArguments words.length = .ok pops)
    (rest : List Instr) :
    ∃ m', Point.Reaches x.world x.program ⟨pops ++ rest, m⟩ ⟨rest, m'⟩ ∧
      Stands x waiting scopes s m' ∧ m'.filled = m.filled + words.length ∧
      (Convention.argumentRegs.take words.length).map m'.regs = words.map .word ∧
      ∀ q, q ≠ .rsp → q ∉ Convention.argumentRegs.take words.length → m'.regs q = m.regs q := by
  induction words using List.reverseRecOn generalizing m pops with
  | nil =>
    cases hp
    exact ⟨m, .refl _, h, by simp, by simp, by simp⟩
  | append_singleton words w ih =>
    rw [List.length_append, List.length_singleton] at hp ⊢
    rw [List.reverse_append, List.reverse_singleton, List.singleton_append, List.cons_append] at h
    obtain ⟨r, pops, hr, hpops, rfl⟩ := popArguments_succ hp
    have hr := Convention.argumentReg_eq_ok hr
    have hmem := List.mem_of_getElem? hr
    obtain ⟨hwide, hrsp, hrbp, -⟩ := Convention.argumentReg_facts r hmem
    obtain ⟨m₁, hexec, h₁, hr₁, hother₁, hfilled₁⟩ := h.pop hwide hrsp hrbp
    obtain ⟨m', hreach, h', hfilled, hwords, hother⟩ := ih h₁ hpops
    -- The register that was filled first is none of those that are filled behind it.
    have hnotin : r ∉ Convention.argumentRegs.take words.length := by
      have hnodup := Convention.argumentRegs_nodup
      rw [← List.take_append_drop words.length Convention.argumentRegs, List.nodup_append] at hnodup
      intro hin
      exact hnodup.2.2 r hin r (List.mem_of_getElem? (i := 0) (by simpa using hr)) rfl
    have htake : Convention.argumentRegs.take (words.length + 1) =
        Convention.argumentRegs.take words.length ++ [r] := by
      rw [List.take_add_one, hr]
      rfl
    refine ⟨m', (Point.Reaches.exec hexec).trans hreach, h', ?_, ?_, ?_⟩
    · rw [hfilled, hfilled₁, if_pos hmem]
      omega
    · rw [htake, List.map_append, List.map_append, hwords]
      simp [hother r hrsp hnotin, hr₁]
    · intro q hq hqin
      rw [htake, List.mem_append, List.mem_singleton, not_or] at hqin
      rw [hother q hq hqin.1, hother₁ q hqin.2 hq]

/-- The words that fill the argument registers are handed to a call. -/
theorem mapM_word? {regs : Reg → Value} {rs : List Reg} {words : List Word}
    (h : rs.map regs = words.map .word) : (rs.mapM fun r => (regs r).word?) = some words := by
  induction rs generalizing words with
  | nil =>
    rw [List.map_nil, eq_comm, List.map_eq_nil_iff] at h
    rw [h]
    rfl
  | cons r rs ih =>
    cases words with
    | nil => cases h
    | cons w words =>
      rw [List.map_cons, List.map_cons, List.cons.injEq] at h
      rw [List.mapM_cons, h.1, ih h.2]
      rfl

/-! ## Literals -/

/-- The code of a literal makes its word. -/
theorem Holds.literal (h : Holds x waiting scopes latest s m) {n : Node} {text : String}
    {constant : Option String} {is : List Instr} (ht : Literal.type? text = some n.ty)
    (hs : n.ty = .string → ∃ label, constant = some label)
    (hcode : literalCode n text constant = .ok is) (rest : List Instr) :
    ∃ w m', Literal.word x.world latest text constant = some w ∧
      Point.Reaches x.world x.program ⟨is ++ rest, m⟩ ⟨rest, m'⟩ ∧ Holds x waiting scopes w s m' := by
  have hload : ∀ (i : Instr) (w : Word), m.exec x.world i = some (m.setReg .rax (.word w)) →
      ∃ m', Point.Reaches x.world x.program ⟨[i] ++ rest, m⟩ ⟨rest, m'⟩ ∧
        Holds x waiting scopes w s m' :=
    fun i w hi => ⟨_, .exec hi, h.same (Machine.same_setReg_rax _) rfl⟩
  unfold literalCode at hcode
  unfold Literal.word
  rw [ht]
  cases hty : n.ty with
  | int =>
    rw [hty] at hcode
    cases hi : Text.int64? text with
    | none => rw [hi] at hcode; cases hcode
    | some value =>
      rw [hi] at hcode
      cases hcode
      obtain ⟨m', hm⟩ := hload (.mov (.imm value) Reg.rax) (BitVec.ofInt 64 value) rfl
      exact ⟨_, m', rfl, hm⟩
  | bool =>
    rw [hty] at hcode
    dsimp only at hcode
    by_cases htrue : text = "true"
    · rw [if_pos htrue] at hcode
      cases hcode
      obtain ⟨m', hm⟩ := hload (.mov (.imm 1) Reg.rax) 1 rfl
      exact ⟨_, m', by rw [htrue]; rfl, hm⟩
    · rw [if_neg htrue] at hcode
      split at hcode
      · cases hcode
        obtain ⟨m', hm⟩ := hload (.mov (.imm 0) Reg.rax) 0 rfl
        exact ⟨_, m', by simp [truth, htrue], hm⟩
      · cases hcode
  | string =>
    obtain ⟨label, rfl⟩ := hs hty
    rw [hty] at hcode
    cases hcode
    obtain ⟨m', hm⟩ := hload (.lea (.symbol label .rip) .rax) (x.world.address label) rfl
    exact ⟨_, m', rfl, hm⟩
  | unit =>
    rw [hty] at hcode
    cases hcode
    exact ⟨latest, m, rfl, .refl _, h⟩
  | float | undefined => rw [hty] at hcode; cases hcode

theorem Holds.unit (h : Holds x waiting scopes latest s m) (rest : List Instr) :
    ∃ m', Point.Reaches x.world x.program ⟨unitCode ++ rest, m⟩ ⟨rest, m'⟩ ∧
      Holds x waiting scopes 0 s m' :=
  ⟨_, .exec (i := .mov (.imm 0) Reg.rax) rfl, h.same (Machine.same_setReg_rax _) rfl⟩

/-! ## Calls -/

/-- What stands in the stack stays as it is while nothing from its top on changes. -/
theorem Stands.kept (h : Stands x waiting scopes s m) (hrbp : m'.regs .rbp = m.regs .rbp)
    (hrsp : m'.regs .rsp = m.regs .rsp)
    (hmemory : ∀ a, x.below (x.count + waiting.length) ≤ a → m'.memory a = m.memory a) :
    Stands x waiting scopes { s with calls := m'.calls } m' := by
  refine ⟨hrbp.trans h.rbp, hrsp.trans h.rsp, ?_, ?_, ?_, rfl⟩
  · intro a ha
    rw [hmemory a (by unfold Site.below; omega)]
    exact h.above a ha
  · refine h.vars.mono fun v k hk => ⟨hk.1, ?_⟩
    rw [hmemory _ (by unfold Site.below; omega)]
    exact hk.2
  · exact h.waits.congr fun n _ hn => hmemory _ (by unfold Site.below; omega)

/-- What stands in the stack is still there when a call has ended. -/
theorem Stands.resume (h : Stands x waiting scopes s m) (w : Word) :
    Holds x waiting scopes w s (m.resume w (x.below (x.count + waiting.length))) := by
  let m' := m.resume w (x.below (x.count + waiting.length))
  have hkept : Stands x waiting scopes { s with calls := m'.calls } m' :=
    h.kept rfl rfl fun a ha => if_pos ha
  exact ⟨{ hkept with calls := h.calls }, rfl, rfl⟩

/-- A call hands over the words that fill the argument registers, and gives back what the world
answers. -/
theorem Stands.call (h : Stands x waiting scopes s m) {words : List Word}
    (hfilled : m.filled = words.length)
    (hwords : (Convention.argumentRegs.take words.length).map m.regs = words.map .word)
    (callee : String) (external : Bool) (rest : List Instr) :
    let calls := ⟨callee, words⟩ :: s.calls
    let c : Point := ⟨.mov (.imm 0) Reg.rax :: .call callee external :: rest, m⟩
    match x.world.answer calls with
    | some w => ∃ m', Point.Reaches x.world x.program c ⟨rest, m'⟩ ∧
        Holds x waiting scopes w { s with calls := calls } m'
    | none => ∃ n m', c.run x.world x.program n = .ended .abandoned m' ∧ m'.calls = calls := by
  let m₁ := m.setReg .rax (.word 0)
  let m₂ : Machine := { m₁ with calls := ⟨callee, words⟩ :: m₁.calls }
  have h₁ : Stands x waiting scopes s m₁ := h.same (Machine.same_setReg_rax _)
  have h₂ : Stands x waiting scopes { s with calls := ⟨callee, words⟩ :: s.calls } m₂ :=
    ⟨h₁.rbp, h₁.rsp, h₁.above, h₁.vars, h₁.waits, by rw [← h₁.calls]⟩
  have hreach : Point.Reaches x.world x.program
      ⟨.mov (.imm 0) Reg.rax :: .call callee external :: rest, m⟩
      ⟨.call callee external :: rest, m₁⟩ := .exec rfl
  -- Clearing `rax` does not touch the argument registers.
  have hregs : (Convention.argumentRegs.take words.length).map m₁.regs = words.map .word := by
    rw [← hwords]
    refine List.map_congr_left fun r hr => ?_
    have hr := Convention.argumentReg_facts r (List.mem_of_mem_take hr)
    simp [m₁, hr.2.2.2]
  have hstep : Point.step x.world x.program ⟨.call callee external :: rest, m₁⟩ =
      match x.world.answer (⟨callee, words⟩ :: s.calls) with
      | some w => .running ⟨rest, m₂.resume w (x.below (x.count + waiting.length))⟩
      | none => .ended .abandoned m₂ := by
    have hfilled₁ : m₁.filled = words.length := hfilled
    cases hw : x.world.answer (⟨callee, words⟩ :: s.calls) <;>
      simp [Point.step, Machine.call, h₁.rsp, hfilled₁, mapM_word? hregs, h₁.calls, m₂, hw]
  dsimp only
  cases hw : x.world.answer (⟨callee, words⟩ :: s.calls) with
  | some w =>
    rw [hw] at hstep
    exact ⟨_, hreach.trans (.of_step hstep), h₂.resume w⟩
  | none =>
    rw [hw] at hstep
    obtain ⟨n, hn⟩ := hreach.run_eq
    exact ⟨n + 1, m₂, by rw [hn, Point.run, hstep], h₂.calls⟩

/-! ## Jumps -/

theorem Point.step_jmp {program rest code : List Instr} {label : String} {world : World}
    (hnodup : (Instr.labels program).Nodup) (hsuffix : .label label :: rest <:+ program) :
    Point.step world program ⟨.jmp label :: code, m⟩ = .running ⟨.label label :: rest, m⟩ := by
  simp only [Point.step, Machine.jump, Instr.codeAt_of_suffix hnodup hsuffix]

/-- Code that tests the word that was made last goes on at a label if it is zero. -/
theorem Holds.test (h : Holds x waiting scopes latest s m) (hnodup : (Instr.labels x.program).Nodup)
    {label : String} {rest code : List Instr} (hsuffix : .label label :: rest <:+ x.program) :
    ∃ m', Holds x waiting scopes latest s m' ∧
      Point.Reaches x.world x.program ⟨.cmp (.imm 0) Reg.rax :: .je label :: code, m⟩
        ⟨if latest = 0 then .label label :: rest else code, m'⟩ := by
  let m₁ : Machine := { m with flags := some (latest, 0) }
  have h₁ : m.exec x.world (.cmp (.imm 0) Reg.rax) = some m₁ := by
    simp [Machine.exec, Machine.readWord_reg rfl h.rax, m₁]
  have hstep : Point.step x.world x.program ⟨.je label :: code, m₁⟩ =
      .running ⟨if latest = 0 then .label label :: rest else code, m₁⟩ := by
    simp only [Point.step, m₁, Machine.jump, Instr.codeAt_of_suffix hnodup hsuffix]
    split <;> rfl
  refine ⟨m₁, h.same ⟨rfl, rfl, rfl, rfl, rfl⟩ h.rax, ?_⟩
  exact (Point.Reaches.exec h₁).trans (.of_step hstep)

end Ilang
