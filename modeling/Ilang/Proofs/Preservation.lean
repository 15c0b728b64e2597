import Ilang.Proofs.Simulation
import Ilang.Proofs.Translation
/-!
# Compilation keeps the meaning

The code of a function, run on a machine whose registers hold the arguments, ends as the evaluation of
the function ends, after the same calls, and ends if and only if that does
(`Program.run_iff_eval`). When it returns, it has put back what it found.
-/
namespace Ilang

variable {world : World} {program : List Instr} {top : Int} {latest : Word} {m m' : Machine}

/-! ## The entry and the end of a function -/

/-- A function is entered: its return address is at the top of the stack, and its arguments are in
their registers. -/
structure Machine.Entered (m : Machine) (top : Int) (latest : Word) (arguments : List Word) : Prop where
  rsp : m.regs .rsp = .stack top
  caller : m.memory top = .caller
  rax : m.regs .rax = .word latest
  arguments : (Convention.argumentRegs.take arguments.length).map m.regs = arguments.map .word
  filled : m.filled = 0

/-- A function that was entered has returned, and put back what it found. -/
structure Machine.Restored (m : Machine) (top : Int) (m' : Machine) : Prop where
  rsp : m'.regs .rsp = .stack (top + 8)
  rbp : m'.regs .rbp = m.regs .rbp
  memory : ∀ a, top ≤ a → m'.memory a = m.memory a

/-- Where a function runs that was entered. -/
def Machine.site (m : Machine) (world : World) (program : List Instr) (count : Nat) (top : Int) :
    Site where
  world := world
  program := program
  count := count
  base := top - 8
  above := (m.store (top - 8) (m.regs .rbp)).memory

/-- The first instructions of a function make its frame. -/
theorem Machine.Entered.makeFrame {arguments : List Word} (h : m.Entered top latest arguments)
    (name : String) (count : Nat) (rest : List Instr) :
    ∃ m', Point.Reaches world program
        ⟨.label name :: .push .rbp :: .mov Reg.rsp Reg.rbp :: .sub (.imm (8 * count : Nat)) Reg.rsp :: rest, m⟩
        ⟨rest, m'⟩ ∧
      Holds (m.site world program count top) [] Scopes.empty.push latest
        ⟨Scopes.empty.push, m.calls⟩ m' ∧
      ∀ r ∈ Convention.argumentRegs, m'.regs r = m.regs r := by
  let m₁ := (m.setReg .rsp (.stack (top - 8))).store (top - 8) (m.regs .rbp)
  let m₂ := m₁.setReg .rbp (.stack (top - 8))
  let m₃ : Machine := { m₂.setReg .rsp (.stack (top - 8 - (8 * count : Nat))) with flags := none }
  have h₁ : m.exec world (.push .rbp) = some m₁ := by
    simp [Machine.exec, h.rsp, Machine.read, Reg.isWide, m₁]
  have h₂ : m₁.exec world (.mov Reg.rsp Reg.rbp) = some m₂ := by
    simp [Machine.exec, Machine.read, Machine.write, Reg.isWide, m₁, m₂]
  have h₃ : m₂.exec world (.sub (.imm (8 * count : Nat)) Reg.rsp) = some m₃ := by
    simp [Machine.exec, Machine.write, Reg.isWide, m₁, m₂, m₃]
  refine ⟨m₃, Point.Reaches.label.trans ((Point.Reaches.exec h₁).trans
    ((Point.Reaches.exec h₂).trans (.exec h₃))), ⟨⟨rfl, ?_, ?_, ?_, trivial, rfl⟩, ?_, ?_⟩, ?_⟩
  · simp [m₃, Site.below, Machine.site]
  · intro a _
    rfl
  · exact .cons .nil .nil
  · simpa [m₃, m₂, m₁] using h.rax
  · simpa [m₃, m₂, m₁] using h.filled
  · intro r hr
    obtain ⟨-, hrsp, hrbp, -⟩ := Convention.argumentReg_facts r hr
    simp [m₃, m₂, m₁, hrsp, hrbp]

/-- The arguments are put into the places of the parameters. -/
theorem Holds.storeArguments {x : Site} {functions : List String} {comments : Bool}
    {frame f g : Frame} {ps : List Param} {index : Nat} {stores : List Instr} {words : List Word} {s : Store}
    (hx : x.Suits ⟨frame, functions, comments⟩) (hps : LaidParams f ps g) (hf : f.Regular)
    (hstores : storeParams frame index ps = .ok stores) (hlength : words.length = ps.length)
    (hwords : ((Convention.argumentRegs.drop index).take words.length).map m.regs = words.map .word)
    (h : Holds x [] f.scopes latest s m) (rest : List Instr) :
    ∃ m', Point.Reaches x.world x.program ⟨stores ++ rest, m⟩ ⟨rest, m'⟩ ∧
      Holds x [] g.scopes latest
        ⟨(ps.zip words).foldl (fun t y => t.insert y.1.ident.name y.2) s.scopes, s.calls⟩ m' := by
  induction hps generalizing index stores words s m with
  | nil =>
    cases hstores
    exact ⟨m, .refl _, h⟩
  | @cons f g g' p ps k hk hs hps ih =>
    obtain ⟨r, place, stores, hr, hplace, hothers, rfl⟩ := storeParams_cons hstores
    obtain ⟨hcount, rfl⟩ := hx.slotOf hs hplace
    have hr := Convention.argumentReg_eq_ok hr
    have hwide := (Convention.argumentReg_facts r (List.mem_of_getElem? hr)).1
    obtain ⟨w, words, rfl⟩ := List.exists_cons_of_length_eq_add_one hlength
    obtain ⟨hindex, rfl⟩ := List.getElem?_eq_some_iff.1 hr
    rw [List.drop_eq_getElem_cons hindex, List.length_cons, List.take_succ_cons, List.map_cons,
      List.map_cons, List.cons.injEq] at hwords
    have hholds : Holds x [] g.scopes latest { s with scopes := s.scopes.insert p.ident.name w }
        (m.store (x.below (k + 1)) (.word w)) :=
      ⟨h.toStands.declare hf hk hcount w, h.rax, h.filled⟩
    obtain ⟨m', hreach, h'⟩ := ih (m := m.store (x.below (k + 1)) (.word w)) (hf.register hk) hothers
      (Nat.succ.inj hlength) hwords.2 hholds
    exact ⟨m', (Point.Reaches.exec (h.exec_store hwide hwords.1 k)).trans hreach, h'⟩

/-- The frame of a function is left, and what it found is put back. -/
theorem Holds.leaveFrame {count : Nat} {waiting : List Word} {scopes : Scopes Nat} {w : Word}
    {s : Store} (h : Holds (m.site world program count top) waiting scopes w s m') :
    ∃ m₁, m'.exec world .leave = some m₁ ∧ m₁.regs .rsp = .stack top ∧
      m₁.regs .rbp = m.regs .rbp ∧ m₁.regs .rax = .word w ∧ m₁.filled = 0 ∧ m₁.calls = s.calls ∧
      ∀ a, top ≤ a → m₁.memory a = m.memory a := by
  have habove : ∀ a, top ≤ a → m'.memory a = m.memory a := by
    intro a ha
    rw [h.above a (by simp only [Machine.site]; omega)]
    exact m.store_memory_of_apart _ (.inr (by omega))
  have hsaved : m'.memory (top - 8) = m.regs .rbp := by
    rw [h.above (top - 8) (Int.le_refl _)]
    exact m.store_memory_self _ _
  have hrbp : m'.regs .rbp = .stack (top - 8) := h.rbp
  refine ⟨(m'.setReg .rsp (.stack top)).setReg .rbp (m.regs .rbp), ?_, rfl, rfl, h.rax, h.filled,
    h.calls, habove⟩
  simp [Machine.exec, hrbp, hsaved]

/-- The last instructions of a function return the word that was made last. -/
theorem Holds.finish {count : Nat} {waiting : List Word} {scopes : Scopes Nat} {w : Word} {s : Store}
    {c : Point} {rest : List Instr} (hcaller : m.memory top = .caller)
    (hreach : Point.Reaches world program c ⟨.leave :: .ret :: rest, m'⟩)
    (h : Holds (m.site world program count top) waiting scopes w s m') :
    ∃ n m'', c.run world program n = .ended (.returned w) m'' ∧ m''.calls = s.calls ∧
      m.Restored top m'' := by
  obtain ⟨m₁, h₁, hrsp, hrbp, hrax, -, hcalls, habove⟩ := h.leaveFrame
  have h₂ : Point.step world program ⟨.ret :: rest, m₁⟩ =
      .ended (.returned w) (m₁.setReg .rsp (.stack (top + 8))) := by
    have hmem : m₁.memory top = .caller := (habove top (Int.le_refl _)).trans hcaller
    simp [Point.step, Machine.ret, hrsp, hrax, hmem]
  obtain ⟨n, hn⟩ := (hreach.trans (.exec h₁)).run_eq
  refine ⟨n + 1, m₁.setReg .rsp (.stack (top + 8)), ?_, hcalls, rfl, hrbp, habove⟩
  rw [hn, Point.run, h₂]

/-! ## Functions -/

section
variable {f : Function} {frame : Frame} {start : List Instr} {arguments : List Word}
  (h : f.TranslatedAt program frame start) (hclear : f.body.breaksClear true = true)
  (hlength : arguments.length = f.params.length) (hm : m.Entered top latest arguments)
include h hclear hlength hm

/-- The run of the code of a function goes where the evaluation of its body goes. -/
theorem Function.body_meets (world : World) (fuel : Nat) :
    ∃ functions comments scopes scopes' rest, Meets (m.site world program frame.vars.size top) fuel
      (Exits (m.site world program frame.vars.size top) ⟨frame, functions, comments⟩ [] scopes)
      (Arrives (m.site world program frame.vars.size top) [] scopes' (.leave :: .ret :: rest))
      (f.body.eval world fuel latest ⟨paramScope f.params arguments, m.calls⟩) ⟨start, m⟩ := by
  have hloops := h.laid.currentLoop?_eq
  have hsuffix := h.suffix
  obtain ⟨functions, l, l', code, rest, hcode, rfl⟩ := h.emits
  obtain ⟨g, g', hps, hbody, rfl⟩ := h.laid.laid
  have hregular := Frame.start_regular f.ident.name
  have hg := hps.grows (Frame.start_ne_nil f.ident.name)
  have hg' := hg.trans (hbody.grows hg.scopes.ne_nil)
  have hframe := (hg'.regular hregular).leave
  cases hcode with
  | intro hmax hstores hemits =>
    rename_i comments stores body
    have hx : (m.site world program g'.vars.size top).Suits ⟨g'.leave, functions, comments⟩ := by
      refine ⟨h.nodup, ?_, by simp [hloops]⟩
      intro k v hv
      exact ⟨(Array.getElem?_eq_some_iff.1 hv).1, hframe.offset k v hv⟩
    simp only [List.append_assoc, List.cons_append, List.nil_append] at hsuffix ⊢
    rw [hframe.size] at hsuffix ⊢
    obtain ⟨m₁, hreach₁, h₁, hregs⟩ := @Machine.Entered.makeFrame world program _ _ _ _ hm
      g'.leave.function g'.vars.size (stores ++ (body ++ .leave :: .ret :: rest))
    have harguments : ((Convention.argumentRegs.drop 0).take arguments.length).map m₁.regs =
        arguments.map .word := by
      rw [← hm.arguments]
      exact List.map_congr_left fun r hr => hregs r (List.mem_of_mem_take hr)
    obtain ⟨m₂, hreach₂, h₂⟩ := Holds.storeArguments hx hps hregular hstores hlength harguments h₁
      (body ++ .leave :: .ret :: rest)
    have htail := suffix_right (suffix_tail (suffix_tail (suffix_tail (suffix_tail hsuffix))))
    exact ⟨_, _, _, _, rest, Meets.of_reaches (hreach₁.trans hreach₂)
      (f.body.followed _ fuel ⟨hx, fun _ => rfl, hg.regular hregular, hg.scopes.ne_nil⟩
        ⟨h.read.everywhere, h.typed, hclear⟩ hbody hemits htail h₂)⟩

/-- The run of the code of a function ends as the evaluation of the function ends. -/
theorem Function.meets (world : World) (fuel : Nat) :
    match f.eval world fuel latest m.calls arguments with
    | some (ending, calls) => ∃ n m', Point.run world program n ⟨start, m⟩ = .ended ending m' ∧
        m'.calls = calls ∧ ending ≠ .stuck ∧ ∀ w, ending = .returned w → m.Restored top m'
    | none => Point.Outlasts world program fuel ⟨start, m⟩ := by
  obtain ⟨functions, comments, scopes, scopes', rest', hmeets⟩ :=
    Function.body_meets h hclear hlength hm world fuel
  unfold Function.eval
  cases hbody : f.body.eval world fuel latest ⟨paramScope f.params arguments, m.calls⟩ with
  | done w s =>
    rw [hbody] at hmeets
    obtain ⟨⟨_, m₁⟩, hreach, rfl, h₁⟩ := hmeets
    obtain ⟨n, m₂, hrun, hcalls, hrestored⟩ := h₁.finish hm.caller hreach
    exact ⟨n, m₂, hrun, hcalls, by simp, fun _ _ => hrestored⟩
  | left exit s =>
    rw [hbody] at hmeets
    obtain ⟨n, hn⟩ := hmeets
    cases exit with
    | broke w =>
      -- Nothing can leave a loop that the function does not have.
      obtain ⟨label, _, _, hlabel, -⟩ := hn
      rw [h.laid.currentLoop?_eq] at hlabel
      cases hlabel
    | returned w =>
      obtain ⟨rest, m₁, hrun, waiting, scopes, h₁⟩ := hn
      obtain ⟨n, m₂, hrun, hcalls, hrestored⟩ := h₁.finish hm.caller ⟨n, hrun⟩
      exact ⟨n, m₂, hrun, hcalls, by simp, fun _ _ => hrestored⟩
    | trapped | abandoned =>
      obtain ⟨m₁, hrun, hcalls⟩ := hn
      exact ⟨n, m₁, hrun, hcalls, by simp, by simp⟩
    | stuck => exact hn.elim
  | spent =>
    rw [hbody] at hmeets
    exact hmeets

/-- A run that has ended is shorter than the budget of the evaluation, which is then enough. -/
theorem Function.eval_of_run_ended {n : Nat} {ending : Ending}
    (hrun : Point.run world program n ⟨start, m⟩ = .ended ending m') :
    f.eval world n latest m.calls arguments = some (ending, m'.calls) ∧ ending ≠ .stuck ∧
      ∀ w, ending = .returned w → m.Restored top m' := by
  have hmeets := Function.meets h hclear hlength hm world n
  cases heval : f.eval world n latest m.calls arguments with
  | some r =>
    rw [heval] at hmeets
    obtain ⟨k, m'', hrun', hcalls, hending⟩ := hmeets
    obtain ⟨rfl, rfl⟩ := Point.run_ended_unique hrun hrun'
    exact ⟨by rw [hcalls], hending⟩
  | none =>
    rw [heval] at hmeets
    obtain ⟨c, hc⟩ := hmeets
    rw [hrun] at hc
    cases hc

end

/-- Compilation keeps the meaning: from a text for which analysis has nothing to report and code is
made, the code of each function ends as the evaluation of the function ends, after the same calls. It
does not end if no number of rounds is enough for the evaluation. It never comes to something that has
no meaning, and when it returns, it has put back what it found.

No `break` may leave a loop while a word waits on the stack that was put there inside the loop. -/
theorem Program.run_iff_eval {p : Program} {options : GenOptions} {assembly : Assembly}
    {labels : Labels} {f : Function} {arguments : List Word} (world : World) (hp : p.Written)
    (hclean : p.analyze.report = [])
    (hgen : (p.analyze.program.generate options).result = .ok (assembly, labels))
    (hf : f ∈ (p.analyze.program.generate options).program.functions)
    (hclear : f.body.breaksClear true = true) (hlength : arguments.length = f.params.length)
    (hm : m.Entered top latest arguments) :
    ∃ code, Instr.codeAt f.ident.name (Instr.plain assembly.code) = some code ∧
      (∀ ending calls, (∃ fuel, f.eval world fuel latest m.calls arguments = some (ending, calls)) ↔
        ∃ n m', Point.run world (Instr.plain assembly.code) n ⟨code, m⟩ = .ended ending m' ∧
          m'.calls = calls) ∧
      ∀ n ending m', Point.run world (Instr.plain assembly.code) n ⟨code, m⟩ = .ended ending m' →
        ending ≠ .stuck ∧ ∀ w, ending = .returned w → m.Restored top m' := by
  obtain ⟨frame, start, htranslated⟩ := Program.translated hp hclean hgen f hf
  refine ⟨start, htranslated.codeAt_eq, fun ending calls => ⟨?_, ?_⟩, ?_⟩
  · rintro ⟨fuel, heval⟩
    have hmeets := Function.meets htranslated hclear hlength hm world fuel
    rw [heval] at hmeets
    obtain ⟨n, m', hrun, hcalls, -⟩ := hmeets
    exact ⟨n, m', hrun, hcalls⟩
  · rintro ⟨n, m', hrun, rfl⟩
    exact ⟨n, (Function.eval_of_run_ended htranslated hclear hlength hm hrun).1⟩
  · intro n ending m' hrun
    exact (Function.eval_of_run_ended htranslated hclear hlength hm hrun).2

/-- A function with a call in a loop that is left, and a division. -/
def Program.scaleText : String :=
  "extrn int note(string s) int main(int n, bool go) " ++
    braced ("let k: int = n; while go " ++
      braced ("k = k * n + note(\"k\"); if go " ++ braced "break;" ++ ";") ++ "; k / n")

/-- A machine on which a function with two parameters is entered. -/
def Machine.entry (a b : Word) : Machine where
  regs
    | .rsp => .stack 0
    | .rax => .word 0
    | .rdi => .word a
    | .rsi => .word b
    | _ => .junk
  memory a := if a = 0 then .caller else .junk
  flags := none
  filled := 0
  calls := []

/-- The text stands for a program whose code returns `8` for the arguments `3` and `1` if the call is
answered with `5`. -/
theorem Program.run_iff_eval_scale :
    let world : World := ⟨fun _ => 7, fun _ => some 5⟩
    let m := Machine.entry 3 1
    ∃ (p : Program) (assembly : Assembly) (labels : Labels) (f : Function),
      p.Written ∧ p.analyze.report = [] ∧
      (p.analyze.program.generate {}).result = .ok (assembly, labels) ∧
      f ∈ (p.analyze.program.generate {}).program.functions ∧ f.body.breaksClear true = true ∧
      m.Entered 0 0 [3, 1] ∧
      ∃ code n m', Instr.codeAt f.ident.name (Instr.plain assembly.code) = some code ∧
        Point.run world (Instr.plain assembly.code) n ⟨code, m⟩ = .ended (.returned 8) m' ∧
        m'.calls = [⟨"note", [7]⟩] ∧ m.Restored 0 m' := by
  intro world m
  have hcheck : compilesWith Program.scaleText (fun _ f => f.body.breaksClear true &&
      f.params.length == 2 && f.eval ⟨fun _ => 7, fun _ => some 5⟩ 1 0 [] [3, 1] ==
        some (.returned 8, [⟨"note", [7]⟩])) := by
    decide +kernel
  obtain ⟨p, assembly, labels, f, hwritten, hclean, hgen, hf, h⟩ := exists_of_compilesWith hcheck
  simp only [Bool.and_eq_true, beq_iff_eq] at h
  obtain ⟨⟨hclear, hlength⟩, heval⟩ := h
  have hm : m.Entered 0 0 [3, 1] := ⟨rfl, rfl, rfl, rfl, rfl⟩
  have hwords : ([3, 1] : List Word).length = f.params.length := hlength.symm
  obtain ⟨code, hcode, hiff, hend⟩ :=
    Program.run_iff_eval world hwritten hclean hgen hf hclear hwords hm
  obtain ⟨n, m', hrun, hcalls⟩ := (hiff _ _).1 ⟨1, heval⟩
  exact ⟨p, assembly, labels, f, hwritten, hclean, hgen, hf, hclear, hm, code, n, m', hcode, hrun,
    hcalls, (hend _ _ _ hrun).2 _ rfl⟩

end Ilang
