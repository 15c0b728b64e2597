import Ilang.Proofs.Safety
/-!
# Booleans are zero or one

In a run of a whole program, an expression of type `bool` leaves zero or one in `rax`, and the
variables of type `bool` are zero or one wherever the code of an expression ends, if that holds of
the arguments that the run starts with and of what external functions return. So the operators `&&`
and `||`, whose code computes with all bits, are logical connectives. The run never comes to
something that has no meaning (`Program.booleans_kept`).

A function is safe if the functions that it calls are safe for fewer steps (`FunctionListed.safe`).
-/
namespace Ilang

variable {world : World} {listing rest : List Line} {functions : List Function}
  {externals : List External} {f : Function} {frame : Frame} {m : Machine} {top : Int}
  {latest : Word} {arguments : List Word} {callers : List (Int × List Line)} {k : Nat}

/-! ## Functions -/

/-- The parameters of type `bool` are truth values if the arguments fit. -/
theorem LaidParams.truths {g g' : Frame} {ps : List Param} {values : Scopes Word}
    (h : LaidParams g ps g') (htypes : ∀ param ∈ ps, frame.typeOf? param.ident = some param.type.ty)
    (hfit : ArgumentsFit ps arguments) (hvalues : frame.Truths values g.scopes) :
    frame.Truths ((ps.zip arguments).foldl (fun t y => t.insert y.1.ident.name y.2) values)
      g'.scopes := by
  induction h generalizing arguments values with
  | nil =>
    cases hfit
    exact hvalues
  | cons hk hs _ ih =>
    cases hfit with | cons hw hfit =>
    obtain ⟨htype, htypes⟩ := List.forall_mem_cons.1 htypes
    refine ih htypes hfit ?_
    rw [(Frame.register_eq_ok hk).2.2.1]
    exact hvalues.insert fun hbool => hw ((Frame.isBool_iff hs htype).1 hbool)

/-- What surrounds a run of the body of a function that was entered. -/
def Machine.scene (m : Machine) (world : World) (listing : List Line) (functions : List Function)
    (externals : List External) (f : Function) (frame : Frame) (top : Int)
    (callers : List (Int × List Line)) (k : Nat) : Scene where
  toSite := m.site world (Line.instructions listing) frame.vars.size top
  listing := listing
  functions := functions
  externals := externals
  frame := frame
  returns := f.returns.ty
  callers := callers
  budget := k

section
variable (hnodup : (Instr.labels (Line.instructions listing)).Nodup)
  (hworld : world.Honest externals) (hcalls : ∀ j < k, CallsSafe world listing functions j)
  (hm : m.Entered top latest arguments)
  (hreturns : ReturnsSafely world listing k f.returns.ty m top callers)
include hnodup hworld hcalls hm hreturns

/-- A function that was entered returns safely. -/
theorem Machine.Entered.ready (hframe : frame.Regular) :
    (m.scene world listing functions externals f frame top callers k).Ready where
  nodup := hnodup
  offset i v hv := ⟨(Array.getElem?_eq_some_iff.1 hv).1, hframe.offset i v hv⟩
  honest := hworld
  calls := hcalls
  returned := by
    intro waiting scopes w s m' h hw rest
    obtain ⟨m₁, hleave, hrsp, hrbp, hrax, hfilled, -, habove⟩ := h.toHolds.leaveFrame
    have hcaller : m₁.memory top = .caller := (habove top (Int.le_refl _)).trans hm.caller
    refine Scene.Safe.exec hleave ?_
    -- The return ends the run, or goes to the place behind the call.
    rcases hreturns with rfl | ⟨back, others, rfl, hback⟩
    · have hret : Process.ret m₁ [] = .error (.returned w) := by
        simp [Process.ret, Process.proceed, Machine.ret, hrsp, hrax, hcaller]
      exact Process.Safe.of_end hret (by simp)
    · have hret : Process.ret m₁ ((top, back) :: others) =
          .ok ⟨back, m₁.setReg .rsp (.stack (top + 8)), others⟩ :=
        if_pos ⟨hrsp, hcaller⟩
      exact Process.Safe.of_exec hret (hback w _ ⟨rfl, hrbp, habove⟩ hrax hfilled hw)

/-- The code of a function is safe when it is entered with fitting arguments. -/
theorem FunctionListed.safe {l l' : Labels} {code : List Line}
    (h : FunctionListed (functions.map (·.ident.name)) l f frame code l')
    (hsuffix : code ++ rest <:+ listing) (hconforms : f.Conforms functions externals frame)
    (hread : f.body.ValueRead) (hclear : f.body.breaksClear true = true)
    (hfit : ArgumentsFit f.params arguments) :
    Process.Safe world listing (Note.Truthful world) k ⟨code ++ rest, m, callers⟩ := by
  cases h with | @intro _ _ g g' comments stores body hps hs hb =>
  have hloops := Function.LaidIn.currentLoop?_eq ⟨g, g', hps, hb.laid, rfl⟩
  have hg := hps.grows (Frame.start_ne_nil f.ident.name)
  have hregular := hg.regular (Frame.start_regular f.ident.name)
  have hframe := ((hb.laid.grows hg.scopes.ne_nil).regular hregular).leave
  let x := m.scene world listing functions externals f g'.leave top callers k
  have hx : x.Ready := Machine.Entered.ready hnodup hworld hcalls hm hreturns hframe
  have hcontext : x.Context ⟨g'.leave, functions.map (·.ident.name), comments⟩ true [] g :=
    ⟨hx, rfl, rfl, hregular, hg.scopes.ne_nil, by simp [hloops]⟩
  have hsuits : x.Suits ⟨g'.leave, functions.map (·.ident.name), comments⟩ :=
    ⟨hnodup, hx.offset, by simp [hloops]⟩
  -- The frame is made, and the arguments are put into it.
  obtain ⟨m₁, hreach₁, h₁, hregs⟩ := @Machine.Entered.makeFrame world (Line.instructions listing)
    _ _ _ _ hm g'.leave.function g'.vars.size stores
  have hwords : ((Convention.argumentRegs.drop 0).take arguments.length).map m₁.regs =
      arguments.map .word := by
    rw [← hm.arguments]
    exact List.map_congr_left fun r hr => hregs r (List.mem_of_mem_take hr)
  obtain ⟨m₂, hreach₂, h₂⟩ := Holds.storeArguments hsuits hps (Frame.start_regular f.ident.name) hs
    hfit.length_eq.symm hwords h₁ []
  rw [List.append_nil] at hreach₂
  have htruths : x.frame.Truths (paramScope f.params arguments) g.scopes :=
    hps.truths hconforms.params hfit (.cons .nil .nil)
  have hstraight : ∀ i ∈ .label g'.leave.function :: .push .rbp :: .mov Reg.rsp Reg.rbp ::
      .sub (.imm (8 * g'.vars.size : Nat)) Reg.rsp :: stores, i.isStraight = true := by
    have hstores := straight_storeParams hs
    simpa [Instr.isStraight] using hstores
  simp only [List.append_assoc, List.cons_append, List.nil_append] at hsuffix ⊢
  rw [hframe.size] at hsuffix ⊢
  refine Process.Safe.reaches hstraight (hreach₁.trans hreach₂) ?_
  exact f.body.safe hcontext ⟨hread.everywhere, hconforms.nodes, hclear⟩ hb (suffix_right hsuffix)
    ⟨h₂, htruths⟩ fun w s m hm hw =>
      hx.returned hm (fun hty => hw (hconforms.body.trans hty)) rest

end

/-- The code of a function is found by its name. -/
theorem FunctionListed.codeAt_eq {names : List String} {l l' : Labels} {code : List Line}
    (h : FunctionListed names l f frame code l')
    (hnodup : (Instr.labels (Line.instructions listing)).Nodup)
    (hsuffix : code ++ rest <:+ listing) :
    Line.codeAt f.ident.name listing = some (code ++ rest) := by
  cases h with | intro hps hs hb =>
  rw [← Function.LaidIn.function_eq ⟨_, _, hps, hb.laid, rfl⟩]
  exact Line.codeAt_of_suffix hnodup hsuffix

/-! ## Programs -/

/-- The functions of a program are safe for any number of steps. -/
theorem PlacedFunctions.callsSafe {placed : PlacedFunctions} {options : GenOptions}
    (hlisted : placed.ListedAs options listing)
    (hnodup : (Instr.labels (Line.instructions listing)).Nodup)
    (hconforms : List.Forall₂ (Function.Conforms placed.functions externals) placed.functions
      placed.frames)
    (hread : ∀ f ∈ placed.functions, f.body.ValueRead)
    (hclear : ∀ f ∈ placed.functions, f.body.breaksClear true = true)
    (hworld : world.Honest externals) (k : Nat) :
    CallsSafe world listing placed.functions k := by
  induction k using Nat.strongRecOn with
  | ind k ih =>
    intro f hf m top latest arguments callers hm hfit hreturns
    have hzip : f ∈ (placed.functions.zip placed.frames).map Prod.fst := by
      rwa [List.map_fst_zip (Nat.le_of_eq hconforms.length_eq)]
    obtain ⟨⟨f, frame⟩, hmem, rfl⟩ := List.mem_map.1 hzip
    obtain ⟨l, l', code, rest, hcode, hsuffix⟩ := hlisted.exists_of_mem hmem
    exact ⟨code ++ rest, hcode.codeAt_eq hnodup hsuffix, FunctionListed.safe hnodup hworld ih hm
      hreturns hcode hsuffix (List.forall₂_zip hconforms hmem) (hread f hf) (hclear f hf) hfit⟩

/-- Booleans are always zero or one. From a text for which analysis has nothing to report, code is
made that has a listing with a note behind the code of every expression. In each run of a function
with arguments that are zero or one where its parameters have the type `bool`, if external functions
that return `bool` answer with zero or one, what the notes tell holds whenever the run comes to
them: an expression of type `bool` has left zero or one, the visible variables of type `bool` are
zero or one, and the code of `&&` and `||` between such operands computes the logical connective.
The run is that of the code without notes, and never comes to something that has no meaning.

No `break` may leave a loop while a word waits on the stack that was put there inside the loop. -/
theorem Program.booleans_kept {p : Program} {options : GenOptions} {assembly : Assembly}
    {labels : Labels} (hp : p.Written) (hclean : p.analyze.report = [])
    (hgen : (p.analyze.program.generate options).result = .ok (assembly, labels))
    (hclear : ∀ f ∈ (p.analyze.program.generate options).program.functions,
      f.body.breaksClear true = true)
    (hworld : world.Honest p.externals) :
    ∃ listing, (placeFunctions {} p.analyze.program.functions).ListedAs options listing ∧
      Line.instructions listing = Instr.plain assembly.code ∧
      ∀ f ∈ (p.analyze.program.generate options).program.functions, ∀ m top latest arguments,
        m.Entered top latest arguments → ArgumentsFit f.params arguments →
        ∃ start, Line.codeAt f.ident.name listing = some start ∧ ∀ n,
          Process.run world (Line.code (Instr.plain assembly.code)) n
              (Process.plain ⟨start, m, []⟩) =
            (Process.run world listing n ⟨start, m, []⟩).map Process.plain ∧
          Process.run world listing n ⟨start, m, []⟩ ≠ .error .stuck ∧
          ∀ q, Process.run world listing n ⟨start, m, []⟩ = .ok q →
            q.Complies (Note.Truthful world) := by
  obtain ⟨hstopped, hfunctions, hassemble⟩ := Program.generate_eq_ok hgen
  have hread := Function.asRead_of_bare_eq p.bare_placed hp.asRead.functions
  have hlaid := laid_placeFunctions hstopped
  have hnodup := PlacedFunctions.labels_nodup_of_ok hlaid hassemble
    (names_of_bare_eq p.bare_placed ▸ p.nodup_of_clean hclean) fun f hf => (hread f hf).1
  obtain ⟨listing, hlisted, hinstructions⟩ := PlacedFunctions.exists_listing hlaid hassemble
  refine ⟨listing, hlisted, hinstructions, fun f hf m top latest arguments hm hfit => ?_⟩
  rw [← hinstructions] at hnodup ⊢
  rw [hfunctions] at hf hclear
  have hsafe := PlacedFunctions.callsSafe hlisted hnodup (p.conforms_of_clean hp.asRead hclean)
    (fun f hf => (hread f hf).2) hclear hworld
  obtain ⟨start, hstart, -⟩ := hsafe 0 f hf m top latest arguments [] hm hfit (.inl rfl)
  refine ⟨start, hstart, fun n => ⟨Process.run_plain n _, ?_⟩⟩
  obtain ⟨start', hstart', hsafe⟩ := hsafe n f hf m top latest arguments [] hm hfit (.inl rfl)
  rw [hstart] at hstart'
  cases hstart'
  exact hsafe.run_safe (Nat.le_refl n)

/-- A function with a loop that is left, which calls an external function, and one that calls it. -/
def Program.voteText : String :=
  "extrn bool ask() bool vote(bool a, bool b) " ++
    braced ("while a " ++ braced ("a = ask() && !b; if a " ++ braced "break;" ++ ";") ++ "; a") ++
    " bool main(bool a, bool b) " ++ braced "vote(a || b, b)"

/-- The text stands for a program whose code returns `1` within 52 instructions for the arguments
`1` and `0`, if every call is answered with `1`. -/
theorem Program.booleans_kept_vote :
    let world : World := ⟨fun _ => 7, fun _ => some 1⟩
    let m := Machine.entry 1 0
    ∃ (p : Program) (assembly : Assembly) (labels : Labels) (f : Function)
      (listing start : List Line),
      p.Written ∧ p.analyze.report = [] ∧
      (p.analyze.program.generate {}).result = .ok (assembly, labels) ∧
      (∀ f ∈ (p.analyze.program.generate {}).program.functions, f.body.breaksClear true = true) ∧
      world.Honest p.externals ∧ f ∈ (p.analyze.program.generate {}).program.functions ∧
      f.ident.name = "main" ∧ m.Entered 0 0 [1, 0] ∧ ArgumentsFit f.params [1, 0] ∧
      (placeFunctions {} p.analyze.program.functions).ListedAs {} listing ∧
      Line.instructions listing = Instr.plain assembly.code ∧
      Line.codeAt f.ident.name listing = some start ∧
      Process.run world listing 52 ⟨start, m, []⟩ = .error (.returned 1) ∧
      ∀ n q, Process.run world listing n ⟨start, m, []⟩ = .ok q →
        q.Complies (Note.Truthful world) := by
  intro world m
  have hcheck : (Program.ofText? "main" Program.voteText).any (fun p =>
      let generated := p.analyze.program.generate {}
      p.analyze.report.isEmpty && generated.program.functions.all (·.body.breaksClear true) &&
        generated.result.toOption.any fun r => generated.program.functions.any fun f =>
          let lines := Line.code (Instr.plain r.1.code)
          f.ident.name == "main" && f.params.length == 2 &&
            (Line.codeAt f.ident.name lines).any fun start =>
              (Process.run ⟨fun _ => 7, fun _ => some 1⟩ lines 52 ⟨start, .entry 1 0, []⟩).map
                (fun _ => ()) == .error (.returned 1)) = true := by
    decide +kernel
  obtain ⟨p, hp, h⟩ := (Option.any_eq_true ..).1 hcheck
  simp only [Bool.and_eq_true, List.isEmpty_iff, List.all_eq_true] at h
  obtain ⟨⟨hclean, hclear⟩, h⟩ := h
  obtain ⟨⟨assembly, labels⟩, hgen, h⟩ := (Option.any_eq_true ..).1 h
  obtain ⟨f, hf, h⟩ := List.any_eq_true.1 h
  simp only [Bool.and_eq_true, beq_iff_eq] at h
  obtain ⟨⟨hmain, hlength⟩, h⟩ := h
  obtain ⟨code, hcode, hrun⟩ := (Option.any_eq_true ..).1 h
  have hwritten := Program.written_of_ofText? hp
  have hgen := eq_ok_of_toOption hgen
  have hworld : world.Honest p.externals := by
    rintro e - - arguments earlier w ⟨⟩
    exact ⟨true, rfl⟩
  have hm : m.Entered 0 0 [1, 0] := ⟨rfl, rfl, rfl, rfl, rfl⟩
  have hfit : ArgumentsFit f.params [1, 0] := by
    obtain ⟨a, b, hparams⟩ := List.length_eq_two.1 hlength
    rw [hparams]
    exact .cons (fun _ => ⟨true, rfl⟩) (.cons (fun _ => ⟨false, rfl⟩) .nil)
  obtain ⟨listing, hlisted, hlines, hruns⟩ :=
    Program.booleans_kept hwritten hclean hgen hclear hworld
  obtain ⟨start, hstart, hsafe⟩ := hruns f hf m 0 0 [1, 0] hm hfit
  refine ⟨p, assembly, labels, f, listing, start, hwritten, hclean, hgen, hclear, hworld, hf,
    hmain, hm, hfit, hlisted, hlines, hstart, ?_, fun n => (hsafe n).2.2⟩
  -- Without notes, the run starts at the code that was found above.
  rw [← hlines, Line.codeAt_instructions, hstart] at hcode
  cases hcode
  have hplain := (hsafe 52).1
  rw [Process.plain, List.map_nil] at hplain
  rw [hplain, beq_iff_eq] at hrun
  cases h : Process.run world listing 52 ⟨start, m, []⟩ with
  | ok q => simp [h, Except.map] at hrun
  | error ending => simpa [h, Except.map] using hrun

end Ilang
