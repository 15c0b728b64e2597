import Ilang.Proofs.Translation
/-!
# Where the code of an expression ends

A listing is code with notes in it. The code of each expression is followed by a note that it ends
there, and which variables are visible then (`Note.done`); where an operator takes its operands, a
note tells them (`Note.operands`). Without its notes, a listing is the code that is made
(`PlacedFunctions.exists_listing`).

A jump goes to a label, and a label stands behind the notes about the code in front of it. So a run
comes past the note at the end of an expression only if it comes out of the code of that expression,
and not if it jumps to what follows, for instance back to a loop behind it.
-/
namespace Ilang

/-! ## Lines -/

/-- What is told about a place in code. -/
inductive Note where
  /-- The code of an expression ends here. The scopes of the frame have what is visible. -/
  | done (e : Expr) (frame : Frame)
  /-- The operands of an operator are in their registers: the left one in `rax`, the right one in
  `rbx`. -/
  | operands (op : BinaryOp) (left right : Expr)

/-- A line of a listing. -/
inductive Line where
  | instr (i : Instr)
  | note (n : Note)

namespace Line

/-- Instructions as the lines of a listing. -/
def code (is : List Instr) : List Line := is.map instr

/-- The instruction in a line. -/
def instr? : Line → Option Instr
  | instr i => some i
  | note _ => none

/-- The instructions of a listing. -/
def instructions (ls : List Line) : List Instr := ls.filterMap instr?

/-- The notes about the place where a listing starts. -/
def notes : List Line → List Note
  | note n :: ls => n :: notes ls
  | _ => []

/-- The listing from a label on. -/
def codeAt (name : String) : List Line → Option (List Line)
  | [] => none
  | note _ :: ls => codeAt name ls
  | instr i :: ls => if i = .label name then some (instr i :: ls) else codeAt name ls

@[simp] theorem code_nil : code [] = [] := rfl

@[simp] theorem code_cons (i : Instr) (is : List Instr) : code (i :: is) = instr i :: code is := rfl

@[simp] theorem code_append (is js : List Instr) : code (is ++ js) = code is ++ code js :=
  List.map_append

@[simp] theorem instructions_nil : instructions [] = [] := rfl

@[simp] theorem instructions_append (ls ls' : List Line) :
    instructions (ls ++ ls') = instructions ls ++ instructions ls' :=
  List.filterMap_append

@[simp] theorem instructions_instr (i : Instr) (ls : List Line) :
    instructions (instr i :: ls) = i :: instructions ls := rfl

@[simp] theorem instructions_note (n : Note) (ls : List Line) :
    instructions (note n :: ls) = instructions ls := rfl

@[simp] theorem instructions_code (is : List Instr) : instructions (code is) = is := by
  induction is with
  | nil => rfl
  | cons i is ih => simp [ih]

/-- If each label stands in one place only, the listing from a label on starts in that place. -/
theorem codeAt_of_suffix {listing rest : List Line} {name : String}
    (hnodup : (Instr.labels (instructions listing)).Nodup)
    (h : instr (.label name) :: rest <:+ listing) :
    codeAt name listing = some (instr (.label name) :: rest) := by
  obtain ⟨before, rfl⟩ := h
  induction before with
  | nil => simp [codeAt]
  | cons line before ih =>
    cases line with
    | note n => exact ih hnodup
    | instr i =>
      rw [List.cons_append, instructions_instr, Instr.labels_cons, List.nodup_append] at hnodup
      -- A line in front of the label cannot be the same label.
      have hne : i ≠ .label name := by
        rintro rfl
        exact hnodup.2.2 name (by simp [Instr.label?]) name
          (by simp [Instr.labels_cons, Instr.label?]) rfl
      rw [List.cons_append, codeAt, if_neg hne]
      exact ih hnodup.2.1

/-- A label is found with or without the notes. -/
theorem codeAt_instructions (name : String) (ls : List Line) :
    codeAt name (code (instructions ls)) =
      (codeAt name ls).map fun rest => code (instructions rest) := by
  induction ls with
  | nil => rfl
  | cons line ls ih =>
    cases line with
    | note n => exact ih
    | instr i =>
      simp only [instructions_instr, code_cons, codeAt]
      split
      · rfl
      · exact ih

end Line

/-! ## Listings of expressions -/

mutual

/-- The code of an expression, with notes about its parts. It goes through the expression as
placement did, from one frame to another. -/
inductive Lists : Surroundings → Frame → Labels → Expr → List Line → Labels → Frame → Prop
  | literal {env f l n text constant is} (hs : n.ty = .string → ∃ label, constant = some label)
    (h : literalCode n text constant = .ok is) :
    Lists env f l (.literal n text constant) (Line.code is) l f
  | var {env f l n i k place} (hk : f.scopes.lookup i.name = some k) (hs : i.slot = some k)
    (h : env.frame.slotOf i = .ok place) :
    Lists env f l (.var n i) [.instr (.mov place Reg.rax)] l f
  | call {env f g l m n callee arguments args pops}
    (ha : ArgumentsListed env f l arguments args m g)
    (hp : popArguments arguments.length = .ok pops) :
    Lists env f l (.call n callee arguments)
      (args ++ (Line.code pops ++ [.instr (.mov (.imm 0) Reg.rax),
        .instr (.call callee.name (!env.functions.contains callee.name))])) m g
  | block {env f g h l m k n body result b r} (hb : AllListed env f.enter l body b m g)
    (hr : OptListed env g m result r k h) : Lists env f l (.block n body result) (b ++ r) k h.leave
  | bind {env f g h l m n i type value v k place} (hv : Listed env f l value v m g)
    (hk : g.register i.name type.ty i.location = (.ok k, h)) (hs : i.slot = some k)
    (hp : env.frame.slotOf i = .ok place) :
    Lists env f l (.bind n i type value) (v ++ [.instr (.mov Reg.rax place)]) m h
  | assign {env f g l m n i value v k place} (hv : Listed env f l value v m g)
    (hk : g.scopes.lookup i.name = some k) (hs : i.slot = some k)
    (hp : env.frame.slotOf i = .ok place) :
    Lists env f l (.assign n i value) (v ++ [.instr (.mov Reg.rax place)]) m g
  | binary {env f g h l m k n op left right lc rc} (hr : Listed env g l right rc m h)
    (hl : Listed env f m left lc k g) :
    Lists env f l (.binary n op left right)
      (rc ++ .instr (.push .rax) :: (lc ++ .instr (.push .rax) :: .instr (.pop .rax) ::
        .instr (.pop .rbx) :: .note (.operands op left right) :: Line.code op.code)) k h
  | unary {env f g l m n op operand c} (h : Listed env f l operand c m g) :
    Lists env f l (.unary n op operand) (c ++ Line.code op.code) m g
  | group {env f g l m n inner c} (h : Listed env f l inner c m g) :
    Lists env f l (.group n inner) c m g
  | branch {env f g h i l m k j n condition onTrue onFalse c t e}
    (hc : Listed env f l.afterBranch condition c m g) (ht : Listed env g m onTrue t k h)
    (hf : OptListed env h k onFalse e j i) :
    Lists env f l (.branch n condition onTrue onFalse)
      (c ++ .instr (.cmp (.imm 0) Reg.rax) :: .instr (.je l.elseLabel) ::
        (t ++ .instr (.jmp l.branchEnd) :: .instr (.label l.elseLabel) ::
          (e ++ [.instr (.label l.branchEnd)]))) j i
  | ret {env f g l m n value v} (h : Listed env f l value v m g) :
    Lists env f l (.ret n value) (v ++ [.instr .leave, .instr .ret]) m g
  | loop {env f g h l m k n condition body c b}
    (hc : Listed (env.inLoop l.loopEnd) f l.afterLoop condition c m g)
    (hb : Listed (env.inLoop l.loopEnd) g m body b k h) :
    Lists env f l (.loop n condition body)
      (.instr (.label l.loopStart) :: (c ++ .instr (.cmp (.imm 0) Reg.rax) ::
        .instr (.je l.loopEnd) ::
          (b ++ [.instr (.jmp l.loopStart), .instr (.label l.loopEnd)]))) k h
  | brk {env f l n endLabel} (h : env.frame.currentLoop? = some endLabel) :
    Lists env f l (.brk n) [.instr (.jmp endLabel)] l f

/-- The code of an expression that has been placed, with a note behind it that it ends there. -/
inductive Listed : Surroundings → Frame → Labels → Expr → List Line → Labels → Frame → Prop
  | intro {env f g l m e c} (hl : Laid f e g) (h : Lists env f l e c m g) :
    Listed env f l e (c ++ [.note (.done e { env.frame with scopes := g.scopes })]) m g

/-- The code of expressions that follow each other. -/
inductive AllListed : Surroundings → Frame → Labels → List Expr → List Line → Labels → Frame → Prop
  | nil {env f l} : AllListed env f l [] [] l f
  | cons {env f g h l m k e es c cs} (he : Listed env f l e c m g)
    (hes : AllListed env g m es cs k h) : AllListed env f l (e :: es) (c ++ cs) k h

/-- The code of arguments, each of which is put on the stack. -/
inductive ArgumentsListed :
    Surroundings → Frame → Labels → List Expr → List Line → Labels → Frame → Prop
  | nil {env f l} : ArgumentsListed env f l [] [] l f
  | cons {env f g h l m k e es c cs} (he : Listed env f l e c m g)
    (hes : ArgumentsListed env g m es cs k h) :
    ArgumentsListed env f l (e :: es) (c ++ .instr (.push .rax) :: cs) k h

/-- The code of an expression that may be missing. -/
inductive OptListed :
    Surroundings → Frame → Labels → Option Expr → List Line → Labels → Frame → Prop
  | none {env f l} : OptListed env f l none (Line.code unitCode) l f
  | some {env f g l m e c} (h : Listed env f l e c m g) : OptListed env f l (some e) c m g

end

mutual

/-- A tree that has been placed is listed like its code. -/
theorem Laid.exists_listed {env : Surroundings} {f g : Frame} {l m : Labels} {e : Expr}
    {c : List Instr} (h : Laid f e g) (hc : Emits env l e c m) :
    ∃ ls, Listed env f l e ls m g ∧ Line.instructions ls = c := by
  -- The note behind the expression adds no instruction.
  suffices hlists : ∃ ls, Lists env f l e ls m g ∧ Line.instructions ls = c by
    obtain ⟨ls, hls, rfl⟩ := hlists
    exact ⟨_, .intro h hls, by simp⟩
  cases h with
  | literal hs =>
    cases hc with | literal hcode =>
    exact ⟨_, .literal hs hcode, by simp⟩
  | var hk hs =>
    cases hc with | var hplace =>
    exact ⟨_, .var hk hs hplace, by simp⟩
  | call ha =>
    cases hc with | call _ hargs hp =>
    obtain ⟨_, hls, rfl⟩ := ha.exists_argumentsListed hargs
    exact ⟨_, .call hls hp, by simp⟩
  | block hb hr =>
    cases hc with | block hcb hcr =>
    obtain ⟨_, hlb, rfl⟩ := hb.exists_listed hcb
    obtain ⟨_, hlr, rfl⟩ := hr.exists_listed hcr
    exact ⟨_, .block hlb hlr, by simp⟩
  | bind hv hk hs =>
    cases hc with | bind hcv hplace =>
    obtain ⟨_, hlv, rfl⟩ := hv.exists_listed hcv
    exact ⟨_, .bind hlv hk hs hplace, by simp⟩
  | assign hv hk hs =>
    cases hc with | assign hcv hplace =>
    obtain ⟨_, hlv, rfl⟩ := hv.exists_listed hcv
    exact ⟨_, .assign hlv hk hs hplace, by simp⟩
  | binary hl hr =>
    cases hc with | binary hcr hcl =>
    obtain ⟨_, hll, rfl⟩ := hl.exists_listed hcl
    obtain ⟨_, hlr, rfl⟩ := hr.exists_listed hcr
    exact ⟨_, .binary hlr hll, by simp⟩
  | unary h =>
    cases hc with | unary hc =>
    obtain ⟨_, hls, rfl⟩ := h.exists_listed hc
    exact ⟨_, .unary hls, by simp⟩
  | group h =>
    cases hc with | group hc =>
    obtain ⟨_, hls, rfl⟩ := h.exists_listed hc
    exact ⟨_, .group hls, by simp⟩
  | branch hc' ht hf =>
    cases hc with | branch hcc hct hcf =>
    obtain ⟨_, hlc, rfl⟩ := hc'.exists_listed hcc
    obtain ⟨_, hlt, rfl⟩ := ht.exists_listed hct
    obtain ⟨_, hlf, rfl⟩ := hf.exists_listed hcf
    exact ⟨_, .branch hlc hlt hlf, by simp⟩
  | ret h =>
    cases hc with | ret hc =>
    obtain ⟨_, hls, rfl⟩ := h.exists_listed hc
    exact ⟨_, .ret hls, by simp⟩
  | loop hc' hb =>
    cases hc with | loop hcc hcb =>
    obtain ⟨_, hlc, rfl⟩ := hc'.exists_listed hcc
    obtain ⟨_, hlb, rfl⟩ := hb.exists_listed hcb
    exact ⟨_, .loop hlc hlb, by simp⟩
  | brk =>
    cases hc with | brk hlabel =>
    exact ⟨_, .brk hlabel, by simp⟩

theorem LaidAll.exists_listed {env : Surroundings} {f g : Frame} {l m : Labels} {es : List Expr}
    {c : List Instr} (h : LaidAll f es g) (hc : EmitsAll env l es c m) :
    ∃ ls, AllListed env f l es ls m g ∧ Line.instructions ls = c := by
  cases h with
  | nil =>
    cases hc
    exact ⟨_, .nil, rfl⟩
  | cons he hes =>
    cases hc with | cons hce hces =>
    obtain ⟨_, hle, rfl⟩ := he.exists_listed hce
    obtain ⟨_, hles, rfl⟩ := hes.exists_listed hces
    exact ⟨_, .cons hle hles, by simp⟩

theorem LaidAll.exists_argumentsListed {env : Surroundings} {f g : Frame} {l m : Labels}
    {es : List Expr} {c : List Instr} (h : LaidAll f es g) (hc : EmitsArguments env l es c m) :
    ∃ ls, ArgumentsListed env f l es ls m g ∧ Line.instructions ls = c := by
  cases h with
  | nil =>
    cases hc
    exact ⟨_, .nil, rfl⟩
  | cons he hes =>
    cases hc with | cons hce hces =>
    obtain ⟨_, hle, rfl⟩ := he.exists_listed hce
    obtain ⟨_, hles, rfl⟩ := hes.exists_argumentsListed hces
    exact ⟨_, .cons hle hles, by simp⟩

theorem LaidOpt.exists_listed {env : Surroundings} {f g : Frame} {l m : Labels} {e : Option Expr}
    {c : List Instr} (h : LaidOpt f e g) (hc : EmitsOpt env l e c m) :
    ∃ ls, OptListed env f l e ls m g ∧ Line.instructions ls = c := by
  cases h with
  | none =>
    cases hc
    exact ⟨_, .none, by simp⟩
  | some he =>
    cases hc with | some hce =>
    obtain ⟨_, hle, rfl⟩ := he.exists_listed hce
    exact ⟨_, .some hle, rfl⟩

end

theorem Listed.laid {env : Surroundings} {f g : Frame} {l m : Labels} {e : Expr} {c : List Line}
    (h : Listed env f l e c m g) : Laid f e g := by
  cases h with
  | intro hl _ => exact hl

theorem AllListed.laid {env : Surroundings} {f g : Frame} {l m : Labels} {es : List Expr}
    {c : List Line} (h : AllListed env f l es c m g) : LaidAll f es g := by
  induction es generalizing f l c with
  | nil =>
    cases h
    exact .nil
  | cons e es ih =>
    cases h with | cons he hes =>
    exact .cons he.laid (ih hes)

theorem ArgumentsListed.laid {env : Surroundings} {f g : Frame} {l m : Labels} {es : List Expr}
    {c : List Line} (h : ArgumentsListed env f l es c m g) : LaidAll f es g := by
  induction es generalizing f l c with
  | nil =>
    cases h
    exact .nil
  | cons e es ih =>
    cases h with | cons he hes =>
    exact .cons he.laid (ih hes)

theorem OptListed.laid {env : Surroundings} {f g : Frame} {l m : Labels} {e : Option Expr}
    {c : List Line} (h : OptListed env f l e c m g) : LaidOpt f e g := by
  cases h with
  | none => exact .none
  | some h => exact .some h.laid

/-! ## Listings of programs -/

/-- The code of a function that has been placed in a frame, with notes. -/
inductive FunctionListed (functions : List String) :
    Labels → Function → Frame → List Line → Labels → Prop
  | intro {l m f g h comments stores body} (hps : LaidParams (.start f.ident.name) f.params g)
    (hs : storeParams h.leave 0 f.params = .ok stores)
    (hb : Listed ⟨h.leave, functions, comments⟩ g l f.body body m h) :
    FunctionListed functions l f h.leave
      (Line.code (.label h.leave.function :: .push .rbp :: .mov Reg.rsp Reg.rbp ::
        .sub (.imm h.leave.size) Reg.rsp :: stores) ++ (body ++ [.instr .leave, .instr .ret])) m

/-- The code of functions with their frames, with notes. -/
inductive FunctionsListed (functions : List String) :
    Labels → List (Function × Frame) → List Line → Labels → Prop
  | nil {l} : FunctionsListed functions l [] [] l
  | cons {l m k f frame fs c cs} (hf : FunctionListed functions l f frame c m)
    (hfs : FunctionsListed functions m fs cs k) :
    FunctionsListed functions l ((f, frame) :: fs) (c ++ cs) k

/-- The code of placed functions behind two directives, with notes. -/
def PlacedFunctions.ListedAs (placed : PlacedFunctions) (options : GenOptions)
    (listing : List Line) : Prop :=
  ∃ lines labels,
    listing = .instr (.directive ".text") ::
      .instr (.directive (".globl " ++ options.entryPoint)) :: lines ∧
    FunctionsListed (placed.functions.map (·.ident.name)) {} (placed.functions.zip placed.frames)
      lines labels

theorem Function.LaidIn.exists_listed {functions : List String} {f : Function} {frame : Frame}
    {l m : Labels} {c : List Instr} (h : f.LaidIn frame)
    (hc : EmitsFunction functions l f frame c m) :
    ∃ ls, FunctionListed functions l f frame ls m ∧ Line.instructions ls = c := by
  obtain ⟨g, g', hps, hbody, rfl⟩ := h.laid
  cases hc with
  | intro hmax hs hb =>
    obtain ⟨_, hls, rfl⟩ := hbody.exists_listed hb
    exact ⟨_, .intro hps hs hls, by simp⟩

theorem EmitsFunctions.exists_listed {functions : List String} {fs : List (Function × Frame)}
    {l m : Labels} {c : List Instr} (h : EmitsFunctions functions l fs c m)
    (hlaid : ∀ x ∈ fs, x.1.LaidIn x.2) :
    ∃ ls, FunctionsListed functions l fs ls m ∧ Line.instructions ls = c := by
  induction h with
  | nil => exact ⟨_, .nil, rfl⟩
  | cons hf _ ih =>
    obtain ⟨hhead, htail⟩ := List.forall_mem_cons.1 hlaid
    obtain ⟨_, hls, rfl⟩ := hhead.exists_listed hf
    obtain ⟨_, hlss, rfl⟩ := ih htail
    exact ⟨_, .cons hls hlss, by simp⟩

/-- The code of a program has a listing. -/
theorem PlacedFunctions.exists_listing {placed : PlacedFunctions} {options : GenOptions}
    {assembly : Assembly} {labels : Labels}
    (hlaid : List.Forall₂ Function.LaidIn placed.functions placed.frames)
    (h : placed.assemble options = .ok (assembly, labels)) :
    ∃ listing, placed.ListedAs options listing ∧
      Line.instructions listing = Instr.plain assembly.code := by
  obtain ⟨code, hcode, hemits⟩ := PlacedFunctions.emits_of_ok h
  obtain ⟨lines, hlines, rfl⟩ := hemits.exists_listed fun x hx => List.forall₂_zip hlaid hx
  exact ⟨_, ⟨lines, labels, rfl, hlines⟩, by simp [hcode]⟩

theorem FunctionsListed.exists_of_mem {functions : List String} {l m : Labels}
    {fs : List (Function × Frame)} {c : List Line} (h : FunctionsListed functions l fs c m)
    {f : Function} {frame : Frame} (hf : (f, frame) ∈ fs) :
    ∃ k k' code rest, FunctionListed functions k f frame code k' ∧ code ++ rest <:+ c := by
  induction h with
  | nil => cases hf
  | cons hcode _ ih =>
    rcases List.mem_cons.1 hf with heq | hf
    · cases heq
      exact ⟨_, _, _, _, hcode, List.suffix_rfl⟩
    · obtain ⟨k, k', code, rest, hcode', hsuffix⟩ := ih hf
      exact ⟨k, k', code, rest, hcode', hsuffix.trans (List.suffix_append _ _)⟩

/-- The code of each function stands somewhere in the listing of a program. -/
theorem PlacedFunctions.ListedAs.exists_of_mem {placed : PlacedFunctions} {options : GenOptions}
    {listing : List Line} (h : placed.ListedAs options listing) {f : Function} {frame : Frame}
    (hf : (f, frame) ∈ placed.functions.zip placed.frames) :
    ∃ k k' code rest, FunctionListed (placed.functions.map (·.ident.name)) k f frame code k' ∧
      code ++ rest <:+ listing := by
  obtain ⟨lines, labels, rfl, hlines⟩ := h
  obtain ⟨k, k', code, rest, hcode, hsuffix⟩ := hlines.exists_of_mem hf
  exact ⟨k, k', code, rest, hcode,
    hsuffix.trans ((List.suffix_cons _ _).trans (List.suffix_cons _ _))⟩

end Ilang
