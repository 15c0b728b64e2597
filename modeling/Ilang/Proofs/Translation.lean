import Ilang.Proofs.Labels
import Ilang.Proofs.Protection
import Ilang.Proofs.Reading
/-!
# Where the code of a function stands

If code is made for a program that a text stands for and analysis has nothing to report, the code of
each function stands in the code of the program, behind its name, and the tree of the function is as
the text wrote it (`Program.translated`).
-/
namespace Ilang

/-! ## Functions as they were read -/

theorem Expr.isBind_strip (k : Keep) (e : Expr) : (e.strip k).isBind = e.isBind := by
  cases e <;> rfl

theorem Expr.asRead_strip (k : Keep) (e : Expr) : (e.strip k).AsRead ↔ e.AsRead := by
  have hchildren : (∀ c ∈ (e.strip k).children, c.isBind = false) ↔
      ∀ c ∈ e.children, c.isBind = false := by
    rw [Expr.children_strip]
    simp [Expr.isBind_strip]
  cases e with
  | block => exact Iff.rfl
  | bind => simp [Expr.strip, Expr.AsRead, Expr.isBind_strip]
  | _ => exact hchildren

theorem Expr.valueRead_strip (k : Keep) (e : Expr) : (e.strip k).ValueRead ↔ e.ValueRead := by
  have hall := Expr.everywhere_strip (Expr.asRead_strip k) e
  have hbind := e.isBind_strip k
  exact ⟨fun h => ⟨hbind ▸ h.notBind, hall.1 h.everywhere⟩,
    fun h => ⟨hbind.trans h.notBind, hall.2 h.everywhere⟩⟩

/-- Notes do not change what a function is as it was read. -/
theorem Function.asRead_of_bare_eq {fs gs : List Function}
    (h : fs.map Function.bare = gs.map Function.bare) (hgs : ∀ g ∈ gs, g.AsRead) :
    ∀ f ∈ fs, IsName f.ident.name ∧ f.body.ValueRead := by
  intro f hf
  obtain ⟨g, hg, hgf⟩ := List.mem_map.1 (h ▸ List.mem_map_of_mem hf)
  have hname : g.ident.name = f.ident.name := congrArg (·.ident.name) hgf
  have hbody : g.body.strip .nothing = f.body.strip .nothing := congrArg Function.body hgf
  refine ⟨hname ▸ (hgs g hg).name, ?_⟩
  rw [← Expr.valueRead_strip .nothing, ← hbody, Expr.valueRead_strip]
  exact (hgs g hg).body

/-! ## Code of functions -/

theorem Function.LaidIn.function_eq {f : Function} {frame : Frame} (h : f.LaidIn frame) :
    frame.function = f.ident.name := by
  obtain ⟨g, g', hps, hbody, rfl⟩ := h.laid
  have hgrows := hps.grows (Frame.start_ne_nil _)
  exact (hbody.grows hgrows.scopes.ne_nil).function.trans hgrows.function

theorem Function.LaidIn.currentLoop?_eq {f : Function} {frame : Frame} (h : f.LaidIn frame) :
    frame.currentLoop? = none := by
  obtain ⟨g, g', hps, hbody, rfl⟩ := h.laid
  have hg := hps.grows (Frame.start_ne_nil f.ident.name)
  exact congrArg List.head? (hg.trans (hbody.grows hg.scopes.ne_nil)).loops

theorem EmitsFunctions.exists_of_mem {functions : List String} {l m : Labels}
    {fs : List (Function × Frame)} {c : List Instr} (h : EmitsFunctions functions l fs c m)
    {f : Function} {frame : Frame} (hf : (f, frame) ∈ fs) :
    ∃ k k' code rest, EmitsFunction functions k f frame code k' ∧ code ++ rest <:+ c := by
  induction h with
  | nil => cases hf
  | cons hcode _ ih =>
    rcases List.mem_cons.1 hf with heq | hf
    · cases heq
      exact ⟨_, _, _, _, hcode, List.suffix_rfl⟩
    · obtain ⟨k, k', code, rest, hcode', hsuffix⟩ := ih hf
      exact ⟨k, k', code, rest, hcode', hsuffix.trans (List.suffix_append _ _)⟩

/-- The frames of functions have their names. -/
theorem names_frames {fs : List Function} {frames : List Frame}
    (h : List.Forall₂ Function.LaidIn fs frames) :
    (fs.zip frames).map (·.2.function) = fs.map (·.ident.name) := by
  induction h with
  | nil => rfl
  | cons hf _ ih => rw [List.zip_cons_cons, List.map_cons, List.map_cons, hf.function_eq, ih]

/-- No label stands twice in the code of functions with different names. -/
theorem PlacedFunctions.labels_nodup_of_ok {placed : PlacedFunctions} {options : GenOptions}
    {assembly : Assembly} {labels : Labels}
    (hlaid : List.Forall₂ Function.LaidIn placed.functions placed.frames)
    (h : placed.assemble options = .ok (assembly, labels))
    (hnodup : (placed.functions.map (·.ident.name)).Nodup)
    (hnames : ∀ f ∈ placed.functions, IsName f.ident.name) :
    (Instr.labels (Instr.plain assembly.code)).Nodup := by
  obtain ⟨code, hcode, hemits⟩ := PlacedFunctions.emits_of_ok h
  rw [hcode]
  refine hemits.labels_nodup (names_frames hlaid ▸ hnodup) ?_
  intro x hx
  rw [(List.forall₂_zip hlaid hx).function_eq]
  exact (hnames x.1 (List.of_mem_zip hx).1).head?_ne_dot

/-- From some place on, a program is the code of a function, which is as it was written and has its
frame. -/
structure Function.TranslatedAt (f : Function) (program : List Instr) (frame : Frame)
    (start : List Instr) : Prop where
  nodup : (Instr.labels program).Nodup
  read : f.body.ValueRead
  typed : f.body.Everywhere Expr.LiteralTyped
  laid : f.LaidIn frame
  emits : ∃ functions l l' code rest, EmitsFunction functions l f frame code l' ∧ start = code ++ rest
  suffix : start <:+ program

/-- The code of a function is found by its name. -/
theorem Function.TranslatedAt.codeAt_eq {f : Function} {program start : List Instr} {frame : Frame}
    (h : f.TranslatedAt program frame start) : Instr.codeAt f.ident.name program = some start := by
  obtain ⟨functions, l, l', code, rest, hcode, rfl⟩ := h.emits
  cases hcode with
  | intro =>
    rw [← h.laid.function_eq]
    exact Instr.codeAt_of_suffix h.nodup h.suffix

theorem Program.generate_eq_ok {p : Program} {options : GenOptions} {assembly : Assembly}
    {labels : Labels} (h : (p.generate options).result = .ok (assembly, labels)) :
    (placeFunctions {} p.functions).stopped = none ∧
      (p.generate options).program.functions = (placeFunctions {} p.functions).functions ∧
      (placeFunctions {} p.functions).assemble options = .ok (assembly, labels) := by
  unfold Program.generate at *
  cases hcheck : p.checkFunctions options with
  | error e => rw [hcheck] at h; cases h
  | ok u =>
    rw [hcheck] at h
    cases hstopped : (placeFunctions {} p.functions).stopped with
    | some e => simp only [hstopped] at h; cases h
    | none =>
      simp only [hstopped] at h
      exact ⟨rfl, by simp [hstopped], h⟩

/-- The names of the functions differ if code was made. -/
theorem Program.nodup_of_ok {p : Program} {options : GenOptions} {assembly : Assembly}
    {labels : Labels} (h : (p.generate options).result = .ok (assembly, labels)) :
    (p.functions.map (·.ident.name)).Nodup := by
  unfold Program.generate Program.checkFunctions at h
  cases hfirst : firstRedeclared [] p.functions with
  | some f => rw [hfirst] at h; cases h
  | none => exact (firstRedeclared_eq_none_iff.1 hfirst).1

/-- What becomes of the functions of a program. -/
theorem Program.translated {p : Program} {options : GenOptions} {assembly : Assembly}
    {labels : Labels} (hp : p.Written) (hclean : p.analyze.report = [])
    (hgen : (p.analyze.program.generate options).result = .ok (assembly, labels)) :
    ∀ f ∈ (p.analyze.program.generate options).program.functions,
      ∃ frame start, f.TranslatedAt (Instr.plain assembly.code) frame start := by
  obtain ⟨hstopped, hfunctions, hassemble⟩ := Program.generate_eq_ok hgen
  rw [hfunctions]
  have hbare := p.bare_placed
  have hread := Function.asRead_of_bare_eq hbare hp.asRead.functions
  have hnames := names_of_bare_eq hbare
  have hready := p.ready_of_clean hclean
  have hlaid := laid_placeFunctions hstopped
  have hnodup := PlacedFunctions.labels_nodup_of_ok hlaid hassemble
    (hnames ▸ p.nodup_of_clean hclean) fun f hf => (hread f hf).1
  obtain ⟨code, hcode, hemits⟩ := PlacedFunctions.emits_of_ok hassemble
  generalize placeFunctions {} p.analyze.program.functions = placed at *
  have hfst : (placed.functions.zip placed.frames).map Prod.fst = placed.functions :=
    List.map_fst_zip (Nat.le_of_eq hlaid.length_eq)
  have hsub : code <:+ Instr.plain assembly.code := by
    rw [hcode]
    exact (List.suffix_cons _ _).trans (List.suffix_cons _ _)
  intro f hf
  rw [← hfst] at hf
  obtain ⟨⟨f, frame⟩, hmem, rfl⟩ := List.mem_map.1 hf
  obtain ⟨k, k', c, rest, hc, hsuffix⟩ := hemits.exists_of_mem hmem
  have hnotes := (List.forall₂_zip hready hmem).notes
  exact ⟨frame, c ++ rest, hnodup, (hread f (List.of_mem_zip hmem).1).2, fun x hx => (hnotes x hx).1,
    List.forall₂_zip hlaid hmem, ⟨_, k, k', c, rest, hc, rfl⟩, hsuffix.trans hsub⟩

/-! ## Texts -/

/-- Whether code is made for a text and some function of it has a property. -/
def compilesWith (source : String) (q : Assembly → Function → Bool) : Bool :=
  (Program.ofText? "main" source).any fun p =>
    p.analyze.report.isEmpty && (p.analyze.program.generate {}).result.toOption.any fun r =>
      (p.analyze.program.generate {}).program.functions.any (q r.1)

theorem exists_of_compilesWith {source : String} {q : Assembly → Function → Bool}
    (h : compilesWith source q = true) :
    ∃ (p : Program) (assembly : Assembly) (labels : Labels) (f : Function),
      p.Written ∧ p.analyze.report = [] ∧
      (p.analyze.program.generate {}).result = .ok (assembly, labels) ∧
      f ∈ (p.analyze.program.generate {}).program.functions ∧ q assembly f = true := by
  obtain ⟨p, hp, h⟩ := (Option.any_eq_true ..).1 h
  obtain ⟨hclean, h⟩ := Bool.and_eq_true_iff.1 h
  obtain ⟨⟨assembly, labels⟩, hgen, h⟩ := (Option.any_eq_true ..).1 h
  obtain ⟨f, hf, hq⟩ := List.any_eq_true.1 h
  exact ⟨p, assembly, labels, f, Program.written_of_ofText? hp, List.isEmpty_iff.1 hclean,
    eq_ok_of_toOption hgen, hf, hq⟩

end Ilang
