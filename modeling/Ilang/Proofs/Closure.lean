import Ilang.Proofs.Constants
import Ilang.Proofs.Variables
/-!
# Assembly is closed

No label of a program stands in two places, and everything that its code refers to is there. A jump
goes to a label in the code of its own function, an address is that of a constant, and a call goes
to a function of the program. A call to any other function is one to an external function that the
program declares, if analysis reports nothing (`Program.assembly_closed`).
-/
namespace Ilang

/-! ## Comments do not count -/

namespace Instr

/-- What comments have no part in is the same without them. -/
theorem filterMap_plain {α : Type} {g : Instr → Option α} (hg : ∀ text, g (.comment text) = none)
    (is : List Instr) : (plain is).filterMap g = is.filterMap g := by
  unfold plain
  rw [List.filterMap_filter]
  refine List.filterMap_congr fun i _ => ?_
  cases i with
  | comment text => simp [isComment, hg]
  | _ => rfl

theorem labels_plain (is : List Instr) : labels (plain is) = labels is :=
  filterMap_plain (fun _ => rfl) is

theorem targets_plain (is : List Instr) : targets (plain is) = targets is :=
  filterMap_plain (fun _ => rfl) is

theorem lands_plain {exit : Option String} {is : List Instr} :
    Lands exit (plain is) ↔ Lands exit is := by
  unfold Lands
  rw [targets_plain, labels_plain]

end Instr

/-! ## Jumps -/

theorem targets_storeParams {frame : Frame} {index : Nat} {ps : List Param} {is : List Instr}
    (h : storeParams frame index ps = .ok is) : Instr.targets is = [] := by
  unfold Instr.targets
  rw [List.filterMap_eq_nil_iff]
  intro i hi
  obtain ⟨src, dst, rfl⟩ := mem_storeParams h i hi
  rfl

/-- A function jumps to labels in its code. -/
theorem EmitsFunction.lands {functions : List String} {l m : Labels} {f : Function} {frame : Frame}
    {c : List Instr} (hlaid : f.LaidIn frame) (h : EmitsFunction functions l f frame c m) :
    Instr.Lands none c := by
  cases h with
  | intro hmax hs hb =>
    -- No loop is open around the body, so there is nowhere to leave to.
    have hbody := hb.lands
    rw [hlaid.currentLoop?_eq] at hbody
    have hstores : Instr.Lands none _ := .of_nil (targets_storeParams hs)
    refine .cons rfl (.cons rfl (.cons rfl (.cons rfl ?_)))
    exact hstores.append (hbody.append (.of_nil rfl))

theorem Function.head?_emit {comments : Bool} {functions : List String} {l m : Labels}
    {f : Function} {frame : Frame} {c : Code}
    (h : f.emit comments functions frame l = .ok (c, m)) :
    c.toList.head? = some (.label frame.function) := by
  rw [Function.emit] at h
  split at h
  · cases h
  · obtain ⟨stores, -, h₁⟩ := Emit.bind_lift_eq_ok h
    obtain ⟨body, k, -, h₂⟩ := Emit.bind_eq_ok h₁
    obtain ⟨rfl, rfl⟩ := Emit.pure_eq_ok h₂
    simp

/-- The code of a function starts with its name, and its jumps stay inside. -/
def Instr.IsBlock (name : String) (block : List Instr) : Prop :=
  block.head? = some (.label name) ∧ ∀ x ∈ Instr.targets block, x ∈ Instr.labels block

theorem Function.isBlock_emit {comments : Bool} {functions : List String} {l m : Labels}
    {f : Function} {frame : Frame} {c : Code} (hlaid : f.LaidIn frame)
    (h : f.emit comments functions frame l = .ok (c, m)) :
    Instr.IsBlock f.ident.name c.toList := by
  have hlands := (Function.emits_of_ok h).lands hlaid
  rw [Code.instructions, Instr.lands_plain] at hlands
  refine ⟨?_, ?_⟩
  · rw [Function.head?_emit h, hlaid.function_eq]
  · intro x hx
    rcases hlands x hx with hx | hx
    · exact hx
    · cases hx

/-- The code of functions is made of blocks. -/
theorem exists_blocks {comments : Bool} {functions : List String} {fs : List Function}
    {frames : List Frame} (hlaid : List.Forall₂ Function.LaidIn fs frames) {l m : Labels} {c : Code}
    (h : emitFunctions comments functions (fs.zip frames) l = .ok (c, m)) :
    ∃ blocks, c.toList = blocks.flatten ∧
      List.Forall₂ Instr.IsBlock (fs.map (·.ident.name)) blocks := by
  -- The functions and their frames are gone through together, as code is made from both.
  induction hlaid generalizing l m c with
  | nil =>
    obtain ⟨rfl, rfl⟩ := Emit.pure_eq_ok h
    exact ⟨[], rfl, .nil⟩
  | cons hf _ ih =>
    rw [List.zip_cons_cons, emitFunctions] at h
    obtain ⟨first, k, hfirst, h₁⟩ := Emit.bind_eq_ok h
    obtain ⟨others, k', hothers, h₂⟩ := Emit.bind_eq_ok h₁
    obtain ⟨rfl, rfl⟩ := Emit.pure_eq_ok h₂
    obtain ⟨blocks, hblocks, hall⟩ := ih hothers
    refine ⟨first.toList :: blocks, ?_, ?_⟩
    · rw [Code.toList_append, hblocks, List.flatten_cons]
    · exact .cons (Function.isBlock_emit hf hfirst) hall

/-! ## Labels of constants -/

namespace Constants

theorem toList_label (i : Nat) :
    ∃ rest, (labels.label i).toList = '.' :: 'c' :: 'o' :: 'n' :: 's' :: rest := by
  have hstem : ".constant".toList = '.' :: 'c' :: 'o' :: 'n' :: 's' :: "tant".toList := by decide
  unfold LabelSupply.label labels
  rw [String.toList_append, String.toList_append, hstem]
  exact ⟨_, rfl⟩

theorem label_ne_branch (i j : Nat) : labels.label i ≠ Labels.branch j := by
  intro h
  obtain ⟨r, hr⟩ := toList_label i
  obtain ⟨r', hr'⟩ := Labels.toList_branch j
  rw [h, hr'] at hr
  simp at hr

theorem label_ne_loop (i j : Nat) : labels.label i ≠ Labels.loop j := by
  intro h
  obtain ⟨r, hr⟩ := toList_label i
  obtain ⟨r', hr'⟩ := Labels.toList_loop j
  rw [h, hr'] at hr
  simp at hr

theorem label_ne_name (i : Nat) {name : String} (h : IsName name) : labels.label i ≠ name := by
  rintro rfl
  obtain ⟨rest, hrest⟩ := toList_label i
  exact h.head?_ne_dot (by rw [hrest]; rfl)

/-- Numbered constants have different labels. -/
theorem Numbered.nodup {c : Constants} (h : c.Numbered) :
    (c.entries.toList.map (·.label)).Nodup := by
  rw [h]
  exact List.nodup_range.map fun _ _ heq => LabelSupply.label_injective heq

end Constants

/-! ## Addresses and calls -/

/-- An address is that of the constant of its string. -/
theorem Expr.reference?_eq_lea {functions : List String} {e : Expr} {src : Operand} {dst : Reg}
    (h : e.reference? functions = some (.lea src dst)) :
    ∃ c, e.constant? = some c ∧ src = .symbol c.label .rip := by
  cases e with
  | literal n text constant =>
    simp only [reference?] at h
    split at h
    · rename_i hstring
      obtain ⟨label, rfl, heq⟩ := Option.map_eq_some_iff.1 h
      cases heq
      exact ⟨⟨label, .string, text⟩, by simp [constant?, hstring], rfl⟩
    · cases h
  | _ => cases h

/-- A call has the name of its function, and goes to an external one if no function has that. -/
theorem Expr.reference?_eq_call {functions : List String} {e : Expr} {name : String}
    {external : Bool} (h : e.reference? functions = some (.call name external)) :
    (∃ n callee arguments, e = .call n callee arguments ∧ callee.name = name) ∧
      external = !functions.contains name := by
  cases e with
  | literal n text constant =>
    simp only [reference?] at h
    split at h
    · obtain ⟨label, rfl, heq⟩ := Option.map_eq_some_iff.1 h
      cases heq
    · cases h
  | call n callee arguments =>
    cases h
    exact ⟨⟨n, callee, arguments, rfl, rfl⟩, rfl⟩
  | _ => cases h

/-- A call is one to a function with one of some names. -/
def Expr.CallsOneOf (names : List String) : Expr → Prop
  | .call _ callee _ => callee.name ∈ names
  | _ => True

theorem Expr.callsOneOf_strip (k : Keep) (names : List String) (e : Expr) :
    (e.strip k).CallsOneOf names ↔ e.CallsOneOf names := by
  cases e <;> exact Iff.rfl

/-- If analysis reports nothing, all calls are to functions that the program has or declares. -/
theorem Program.callsOneOf_of_clean {p : Program} (hread : p.AsRead) (h : p.analyze.report = [])
    {fs : List Function} (hbare : fs.map Function.bare = p.functions.map Function.bare) :
    ∀ f ∈ fs, f.body.Everywhere
      (Expr.CallsOneOf (p.externals.map (·.ident.name) ++ p.functions.map (·.ident.name))) := by
  refine everywhere_of_strip_eq (Expr.callsOneOf_strip .nothing _)
    (hbare.trans p.bare_placed.symm) ?_
  intro g hg e he
  cases e with
  | call n callee arguments =>
    obtain ⟨d, -, hkind⟩ := Program.callee_of_clean hread h g hg n callee arguments he
    rcases hkind with ⟨-, hname, -⟩ | ⟨-, hname⟩
    · exact List.mem_append_left _ hname
    · exact List.mem_append_right _ hname
  | _ => trivial

/-! ## Placed functions -/

namespace PlacedFunctions

variable {placed : PlacedFunctions} {options : GenOptions} {assembly : Assembly} {labels : Labels}
  (hlaid : List.Forall₂ Function.LaidIn placed.functions placed.frames)
  (h : placed.assemble options = .ok (assembly, labels))

include hlaid h

/-- No label stands twice in code and data together. -/
theorem labels_append_nodup (hnodup : (placed.functions.map (·.ident.name)).Nodup)
    (hnames : ∀ f ∈ placed.functions, IsName f.ident.name) (hnumbered : placed.constants.Numbered) :
    (Instr.labels assembly.code ++ Instr.labels assembly.data).Nodup := by
  have hcode := labels_nodup_of_ok hlaid h hnodup hnames
  obtain ⟨-, -, -, hdata⟩ := assemble_eq_ok h
  obtain ⟨code, hplain, hemits⟩ := emits_of_ok h
  rw [Constants.labels_dataLines hdata, ← Instr.labels_plain, List.nodup_append]
  refine ⟨hcode, hnumbered.nodup, ?_⟩
  rintro x hx _ hy rfl
  rw [hnumbered] at hy
  obtain ⟨i, -, rfl⟩ := List.mem_map.1 hy
  rw [hplain] at hx
  -- Names do not start with a dot, and the three kinds of numbered labels differ in their stems.
  rcases hemits.mem_labels hx with hx | ⟨j, hx⟩ | ⟨j, hx⟩
  · rw [names_frames hlaid] at hx
    obtain ⟨f, hf, hname⟩ := List.mem_map.1 hx
    exact Constants.label_ne_name i (hnames f hf) hname.symm
  · exact Constants.label_ne_branch i j hx
  · exact Constants.label_ne_loop i j hx

/-- A reference in the code of a program comes from a node in one of its functions. -/
theorem exists_node {i : Instr} (hi : i ∈ assembly.code) (hrefers : i.refers = true) :
    ∃ f ∈ placed.functions, ∃ e : Expr, e.Inside f.body ∧
      e.reference? (placed.functions.map (·.ident.name)) = some i := by
  have hmem : i ∈ Instr.references assembly.code := List.mem_filter.2 ⟨hi, hrefers⟩
  rw [references_of_ok hlaid.length_eq h] at hmem
  obtain ⟨f, hf, hmem⟩ := List.mem_flatMap.1 hmem
  obtain ⟨e, he, hreference⟩ := List.mem_filterMap.1 hmem
  exact ⟨f, hf, e, Expr.mem_nodes.1 he, hreference⟩

/-- An address in the code of a program is that of a label in its data. -/
theorem lea_of_ok
    (hpool : ∀ f ∈ placed.functions, f.body.constants ⊆ placed.constants.entries.toList)
    {src : Operand} {dst : Reg} (hlea : .lea src dst ∈ assembly.code) :
    ∃ x ∈ Instr.labels assembly.data, src = .symbol x .rip := by
  obtain ⟨-, -, -, hdata⟩ := assemble_eq_ok h
  obtain ⟨f, hf, e, he, hreference⟩ := exists_node hlaid h hlea rfl
  obtain ⟨c, hc, rfl⟩ := Expr.reference?_eq_lea hreference
  have hmem : c ∈ f.body.constants := List.mem_filterMap.2 ⟨e, Expr.mem_nodes.2 he, hc⟩
  rw [Constants.labels_dataLines hdata]
  exact ⟨c.label, List.mem_map_of_mem (hpool f hf hmem), rfl⟩

/-- A call in the code of a program that is not external goes to a function, whose label is in the
code. -/
theorem call_of_ok {x : String} (hcall : .call x false ∈ assembly.code) :
    x ∈ placed.functions.map (·.ident.name) ∧ x ∈ Instr.labels assembly.code := by
  obtain ⟨f, hf, e, he, hreference⟩ := exists_node hlaid h hcall rfl
  obtain ⟨-, hcontains⟩ := Expr.reference?_eq_call hreference
  have hx : x ∈ placed.functions.map (·.ident.name) := by simpa using hcontains
  obtain ⟨code, hcode, hemits⟩ := emits_of_ok h
  refine ⟨hx, ?_⟩
  rw [← names_frames hlaid] at hx
  rw [← Instr.labels_plain, hcode]
  exact hemits.names_subset hx

end PlacedFunctions

/-! ## The result -/

/-- Each label stands in one place, and what the code refers to is there. -/
structure Assembly.Closed (options : GenOptions) (functions : List String) (a : Assembly) :
    Prop where
  /-- No label stands twice in the code and the data. -/
  unique : (Instr.labels a.code ++ Instr.labels a.data).Nodup
  /-- Behind the header, the code has a block for each function, and jumps stay in their blocks. -/
  jumps : ∃ blocks, a.code = header options ++ blocks.flatten ∧
    List.Forall₂ Instr.IsBlock functions blocks
  /-- An address is that of a label in the data. -/
  addresses : ∀ src dst, .lea src dst ∈ a.code → ∃ x ∈ Instr.labels a.data, src = .symbol x .rip
  /-- A call that is not external goes to a function, whose label is in the code. -/
  calls : ∀ x, .call x false ∈ a.code → x ∈ functions ∧ x ∈ Instr.labels a.code

/-- The assembly of a program is closed, whatever notes the program has, and a call to an external
function is one to a function that the program declares if analysis reports nothing. -/
theorem Program.assembly_closed {p q : Program} {options : GenOptions} {assembly : Assembly}
    {labels : Labels} (hp : p.Written)
    (hq : q.functions.map Function.bare = p.functions.map Function.bare)
    (hgen : (q.generate options).result = .ok (assembly, labels)) :
    assembly.Closed options (q.functions.map (·.ident.name)) ∧
      (p.analyze.report = [] →
        ∀ x, .call x true ∈ assembly.code → x ∈ p.externals.map (·.ident.name)) := by
  have hread := hp.asRead
  obtain ⟨hstopped, -, hassemble⟩ := Program.generate_eq_ok hgen
  have hnodup := Program.nodup_of_ok hgen
  have hlaid := laid_placeFunctions hstopped
  have hplaced := bare_eq_of_strip_eq (placeFunctions_strip {} q.functions)
  have hbare := hplaced.trans hq
  have hnumbered : (placeFunctions {} q.functions).constants.Numbered :=
    placeFunctions_kept Constants.kept_numbered (by rfl) q.functions
  have hnames := names_of_bare_eq hplaced
  have hpool : ∀ f ∈ (placeFunctions {} q.functions).functions,
      f.body.constants ⊆ (placeFunctions {} q.functions).constants.entries.toList := by
    intro f hf c hc
    rw [placeFunctions_pool hstopped]
    exact List.mem_append_right _ (List.mem_flatMap.2 ⟨f, hf, hc⟩)
  rw [← hnames] at hnodup ⊢
  obtain ⟨code, hrun, hcode, -⟩ := PlacedFunctions.assemble_eq_ok hassemble
  refine ⟨⟨?_, ?_, ?_, ?_⟩, ?_⟩
  · refine PlacedFunctions.labels_append_nodup hlaid hassemble hnodup ?_ hnumbered
    exact fun f hf => (Function.asRead_of_bare_eq hbare hread.functions f hf).1
  · obtain ⟨blocks, hblocks, hall⟩ := exists_blocks hlaid hrun
    exact ⟨blocks, by rw [hcode, hblocks], hall⟩
  · exact fun src dst hlea => PlacedFunctions.lea_of_ok hlaid hassemble hpool hlea
  · exact fun x hcall => PlacedFunctions.call_of_ok hlaid hassemble hcall
  · intro hclean x hcall
    obtain ⟨f, hf, e, he, hreference⟩ := PlacedFunctions.exists_node hlaid hassemble hcall rfl
    obtain ⟨⟨n, callee, arguments, rfl, rfl⟩, hcontains⟩ := Expr.reference?_eq_call hreference
    -- The generator tells external functions by their names, and analysis by declarations.
    have hother : callee.name ∉ p.functions.map (·.ident.name) := by
      rw [← names_of_bare_eq hbare]
      simpa using hcontains
    have hone : callee.name ∈ _ := Program.callsOneOf_of_clean hread hclean hbare f hf _ he
    rcases List.mem_append.1 hone with hone | hone
    · exact hone
    · exact absurd hone hother

/-- A loop that is left from inside, a branch, two strings, and calls of both kinds. -/
def Program.closedText : String :=
  "extrn int puts(string s) int main(bool go) " ++
    braced ("while go " ++ braced ("puts(\"on\"); if again(go) " ++ braced "break;" ++ ";") ++
      "; puts(\"off\")") ++
    " bool again(bool go) " ++ braced ("if go " ++ braced "true" ++ " else " ++ braced "false")

theorem Program.assembly_closed_text :
    ∃ (p : Program) (assembly : Assembly) (labels : Labels),
      p.Written ∧ p.analyze.report = [] ∧
      p.analyze.program.functions.map Function.bare = p.functions.map Function.bare ∧
      (p.analyze.program.generate {}).result = .ok (assembly, labels) ∧
      Instr.labels assembly.code = ["main", ".loop_label_0", ".conditional_label_0",
        ".conditional_label_1", ".loop_label_1", "again", ".conditional_label_2",
        ".conditional_label_3"] ∧
      Instr.labels assembly.data = [".constant_0", ".constant_1"] ∧
      assembly.Closed {} (p.analyze.program.functions.map (·.ident.name)) ∧
      (.call "puts" true ∈ assembly.code ∧
        ∀ x, .call x true ∈ assembly.code → x ∈ p.externals.map (·.ident.name)) := by
  have hcheck : compilesWith Program.closedText fun assembly _ =>
      decide (Instr.labels assembly.code = ["main", ".loop_label_0", ".conditional_label_0",
        ".conditional_label_1", ".loop_label_1", "again", ".conditional_label_2",
        ".conditional_label_3"] ∧
        Instr.labels assembly.data = [".constant_0", ".constant_1"] ∧
        .call "puts" true ∈ assembly.code) := by
    decide +kernel
  obtain ⟨p, assembly, labels, f, hwritten, hclean, hgen, -, h⟩ := exists_of_compilesWith hcheck
  obtain ⟨hcode, hdata, hputs⟩ := of_decide_eq_true h
  obtain ⟨hclosed, hexternal⟩ := Program.assembly_closed hwritten p.bare_analyze hgen
  exact ⟨p, assembly, labels, hwritten, hclean, p.bare_analyze, hgen, hcode, hdata, hclosed, hputs,
    hexternal hclean⟩

end Ilang
