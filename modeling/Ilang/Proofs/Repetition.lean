import Ilang.Assembly
import Ilang.Proofs.Trees
import Mathlib.Data.List.Forall2
/-!
# Code can be made again

Making code leaves the places of variables and the labels of strings in the program, also if it ends
with an error half-way. None of them is read by a later run before that run has written it again:
where placement gets to its end, the code is that of the program without such notes
(`Expr.alike_place`), and placement that is repeated writes what is there already
(`Expr.place_again`). So a second run makes of what the first one left the same code or the same
error (`Program.generate_repeatable`).
-/
namespace Ilang

/-! ## Placement a second time -/

/-- A second walk that does the same with what the first walk left of its parts does the same as a
whole. -/
theorem Placed.andThen_again {α β : Type} (p : Placed α) (second : β) (go : β → Layout → Placed β)
    (h : ∀ s, go (go second s).value s = go second s) :
    p.andThen (p.andThen second (go second)).value.2
      (go (p.andThen second (go second)).value.2) = p.andThen second (go second) := by
  unfold Placed.andThen
  cases p.error with
  | some e => rfl
  | none => simp only [Placed.map, h]

theorem Layout.register_again (s : Layout) (ty : Ty) (i : Ident) :
    s.register ty (s.register ty i).value = s.register ty i := by
  rcases h : s.frame.register i.name ty i.location with ⟨e | k, g⟩
  · simp only [Layout.register, h]
  · simp only [Layout.register, h]

theorem Layout.bind_again (s : Layout) (i : Ident) : s.bind (s.bind i).value = s.bind i := by
  cases h : s.frame.resolve i.name i.location with
  | ok => simp only [Layout.bind, h]
  | error e => simp only [Layout.bind, h]

mutual

/-- Placement that is repeated changes nothing, whether or not it gets to its end. -/
theorem Expr.place_again (s : Layout) (e : Expr) : (e.place s).value.place s = e.place s := by
  cases e with
  | literal n text constant =>
    simp only [Expr.place]
    split <;> simp [Expr.place, *]
  | var n ident => simp only [Expr.place, Placed.map, Layout.bind_again]
  | call n callee arguments => simp only [Expr.place, Placed.map, placeAll_again]
  | block n body result =>
    have hresult := Placed.andThen_again (placeAll s.enter body) result
      (fun e s => placeOpt s e) fun s => placeOpt_again s result
    simp only [Expr.place, Placed.map, Placed.leave, Placed.andThen_value_fst, placeAll_again,
      hresult]
  | bind n ident type value =>
    have hident := Placed.andThen_again (value.place s) ident
      (fun i s => s.register type.ty i) fun s => s.register_again type.ty ident
    simp only [Expr.place, Placed.map, Placed.andThen_value_fst, Expr.place_again s value, hident]
  | assign n target value =>
    have htarget := Placed.andThen_again (value.place s) target
      (fun i s => s.bind i) fun s => s.bind_again target
    simp only [Expr.place, Placed.map, Placed.andThen_value_fst, Expr.place_again s value, htarget]
  | binary n op left right =>
    have hright := Placed.andThen_again (left.place s) right
      (fun e s => e.place s) fun s => Expr.place_again s right
    simp only [Expr.place, Placed.map, Placed.andThen_value_fst, Expr.place_again s left, hright]
  | branch n condition onTrue onFalse =>
    have htrue := Placed.andThen_again (condition.place s) onTrue
      (fun e s => e.place s) fun s => Expr.place_again s onTrue
    have hfalse := Placed.andThen_again
      ((condition.place s).andThen onTrue fun s => onTrue.place s) onFalse
      (fun e s => placeOpt s e) fun s => placeOpt_again s onFalse
    simp only [Expr.place, Placed.map, Placed.andThen_value_fst, Expr.place_again s condition,
      htrue, hfalse]
  | loop n condition body =>
    have hbody := Placed.andThen_again (condition.place s) body
      (fun e s => e.place s) fun s => Expr.place_again s body
    simp only [Expr.place, Placed.map, Placed.andThen_value_fst, Expr.place_again s condition,
      hbody]
  | unary n op value | group n value | ret n value =>
    simp only [Expr.place, Placed.map, Expr.place_again s value]
  | brk n => rfl

theorem placeAll_again (s : Layout) (es : List Expr) :
    placeAll s (placeAll s es).value = placeAll s es := by
  cases es with
  | nil => rfl
  | cons e es =>
    have hothers := Placed.andThen_again (e.place s) es
      (fun es s => placeAll s es) fun s => placeAll_again s es
    simp only [placeAll, Placed.map, Placed.andThen_value_fst, Expr.place_again s e, hothers]

theorem placeOpt_again (s : Layout) (e : Option Expr) :
    placeOpt s (placeOpt s e).value = placeOpt s e := by
  cases e with
  | none => rfl
  | some e => simp only [placeOpt, Placed.map, Expr.place_again s e]

end

theorem placeParams_again (s : Layout) (ps : List Param) :
    placeParams s (placeParams s ps).value = placeParams s ps := by
  induction ps generalizing s with
  | nil => rfl
  | cons p ps ih =>
    have hothers := Placed.andThen_again (s.register p.type.ty p.ident) ps
      (fun ps s => placeParams s ps) ih
    simp only [placeParams, Placed.map, Placed.andThen_value_fst, Layout.register_again, hothers]

theorem Function.place_again (constants : Constants) (f : Function) :
    (f.place constants).value.place constants = f.place constants := by
  have hbody := Placed.andThen_again
    (placeParams (Layout.enter ⟨{ function := f.ident.name }, constants⟩) f.params) f.body
    (fun e s => e.place s) fun s => Expr.place_again s f.body
  simp only [Function.place, Placed.map, Placed.leave, Placed.andThen_value_fst,
    placeParams_again, hbody]

/-- Functions behind one that could not be placed are not placed the second time either. -/
theorem placeFunctions_again (constants : Constants) (fs : List Function) :
    placeFunctions constants (placeFunctions constants fs).functions =
      placeFunctions constants fs := by
  induction fs generalizing constants with
  | nil => rfl
  | cons f fs ih =>
    cases he : (f.place constants).error with
    | some e => simp [placeFunctions, Function.place_again, he]
    | none => simp [placeFunctions, Function.place_again, he, ih]

/-! ## Placement without notes -/

/-- Two walks that end alike, and with alike results if they get to their end. -/
structure Placed.Alike {α : Type} (same : α → α → Prop) (p q : Placed α) : Prop where
  layout : p.layout = q.layout
  error : p.error = q.error
  value : q.error = none → same p.value q.value

namespace Placed.Alike

variable {α β γ : Type} {same : α → α → Prop} {same' : β → β → Prop} {p q : Placed α}

theorem map {other : γ → γ → Prop} {f g : α → γ} (h : Placed.Alike same p q)
    (hfg : ∀ a b, same a b → other (f a) (g b)) : Placed.Alike other (p.map f) (q.map g) :=
  ⟨h.layout, h.error, fun he => hfg _ _ (h.value he)⟩

theorem leave (h : Placed.Alike same p q) : Placed.Alike same p.leave q.leave :=
  ⟨by simp only [Placed.leave, h.layout], h.error, h.value⟩

/-- If the first pieces end with an error, it does not matter what the second ones are. -/
theorem andThen {second second' : β} {go go' : Layout → Placed β} (h : Placed.Alike same p q)
    (hgo : ∀ s, Placed.Alike same' (go s) (go' s)) :
    Placed.Alike (fun x y => same x.1 y.1 ∧ same' x.2 y.2) (p.andThen second go)
      (q.andThen second' go') := by
  unfold Placed.andThen
  rw [h.error, h.layout]
  cases he : q.error with
  | some e => exact ⟨rfl, rfl, fun hn => by cases hn⟩
  | none =>
    have hrest := hgo q.layout
    exact ⟨hrest.layout, hrest.error, fun hn => ⟨h.value he, hrest.value hn⟩⟩

end Placed.Alike

/-- Two names that have the same place in every frame. -/
def Ident.SamePlace (i j : Ident) : Prop := ∀ f : Frame, f.slotOf i = f.slotOf j

theorem Keep.samePlace_ident (i : Ident) (slot : Option Nat) :
    Ident.SamePlace { Keep.onlyTypes.ident i with slot } { i with slot } :=
  fun _ => rfl

theorem Layout.alike_register (s : Layout) (ty : Ty) (i : Ident) :
    Placed.Alike Ident.SamePlace (s.register ty (Keep.onlyTypes.ident i)) (s.register ty i) := by
  unfold Layout.register
  dsimp only [Keep.ident]
  split
  · exact ⟨rfl, rfl, fun _ => Keep.samePlace_ident i _⟩
  · exact ⟨rfl, rfl, fun hn => by cases hn⟩

theorem Layout.alike_bind (s : Layout) (i : Ident) :
    Placed.Alike Ident.SamePlace (s.bind (Keep.onlyTypes.ident i)) (s.bind i) := by
  unfold Layout.bind
  dsimp only [Keep.ident]
  split
  · exact ⟨rfl, rfl, fun _ => Keep.samePlace_ident i _⟩
  · exact ⟨rfl, rfl, fun hn => by cases hn⟩

/-- Two expressions that have the same code or the same error, wherever they stand. -/
def Expr.SameCode (d e : Expr) : Prop := ∀ env, d.emit env = e.emit env

/-- The same of expressions that follow each other, and of arguments. -/
structure SameCodes (ds es : List Expr) : Prop where
  length : ds.length = es.length
  statements : ∀ env, emitAll env ds = emitAll env es
  arguments : ∀ env, emitArguments env ds = emitArguments env es

/-- The same of expressions that may be missing. -/
def SameOptCode (d e : Option Expr) : Prop :=
  ∀ env heading, emitOpt env heading d = emitOpt env heading e

/-- Only strings have labels. -/
theorem literalCode_label {n : Node} (h : n.ty ≠ .string) (text : String)
    (constant constant' : Option String) :
    literalCode n text constant = literalCode n text constant' := by
  unfold literalCode
  cases hty : n.ty with
  | string => exact absurd hty h
  | _ => rfl

mutual

/-- A tree with only its types is placed like the tree itself, and has the same code. -/
theorem Expr.alike_place (s : Layout) (e : Expr) :
    Placed.Alike Expr.SameCode ((e.strip .onlyTypes).place s) (e.place s) := by
  cases e with
  | literal n text constant =>
    by_cases hstring : n.ty = .string
    · simp only [Expr.strip, Expr.place, Keep.node, Keep.onlyTypes, if_true, hstring]
      exact ⟨rfl, rfl, fun _ _ => rfl⟩
    · simp only [Expr.strip, Expr.place, Keep.node, Keep.onlyTypes, if_true, hstring, if_false]
      refine ⟨rfl, rfl, fun _ env => ?_⟩
      simp only [Expr.emit, literalCode_label hstring text _ constant]
  | var n ident =>
    refine (s.alike_bind ident).map fun i j hij env => ?_
    simp only [Expr.emit, hij env.frame]
  | call n callee arguments =>
    refine (alike_placeAll s arguments).map fun ds es h env => ?_
    simp only [Expr.emit, h.length, h.arguments]
    rfl
  | block n body result =>
    refine ((alike_placeAll s.enter body).andThen fun s => alike_placeOpt s result).leave.map ?_
    rintro ⟨ds, d⟩ ⟨es, e⟩ ⟨hbody, hresult⟩ env
    simp only [Expr.emit, hbody.statements, hresult env]
  | bind n ident type value =>
    refine ((Expr.alike_place s value).andThen fun s => s.alike_register type.ty ident).map ?_
    rintro ⟨d, i⟩ ⟨e, j⟩ ⟨hvalue, hident⟩ env
    simp only [Expr.emit, hvalue env, hident env.frame]
  | assign n target value =>
    refine ((Expr.alike_place s value).andThen fun s => s.alike_bind target).map ?_
    rintro ⟨d, i⟩ ⟨e, j⟩ ⟨hvalue, htarget⟩ env
    simp only [Expr.emit, hvalue env, htarget env.frame]
  | binary n op left right =>
    refine ((Expr.alike_place s left).andThen fun s => Expr.alike_place s right).map ?_
    rintro ⟨d, d'⟩ ⟨e, e'⟩ ⟨hleft, hright⟩ env
    simp only [Expr.emit, hleft env, hright env]
  | unary n op value | group n value | ret n value =>
    refine (Expr.alike_place s value).map fun d e h env => ?_
    simp only [Expr.emit, h env]
  | branch n condition onTrue onFalse =>
    refine (((Expr.alike_place s condition).andThen fun s => Expr.alike_place s onTrue).andThen
      fun s => alike_placeOpt s onFalse).map ?_
    rintro ⟨⟨d, d'⟩, d''⟩ ⟨⟨e, e'⟩, e''⟩ ⟨⟨hcondition, htrue⟩, hfalse⟩ env
    simp only [Expr.emit, hcondition env, htrue env, hfalse env]
  | loop n condition body =>
    refine ((Expr.alike_place s condition).andThen fun s => Expr.alike_place s body).map ?_
    rintro ⟨d, d'⟩ ⟨e, e'⟩ ⟨hcondition, hbody⟩ env
    simp only [Expr.emit, hcondition _, hbody _]
  | brk n => exact ⟨rfl, rfl, fun _ _ => rfl⟩

theorem alike_placeAll (s : Layout) (es : List Expr) :
    Placed.Alike SameCodes (placeAll s (stripAll .onlyTypes es)) (placeAll s es) := by
  cases es with
  | nil => exact ⟨rfl, rfl, fun _ => ⟨rfl, fun _ => rfl, fun _ => rfl⟩⟩
  | cons e es =>
    refine ((Expr.alike_place s e).andThen fun s => alike_placeAll s es).map ?_
    rintro ⟨d, ds⟩ ⟨e, es⟩ ⟨hfirst, hothers⟩
    refine ⟨congrArg (· + 1) hothers.length, fun env => ?_, fun env => ?_⟩
    · simp only [emitAll, hfirst env, hothers.statements]
    · simp only [emitArguments, hfirst env, hothers.arguments]

theorem alike_placeOpt (s : Layout) (e : Option Expr) :
    Placed.Alike SameOptCode (placeOpt s (stripOpt .onlyTypes e)) (placeOpt s e) := by
  cases e with
  | none => exact ⟨rfl, rfl, fun _ _ _ => rfl⟩
  | some e =>
    refine (Expr.alike_place s e).map fun d e h env heading => ?_
    simp only [emitOpt, h env]

end

/-- Two lists of parameters whose values are put into the same places. -/
def SameParams (ps qs : List Param) : Prop :=
  ps.length = qs.length ∧ ∀ f index, storeParams f index ps = storeParams f index qs

theorem alike_placeParams (s : Layout) (ps : List Param) :
    Placed.Alike SameParams (placeParams s (ps.map (Param.strip .onlyTypes)))
      (placeParams s ps) := by
  induction ps generalizing s with
  | nil => exact ⟨rfl, rfl, fun _ => ⟨rfl, fun _ _ => rfl⟩⟩
  | cons p ps ih =>
    refine ((s.alike_register p.type.ty p.ident).andThen ih).map ?_
    rintro ⟨i, ps'⟩ ⟨j, qs⟩ ⟨hident, hlength, hothers⟩
    refine ⟨congrArg (· + 1) hlength, fun f index => ?_⟩
    simp only [storeParams, hident f, hothers f]

/-- Two functions that have the same name and the same code or the same error. -/
structure Function.SameCode (f g : Function) : Prop where
  name : f.ident.name = g.ident.name
  code : ∀ comments functions frame,
    f.emit comments functions frame = g.emit comments functions frame

theorem Function.alike_place (constants : Constants) (f : Function) :
    Placed.Alike Function.SameCode ((f.strip .onlyTypes).place constants) (f.place constants) := by
  have hparams :=
    alike_placeParams (Layout.enter ⟨{ function := f.ident.name }, constants⟩) f.params
  unfold Function.place
  refine (hparams.andThen fun s => Expr.alike_place s f.body).leave.map ?_
  rintro ⟨ps, d⟩ ⟨qs, e⟩ ⟨⟨hlength, hstores⟩, hbody⟩
  refine ⟨rfl, fun comments functions frame => ?_⟩
  simp only [Function.emit, hlength, hstores frame, hbody _]

/-- Functions that are placed alike, and have the same code if all of them are placed. -/
structure PlacedFunctions.Alike (p q : PlacedFunctions) : Prop where
  frames : p.frames = q.frames
  constants : p.constants = q.constants
  stopped : p.stopped = q.stopped
  functions : q.stopped = none → List.Forall₂ Function.SameCode p.functions q.functions

theorem alike_placeFunctions (constants : Constants) (fs : List Function) :
    PlacedFunctions.Alike (placeFunctions constants (fs.map (Function.strip .onlyTypes)))
      (placeFunctions constants fs) := by
  induction fs generalizing constants with
  | nil => exact ⟨rfl, rfl, rfl, fun _ => .nil⟩
  | cons f fs ih =>
    have hfirst := Function.alike_place constants f
    cases he : (f.place constants).error with
    | some e =>
      simp only [List.map_cons, placeFunctions, hfirst.error, hfirst.layout, he]
      exact ⟨rfl, rfl, rfl, fun hn => by cases hn⟩
    | none =>
      have hothers := ih (f.place constants).layout.constants
      simp only [List.map_cons, placeFunctions, hfirst.error, hfirst.layout, he]
      exact ⟨congrArg (_ :: ·) hothers.frames, hothers.constants, hothers.stopped,
        fun hn => .cons (hfirst.value he) (hothers.functions hn)⟩

theorem emitFunctions_congr {comments : Bool} {names : List String} {fs gs : List Function}
    (h : List.Forall₂ Function.SameCode fs gs) (frames : List Frame) :
    emitFunctions comments names (fs.zip frames) = emitFunctions comments names (gs.zip frames) := by
  induction h generalizing frames with
  | nil => rfl
  | cons hfirst _ ih =>
    cases frames with
    | nil => rfl
    | cons frame frames => simp only [List.zip_cons_cons, emitFunctions, hfirst.code, ih frames]

theorem names_congr {fs gs : List Function} (h : List.Forall₂ Function.SameCode fs gs) :
    fs.map (·.ident.name) = gs.map (·.ident.name) := by
  induction h with
  | nil => rfl
  | cons hfirst _ ih => rw [List.map_cons, List.map_cons, hfirst.name, ih]

theorem PlacedFunctions.Alike.assemble {p q : PlacedFunctions} (h : p.Alike q)
    (hq : q.stopped = none) (options : GenOptions) : p.assemble options = q.assemble options := by
  have hfunctions := h.functions hq
  simp only [PlacedFunctions.assemble, names_congr hfunctions, h.frames, h.constants,
    emitFunctions_congr hfunctions]

/-! ## Programs -/

theorem firstRedeclared_strip (k : Keep) (earlier : List String) (fs : List Function) :
    firstRedeclared earlier (fs.map (Function.strip k)) =
      (firstRedeclared earlier fs).map (Function.strip k) := by
  induction fs generalizing earlier with
  | nil => rfl
  | cons f fs ih =>
    have hname : (f.strip k).ident.name = f.ident.name := rfl
    simp only [List.map_cons, firstRedeclared, hname, ih]
    split <;> rfl

/-- The names of the functions are not in the notes. -/
theorem Program.checkFunctions_strip (k : Keep) (options : GenOptions) (p : Program) :
    (p.strip k).checkFunctions options = p.checkFunctions options := by
  have hany : (p.functions.map (Function.strip k)).any (·.ident.name = options.entryPoint) =
      p.functions.any (·.ident.name = options.entryPoint) := List.any_map
  simp only [Program.checkFunctions, Program.strip, firstRedeclared_strip, hany]
  cases firstRedeclared [] p.functions <;> rfl

/-- The code depends on the types of a program, but on no other notes. -/
theorem Program.generate_result_strip (options : GenOptions) (p : Program) :
    ((p.strip .onlyTypes).generate options).result = (p.generate options).result := by
  have halike := alike_placeFunctions {} p.functions
  have hfunctions : (p.strip .onlyTypes).functions = p.functions.map (Function.strip .onlyTypes) :=
    rfl
  cases hcheck : p.checkFunctions options with
  | error e => simp only [Program.generate, p.checkFunctions_strip, hcheck]
  | ok =>
    cases hstopped : (placeFunctions {} p.functions).stopped with
    | some x =>
      simp only [Program.generate, p.checkFunctions_strip, hfunctions, hcheck, halike.stopped,
        hstopped]
    | none =>
      simp only [Program.generate, p.checkFunctions_strip, hfunctions, hcheck, halike.stopped,
        hstopped]
      exact halike.assemble hstopped options

/-- Making code changes nothing but the variables of names and the labels of strings. -/
theorem Program.strip_generate (options : GenOptions) (p : Program) :
    (p.generate options).program.strip .allButPlaces = p.strip .allButPlaces := by
  have hplaced : Program.strip .allButPlaces
        { p with functions := (placeFunctions {} p.functions).functions } =
      p.strip .allButPlaces := by
    simp only [Program.strip, placeFunctions_strip]
  unfold Program.generate
  split
  · rfl
  · dsimp only
    split <;> exact hplaced

/-- What a run leaves behind, another one leaves as it is. -/
theorem Program.generate_again (options : GenOptions) (p : Program) :
    (p.generate options).program.generate options = p.generate options := by
  have hchecks :
      (p.generate options).program.checkFunctions options = p.checkFunctions options := by
    rw [← Program.checkFunctions_strip .allButPlaces, p.strip_generate,
      Program.checkFunctions_strip]
  cases hcheck : p.checkFunctions options with
  | error e =>
    have hprogram : (p.generate options).program = p := by
      simp only [Program.generate, hcheck]
    rw [hprogram]
  | ok =>
    have hprogram : (p.generate options).program =
        { p with functions := (placeFunctions {} p.functions).functions } := by
      simp only [Program.generate, hcheck]
      split <;> rfl
    rw [hcheck, hprogram] at hchecks
    rw [hprogram]
    simp only [Program.generate, hchecks, hcheck, placeFunctions_again]

/-- Whatever places and labels a program has before, it gives the same code or the same error, and
nothing else of it is changed. A second run has the same outcome as the first one and leaves the
program as it is. -/
theorem Program.generate_repeatable (options : GenOptions) (p : Program) :
    (∀ q : Program, q.strip .onlyTypes = p.strip .onlyTypes →
        (q.generate options).result = (p.generate options).result) ∧
      (p.generate options).program.strip .allButPlaces = p.strip .allButPlaces ∧
      (p.generate options).program.generate options = p.generate options := by
  refine ⟨?_, p.strip_generate options, p.generate_again options⟩
  intro q hq
  rw [← q.generate_result_strip, hq, p.generate_result_strip]

/-- A function `main(int n): unit { let m: int = n; "a"; x; "b"; }` in which all names have the same
place and all strings the same label. -/
def Program.labelled (slot : Option Nat) (label : Option String) : Program :=
  let i (name : String) : Ident := { name, location := .unknown, slot }
  let n : Node := { location := .unknown, ty := .int }
  let t := TypeRef.ofName "int" .unknown
  let string (text : String) := Expr.literal { location := .unknown, ty := .string } text label
  let body := Expr.block n [.bind n (i "m") t (.var n (i "n")), string "\"a\"", .var n (i "x"),
    string "\"b\""] none
  { functions := [⟨i "main", .ofName "unit" .unknown, [⟨i "n", t⟩], body, .unknown⟩] }

/-- Of two strings only the first one is placed, because there is no `x` between them. -/
theorem Program.generate_repeatable_labelled :
    ∃ p q : Program, p = .labelled (some 1) (some ".constant_1") ∧ q = .labelled none none ∧
      q.strip .onlyTypes = p.strip .onlyTypes ∧
      (q.generate {}).result = (p.generate {}).result ∧
      (p.generate {}).result = .error (.unresolvedLocal "x" .unknown) ∧
      (p.generate {}).constants.entries = #[⟨".constant_0", .string, "\"a\""⟩] ∧
      (p.generate {}).program.strip .allButPlaces = p.strip .allButPlaces ∧
      (p.generate {}).program.generate {} = p.generate {} := by
  obtain ⟨hforgets, hkeeps, hagain⟩ :=
    Program.generate_repeatable {} (.labelled (some 1) (some ".constant_1"))
  have hstrip : (Program.labelled none none).strip .onlyTypes =
    (Program.labelled (some 1) (some ".constant_1")).strip .onlyTypes := rfl
  exact ⟨_, _, rfl, rfl, hstrip, hforgets _ hstrip, rfl, by decide +kernel, hkeeps, hagain⟩

end Ilang
