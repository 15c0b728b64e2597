import Ilang.Assembly.Placement
import Ilang.Proofs.Scopes
/-!
# What placement does to a tree

`Laid f e g` says that the names in `e` have the variables that they mean, where going through
`e` takes the frame from `f` to `g`. Placement that succeeds makes such trees (`Expr.laid_place`).
A frame that is built up from nothing is regular (`Frame.Regular`): the variables stand one below the
other, eight bytes each, and every visible name stands for one of them.
-/
namespace Ilang

/-! ## Frames -/

namespace Frame

/-- The variables of a frame fill it from the base pointer down, and what is visible are different
ones of them. -/
structure Regular (f : Frame) : Prop where
  size : f.size = 8 * f.vars.size
  offset : ∀ (k : Nat) (v : FrameVar), f.vars[k]? = some v → v.offset = -(8 * (k + 1) : Nat)
  bound : ∀ x ∈ f.scopes.chain.flatten, x.2 < f.vars.size
  distinct : (f.scopes.chain.flatten.map Prod.snd).Nodup

/-- What giving a variable its place does. -/
theorem register_eq_ok {f g : Frame} {name : String} {ty : Ty} {location : Location} {k : Nat}
    (h : f.register name ty location = (.ok k, g)) :
    f.scopes.innermost? name = none ∧ k = f.vars.size ∧ g.scopes = f.scopes.insert name k ∧
      g.size = f.size + 8 ∧
      ∃ v : FrameVar, v.offset = -(f.size + 8 : Nat) ∧ g.vars = f.vars.push v := by
  unfold register at h
  dsimp only at h
  rw [Scopes.declare_eq] at h
  cases hi : f.scopes.innermost? name with
  | some existing => rw [hi] at h; cases h
  | none =>
    rw [hi] at h
    cases h
    exact ⟨rfl, rfl, rfl, rfl, _, rfl, rfl⟩

theorem Regular.register {f g : Frame} (hf : f.Regular) {name : String} {ty : Ty}
    {location : Location} {k : Nat} (h : f.register name ty location = (.ok k, g)) : g.Regular := by
  obtain ⟨-, rfl, hs, hsize, v, hv, hvars⟩ := register_eq_ok h
  have hflat : g.scopes.chain.flatten = (name, f.vars.size) :: f.scopes.chain.flatten := by
    rw [hs]
    unfold Scopes.insert
    cases f.scopes.chain <;> rfl
  constructor
  · rw [hsize, hvars, Array.size_push, hf.size, Nat.mul_succ]
  · intro i w hi
    rw [hvars, Array.getElem?_push] at hi
    split at hi
    · rename_i heq
      cases hi
      rw [hv, hf.size, heq, Nat.mul_succ]
    · exact hf.offset i w hi
  · intro x hx
    rw [hvars, Array.size_push]
    rw [hflat] at hx
    rcases List.mem_cons.1 hx with rfl | hx
    · exact Nat.lt_succ_self _
    · exact Nat.lt_succ_of_lt (hf.bound x hx)
  · rw [hflat, List.map_cons, List.nodup_cons]
    refine ⟨?_, hf.distinct⟩
    intro hmem
    obtain ⟨x, hx, heq⟩ := List.mem_map.1 hmem
    exact absurd (hf.bound x hx) (by simp [heq])

theorem Regular.enter {f : Frame} (hf : f.Regular) : f.enter.Regular :=
  ⟨hf.size, hf.offset, hf.bound, hf.distinct⟩

theorem Regular.leave {f : Frame} (hf : f.Regular) : f.leave.Regular := by
  have hsub : f.leave.scopes.chain.flatten.Sublist f.scopes.chain.flatten := by
    unfold Frame.leave Scopes.pop
    cases f.scopes.chain with
    | nil => exact .slnil
    | cons scope outer => exact List.sublist_append_right scope outer.flatten
  exact ⟨hf.size, hf.offset, fun x hx => hf.bound x (hsub.subset hx),
    (hsub.map _).nodup hf.distinct⟩

/-- What is visible is in the frame. -/
theorem Regular.lookup_lt {f : Frame} (hf : f.Regular) {name : String} {k : Nat}
    (h : f.scopes.lookup name = some k) : k < f.vars.size := by
  obtain ⟨scope, hscope, hk⟩ := List.exists_of_findSome?_eq_some h
  obtain ⟨l, r, rfl, -⟩ := List.lookup_eq_some_iff.1 hk
  exact hf.bound (name, k) (List.mem_flatten.2 ⟨_, hscope, by simp⟩)

/-- A frame comes from another one by adding variables to the innermost scope. -/
structure Grows (f g : Frame) : Prop where
  scopes : f.scopes.Grows g.scopes
  vars : ∀ (k : Nat) (v : FrameVar), f.vars[k]? = some v → g.vars[k]? = some v
  function : g.function = f.function
  loops : g.loops = f.loops
  regular : f.Regular → g.Regular

theorem Grows.refl {f : Frame} (h : f.scopes.chain ≠ []) : f.Grows f :=
  ⟨.refl h, fun _ _ hk => hk, rfl, rfl, id⟩

theorem Grows.trans {f g h : Frame} (hfg : f.Grows g) (hgh : g.Grows h) : f.Grows h :=
  ⟨hfg.scopes.trans hgh.scopes, fun k v hk => hgh.vars k v (hfg.vars k v hk),
    hgh.function.trans hfg.function, hgh.loops.trans hfg.loops,
    fun hf => hgh.regular (hfg.regular hf)⟩

theorem Grows.size_le {f g : Frame} (h : f.Grows g) : f.vars.size ≤ g.vars.size := by
  by_contra hlt
  have hk := h.vars g.vars.size _ (Array.getElem?_eq_getElem (by omega))
  exact absurd (Array.getElem?_eq_some_iff.1 hk).1 (Nat.lt_irrefl _)

theorem grows_register {f g : Frame} (hf : f.scopes.chain ≠ []) {name : String} {ty : Ty}
    {location : Location} {k : Nat} (h : f.register name ty location = (.ok k, g)) : f.Grows g := by
  obtain ⟨-, rfl, hs, -, v, -, hvars⟩ := register_eq_ok h
  refine ⟨hs ▸ Scopes.grows_insert hf _ _, ?_, ?_, ?_, fun hr => hr.register h⟩
  · intro k w hk
    have hlt := (Array.getElem?_eq_some_iff.1 hk).1
    rw [hvars, Array.getElem?_push, if_neg (by omega)]
    exact hk
  all_goals
    unfold register at h
    dsimp only at h
    split at h
    · cases h
    · cases h; rfl

theorem grows_leave {f g : Frame} (hf : f.scopes.chain ≠ []) (h : f.enter.Grows g) :
    f.Grows g.leave := by
  have hs : g.leave.scopes = f.scopes := Scopes.pop_eq_of_push_grows h.scopes
  exact ⟨by rw [hs]; exact .refl hf, h.vars, h.function, h.loops,
    fun hr => (h.regular hr.enter).leave⟩

end Frame

/-! ## Placed trees -/

mutual

/-- The names in an expression have the variables that they mean. A variable is registered behind
its initial value; a name that is used means what is visible where it is used, and the target of an
assignment what is visible behind the value. -/
inductive Laid : Frame → Expr → Frame → Prop
  | literal {f n text constant} (h : n.ty = .string → ∃ label, constant = some label) :
    Laid f (.literal n text constant) f
  | var {f n i k} (hk : f.scopes.lookup i.name = some k) (hs : i.slot = some k) :
    Laid f (.var n i) f
  | call {f g n callee arguments} (h : LaidAll f arguments g) : Laid f (.call n callee arguments) g
  | block {f g h n body result} (hb : LaidAll f.enter body g) (hr : LaidOpt g result h) :
    Laid f (.block n body result) h.leave
  | bind {f g h n i type value k} (hv : Laid f value g)
    (hk : g.register i.name type.ty i.location = (.ok k, h)) (hs : i.slot = some k) :
    Laid f (.bind n i type value) h
  | assign {f g n i value k} (hv : Laid f value g) (hk : g.scopes.lookup i.name = some k)
    (hs : i.slot = some k) : Laid f (.assign n i value) g
  | binary {f g h n op left right} (hl : Laid f left g) (hr : Laid g right h) :
    Laid f (.binary n op left right) h
  | unary {f g n op operand} (h : Laid f operand g) : Laid f (.unary n op operand) g
  | group {f g n inner} (h : Laid f inner g) : Laid f (.group n inner) g
  | branch {f g h i n condition onTrue onFalse} (hc : Laid f condition g) (ht : Laid g onTrue h)
    (hf : LaidOpt h onFalse i) : Laid f (.branch n condition onTrue onFalse) i
  | ret {f g n value} (h : Laid f value g) : Laid f (.ret n value) g
  | loop {f g h n condition body} (hc : Laid f condition g) (hb : Laid g body h) :
    Laid f (.loop n condition body) h
  | brk {f n} : Laid f (.brk n) f

/-- The names in expressions that follow each other have the variables that they mean. -/
inductive LaidAll : Frame → List Expr → Frame → Prop
  | nil {f} : LaidAll f [] f
  | cons {f g h e es} (he : Laid f e g) (hes : LaidAll g es h) : LaidAll f (e :: es) h

/-- The names in an expression that may be missing have the variables that they mean. -/
inductive LaidOpt : Frame → Option Expr → Frame → Prop
  | none {f} : LaidOpt f none f
  | some {f g e} (h : Laid f e g) : LaidOpt f (some e) g

end

/-- A second piece is only gone through if the first one was to its end. -/
theorem Placed.andThen_of_error_none {α β : Type} {p : Placed α} {second : β}
    {go : Layout → Placed β} (h : (p.andThen second go).error = none) :
    p.error = none ∧ (go p.layout).error = none ∧
      p.andThen second go = (go p.layout).map (p.value, ·) := by
  unfold Placed.andThen at *
  split at h
  · cases h
  · exact ⟨‹_›, h, by simp [*]⟩

theorem Layout.register_of_error_none {s : Layout} {ty : Ty} {i : Ident}
    (h : (s.register ty i).error = none) :
    ∃ k g, s.frame.register i.name ty i.location = (.ok k, g) ∧
      s.register ty i = ⟨{ i with slot := some k }, { s with frame := g }, none⟩ := by
  unfold Layout.register at *
  split at h
  · rename_i k g heq
    exact ⟨k, g, heq, rfl⟩
  · cases h

theorem Layout.bind_of_error_none {s : Layout} {i : Ident} (h : (s.bind i).error = none) :
    ∃ k, s.frame.scopes.lookup i.name = some k ∧ s.bind i = ⟨{ i with slot := some k }, s, none⟩ := by
  unfold Layout.bind Frame.resolve at *
  cases hk : s.frame.scopes.lookup i.name with
  | some k => exact ⟨k, rfl, by simp⟩
  | none => rw [hk] at h; cases h

mutual

/-- An expression that was gone through to the end is laid out. -/
theorem Expr.laid_place {s : Layout} {e : Expr} (h : (e.place s).error = none) :
    Laid s.frame (e.place s).value (e.place s).layout.frame := by
  cases e with
  | literal n text constant =>
    simp only [Expr.place] at *
    split
    · exact .literal fun _ => ⟨_, rfl⟩
    · exact .literal fun hs => absurd hs ‹_›
  | var n ident =>
    obtain ⟨k, hk, heq⟩ := Layout.bind_of_error_none (s := s) (i := ident) h
    simp only [Expr.place, heq]
    exact .var hk rfl
  | call n callee arguments => exact .call (laidAll_place h)
  | block n body result =>
    simp only [Expr.place, Placed.map, Placed.leave] at *
    obtain ⟨hb, hr, heq⟩ := Placed.andThen_of_error_none h
    rw [heq]
    exact .block (laidAll_place hb) (laidOpt_place hr)
  | bind n ident type value =>
    simp only [Expr.place, Placed.map] at *
    obtain ⟨hv, hi, heq⟩ := Placed.andThen_of_error_none h
    obtain ⟨k, g, hk, hi⟩ := Layout.register_of_error_none hi
    rw [heq]
    simp only [Placed.map, hi]
    exact .bind (Expr.laid_place hv) hk rfl
  | assign n target value =>
    simp only [Expr.place, Placed.map] at *
    obtain ⟨hv, hi, heq⟩ := Placed.andThen_of_error_none h
    obtain ⟨k, hk, hi⟩ := Layout.bind_of_error_none hi
    rw [heq]
    simp only [Placed.map, hi]
    exact .assign (Expr.laid_place hv) hk rfl
  | binary n op left right =>
    simp only [Expr.place, Placed.map] at *
    obtain ⟨hl, hr, heq⟩ := Placed.andThen_of_error_none h
    rw [heq]
    exact .binary (Expr.laid_place hl) (Expr.laid_place hr)
  | unary n op operand => exact .unary (Expr.laid_place h)
  | group n inner => exact .group (Expr.laid_place h)
  | branch n condition onTrue onFalse =>
    simp only [Expr.place, Placed.map] at *
    obtain ⟨hct, hf, heq⟩ := Placed.andThen_of_error_none h
    obtain ⟨hc, ht, heq'⟩ := Placed.andThen_of_error_none hct
    rw [heq]
    rw [heq'] at hf ⊢
    exact .branch (Expr.laid_place hc) (Expr.laid_place ht) (laidOpt_place hf)
  | ret n value => exact .ret (Expr.laid_place h)
  | loop n condition body =>
    simp only [Expr.place, Placed.map] at *
    obtain ⟨hc, hb, heq⟩ := Placed.andThen_of_error_none h
    rw [heq]
    exact .loop (Expr.laid_place hc) (Expr.laid_place hb)
  | brk n => exact .brk

theorem laidAll_place {s : Layout} {es : List Expr} (h : (placeAll s es).error = none) :
    LaidAll s.frame (placeAll s es).value (placeAll s es).layout.frame := by
  cases es with
  | nil => exact .nil
  | cons e es =>
    simp only [placeAll, Placed.map] at *
    obtain ⟨he, hes, heq⟩ := Placed.andThen_of_error_none h
    rw [heq]
    exact .cons (Expr.laid_place he) (laidAll_place hes)

theorem laidOpt_place {s : Layout} {e : Option Expr} (h : (placeOpt s e).error = none) :
    LaidOpt s.frame (placeOpt s e).value (placeOpt s e).layout.frame := by
  cases e with
  | none => exact .none
  | some e => exact .some (Expr.laid_place h)

end

/-- A relation between the frames before and behind a step that all steps inside an expression
keep. -/
structure Frame.Kept (R : Frame → Frame → Prop) : Prop where
  refl : ∀ f, R f f
  trans : ∀ {f g h}, R f g → R g h → R f h
  register : ∀ {f g name ty location k}, f.register name ty location = (.ok k, g) → R f g
  block : ∀ {f g}, R f.enter g → R f g.leave

section
variable {R : Frame → Frame → Prop} (hR : Frame.Kept R)
include hR

mutual

/-- What each step keeps, an expression keeps. -/
theorem Laid.kept {f g : Frame} {e : Expr} (h : Laid f e g) : R f g := by
  cases h with
  | literal | var | brk => exact hR.refl f
  | call h => exact h.kept
  | block hb hr => exact hR.block (hR.trans hb.kept hr.kept)
  | bind hv hk hs => exact hR.trans hv.kept (hR.register hk)
  | assign hv hk hs => exact hv.kept
  | binary hl hr => exact hR.trans hl.kept hr.kept
  | unary h => exact h.kept
  | group h => exact h.kept
  | branch hc ht he => exact hR.trans (hR.trans hc.kept ht.kept) he.kept
  | ret h => exact h.kept
  | loop hc hb => exact hR.trans hc.kept hb.kept

theorem LaidAll.kept {f g : Frame} {es : List Expr} (h : LaidAll f es g) : R f g := by
  cases h with
  | nil => exact hR.refl f
  | cons he hes => exact hR.trans he.kept hes.kept

theorem LaidOpt.kept {f g : Frame} {e : Option Expr} (h : LaidOpt f e g) : R f g := by
  cases h with
  | none => exact hR.refl f
  | some h => exact h.kept

end

end

theorem Frame.grows_kept : Frame.Kept fun f g => f.scopes.chain ≠ [] → f.Grows g where
  refl _ h := .refl h
  trans hfg hgh h := (hfg h).trans (hgh (hfg h).scopes.ne_nil)
  register hk h := grows_register h hk
  block hfg h := grows_leave h (hfg (List.cons_ne_nil _ _))

/-- Going through an expression adds variables to the innermost scope and changes nothing else. -/
theorem Laid.grows {f g : Frame} {e : Expr} (hf : f.scopes.chain ≠ []) (h : Laid f e g) :
    f.Grows g :=
  h.kept Frame.grows_kept hf

theorem LaidAll.grows {f g : Frame} {es : List Expr} (hf : f.scopes.chain ≠ [])
    (h : LaidAll f es g) : f.Grows g :=
  h.kept Frame.grows_kept hf

theorem LaidOpt.grows {f g : Frame} {e : Option Expr} (hf : f.scopes.chain ≠ [])
    (h : LaidOpt f e g) : f.Grows g :=
  h.kept Frame.grows_kept hf

/-! ## Functions -/

/-- The names of parameters have their variables. -/
inductive LaidParams : Frame → List Param → Frame → Prop
  | nil {f} : LaidParams f [] f
  | cons {f g h p ps k} (hk : f.register p.ident.name p.type.ty p.ident.location = (.ok k, g))
    (hs : p.ident.slot = some k) (hps : LaidParams g ps h) : LaidParams f (p :: ps) h

theorem LaidParams.grows {f g : Frame} {ps : List Param} (hf : f.scopes.chain ≠ [])
    (h : LaidParams f ps g) : f.Grows g := by
  induction h with
  | nil => exact .refl hf
  | cons hk hs _ ih =>
    have hg := Frame.grows_register hf hk
    exact hg.trans (ih hg.scopes.ne_nil)

theorem laidParams_place {s : Layout} {ps : List Param} (h : (placeParams s ps).error = none) :
    LaidParams s.frame (placeParams s ps).value (placeParams s ps).layout.frame := by
  induction ps generalizing s with
  | nil => exact .nil
  | cons p ps ih =>
    simp only [placeParams, Placed.map] at *
    obtain ⟨hi, hps, heq⟩ := Placed.andThen_of_error_none h
    obtain ⟨k, g, hk, hi⟩ := Layout.register_of_error_none hi
    rw [heq]
    simp only [Placed.map, hi] at hps ⊢
    exact .cons hk rfl (ih hps)

/-- The frame of a function before anything is in it, with the scope of its parameters open. -/
def Frame.start (function : String) : Frame := Frame.enter { function := function }

theorem Frame.start_ne_nil (function : String) : (Frame.start function).scopes.chain ≠ [] :=
  List.cons_ne_nil _ _

theorem Frame.start_regular (function : String) : (Frame.start function).Regular :=
  ⟨rfl, by simp [Frame.start, Frame.enter],
    by simp [Frame.start, Frame.enter, Scopes.push, Scopes.empty],
    by simp [Frame.start, Frame.enter, Scopes.push, Scopes.empty]⟩

/-- A function has been placed in a frame: its parameters first, then what is in its body. -/
structure Function.LaidIn (f : Function) (frame : Frame) : Prop where
  /-- The frames behind the parameters and behind the body. -/
  laid : ∃ g h, LaidParams (.start f.ident.name) f.params g ∧ Laid g f.body h ∧ frame = h.leave

theorem Function.laid_place {constants : Constants} {f : Function}
    (h : (f.place constants).error = none) :
    (f.place constants).value.LaidIn (f.place constants).layout.frame := by
  simp only [Function.place, Placed.map, Placed.leave] at *
  obtain ⟨hps, hb, heq⟩ := Placed.andThen_of_error_none h
  rw [heq]
  exact ⟨_, _, laidParams_place hps, Expr.laid_place hb, rfl⟩

/-- If all functions were gone through to the end, each one has been placed in its frame. -/
theorem laid_placeFunctions {constants : Constants} {fs : List Function}
    (h : (placeFunctions constants fs).stopped = none) :
    List.Forall₂ Function.LaidIn (placeFunctions constants fs).functions
      (placeFunctions constants fs).frames := by
  induction fs generalizing constants with
  | nil => exact .nil
  | cons f fs ih =>
    simp only [placeFunctions] at *
    split at h
    · cases h
    · rename_i he
      exact .cons (Function.laid_place he) (ih h)

/-! ## What every step of placement keeps -/

/-- A property that each step of placement keeps. -/
structure Layout.Kept (P : Layout → Prop) : Prop where
  enter : ∀ s, P s → P s.enter
  leave : ∀ s : Layout, P s → P { s with frame := s.frame.leave }
  register : ∀ s ty i, P s → P (s.register ty i).layout
  allocate : ∀ (s : Layout) text, P s →
    P { s with constants := (s.constants.allocate text .string).2 }

theorem Layout.bind_layout (s : Layout) (i : Ident) : (s.bind i).layout = s := by
  unfold Layout.bind
  split <;> rfl

theorem Placed.andThen_kept {α β : Type} {P : Layout → Prop} {p : Placed α} {second : β}
    {go : Layout → Placed β} (hp : P p.layout) (hgo : ∀ s, P s → P (go s).layout) :
    P (p.andThen second go).layout := by
  unfold Placed.andThen
  split
  · exact hp
  · exact hgo _ hp

mutual

/-- What each step keeps, an expression keeps. -/
theorem Expr.place_kept {P : Layout → Prop} (hP : Layout.Kept P) {s : Layout} (hs : P s)
    (e : Expr) : P (e.place s).layout := by
  cases e with
  | literal n text constant =>
    simp only [Expr.place]
    split
    · exact hP.allocate s text hs
    · exact hs
  | var n ident => exact (Layout.bind_layout s ident).symm ▸ hs
  | call n callee arguments => exact placeAll_kept hP hs arguments
  | block n body result =>
    exact hP.leave _ (Placed.andThen_kept (placeAll_kept hP (hP.enter s hs) body)
      fun _ ht => placeOpt_kept hP ht result)
  | bind n ident type value =>
    exact Placed.andThen_kept (Expr.place_kept hP hs value) fun t ht => hP.register t _ _ ht
  | assign n target value =>
    exact Placed.andThen_kept (Expr.place_kept hP hs value)
      fun t ht => (Layout.bind_layout t target).symm ▸ ht
  | binary n op left right =>
    exact Placed.andThen_kept (Expr.place_kept hP hs left) fun _ ht => Expr.place_kept hP ht right
  | unary n op operand => exact Expr.place_kept hP hs operand
  | group n inner => exact Expr.place_kept hP hs inner
  | branch n condition onTrue onFalse =>
    exact Placed.andThen_kept (Placed.andThen_kept (Expr.place_kept hP hs condition)
      fun _ ht => Expr.place_kept hP ht onTrue) fun _ ht => placeOpt_kept hP ht onFalse
  | ret n value => exact Expr.place_kept hP hs value
  | loop n condition body =>
    exact Placed.andThen_kept (Expr.place_kept hP hs condition)
      fun _ ht => Expr.place_kept hP ht body
  | brk n => exact hs

theorem placeAll_kept {P : Layout → Prop} (hP : Layout.Kept P) {s : Layout} (hs : P s)
    (es : List Expr) : P (placeAll s es).layout := by
  cases es with
  | nil => exact hs
  | cons e es =>
    exact Placed.andThen_kept (Expr.place_kept hP hs e) fun _ ht => placeAll_kept hP ht es

theorem placeOpt_kept {P : Layout → Prop} (hP : Layout.Kept P) {s : Layout} (hs : P s)
    (e : Option Expr) : P (placeOpt s e).layout := by
  cases e with
  | none => exact hs
  | some e => exact Expr.place_kept hP hs e

end

theorem placeParams_kept {P : Layout → Prop} (hP : Layout.Kept P) {s : Layout} (hs : P s)
    (ps : List Param) : P (placeParams s ps).layout := by
  induction ps generalizing s with
  | nil => exact hs
  | cons p ps ih => exact Placed.andThen_kept (hP.register s _ _ hs) fun _ ht => ih ht

theorem Function.place_kept {P : Layout → Prop} (hP : Layout.Kept P) {constants : Constants}
    (f : Function) (hs : P ⟨{ function := f.ident.name }, constants⟩) :
    P (f.place constants).layout :=
  hP.leave _ (Placed.andThen_kept (placeParams_kept hP (hP.enter _ hs) f.params)
    fun _ ht => Expr.place_kept hP ht f.body)

/-- What each step keeps about the constants, all functions keep. -/
theorem placeFunctions_kept {P : Constants → Prop} (hP : Layout.Kept fun s => P s.constants)
    {constants : Constants} (h : P constants) (fs : List Function) :
    P (placeFunctions constants fs).constants := by
  induction fs generalizing constants with
  | nil => exact h
  | cons f fs ih =>
    have hf := Function.place_kept hP f h
    simp only [placeFunctions]
    split
    · exact hf
    · exact ih hf

end Ilang
