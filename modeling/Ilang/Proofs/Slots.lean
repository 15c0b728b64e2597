import Ilang.Proofs.Binding
import Ilang.Proofs.Placement
/-!
# Placement is lexical scoping

A frame has the variables that a function declares, in the order of the mentions, and each mention
of a variable has the place of the declaration that it means (`Laid.slotted`,
`Function.LaidIn.slotted`). The order is that of name resolution. So the number of a variable in the
frame and the number of its declaration in the table differ by the same amount all over a function.
-/
namespace Ilang

/-- What lexical scoping asks placement for on the way from one frame to another. The scopes `outer`
are not those of the frame. -/
structure Slotted (outer : List (List Ident)) (f g : Frame) (mentions : List Mention) : Prop where
  vars : g.vars.toList.map (fun v => (v.name, v.ty)) =
    f.vars.toList.map (fun v => (v.name, v.ty)) ++
    (mentions.filterMap Mention.declaration?).map fun d => (d.name, d.ty)
  own : (mentions.filterMap Mention.declared?).map (·.slot) =
    (List.range' f.vars.size (mentions.filterMap Mention.declaration?).length).map some
  used : ∀ x ∈ mentions, x.use = .var → ∃ locals i k, x.around = locals ++ outer ∧
    meaningOf x.ident.name locals = some i ∧ i.slot = some k ∧ x.ident.slot = some k

namespace Slotted

variable {outer : List (List Ident)} {f g h : Frame} {xs ys : List Mention}

theorem nil : Slotted outer f f [] := ⟨by simp, rfl, by simp⟩

theorem size (hx : Slotted outer f g xs) :
    g.vars.size = f.vars.size + (xs.filterMap Mention.declaration?).length := by
  have hlength := congrArg List.length hx.vars
  simpa using hlength

theorem append (hx : Slotted outer f g xs) (hy : Slotted outer g h ys) :
    Slotted outer f h (xs ++ ys) := by
  constructor
  · rw [hy.vars, hx.vars, List.filterMap_append, List.map_append, List.append_assoc]
  · rw [List.filterMap_append, List.map_append, hx.own, hy.own, hx.size, ← List.map_append,
      List.range'_append_1, List.filterMap_append, List.length_append]
  · intro x hxs
    rcases List.mem_append.1 hxs with hxs | hxs
    · exact hx.used x hxs
    · exact hy.used x hxs

end Slotted

theorem Frame.register_vars {f g : Frame} {name : String} {ty : Ty} {location : Location} {k : Nat}
    (h : f.register name ty location = (.ok k, g)) :
    ∃ v : FrameVar, v.name = name ∧ v.ty = ty ∧ g.vars = f.vars.push v := by
  unfold register at h
  dsimp only at h
  split at h
  · cases h
  · cases h
    exact ⟨_, rfl, rfl, rfl⟩

section
variable {outer : List (List Ident)} {f g : Frame} {before : List Ident}
  {around : List (List Ident)}

/-- A variable that gets its place is in the scope from there on. -/
theorem Frame.register_slotted (hf : f.scopes.Lists (·.slot) (before :: around)) {i : Ident}
    {kind : DeclKind} {ty : Ty} {signature : Option Signature} {k : Nat}
    (h : f.register i.name ty i.location = (.ok k, g)) (hi : i.slot = some k) :
    Slotted outer f g [⟨i, .declares kind ty signature, before :: around ++ outer⟩] ∧
      g.scopes.Lists (·.slot) ((before ++ [i]) :: around) := by
  obtain ⟨hnew, rfl, hscopes, -⟩ := register_eq_ok h
  obtain ⟨v, hname, hty, hvars⟩ := register_vars h
  refine ⟨⟨?_, ?_, ?_⟩, ?_⟩
  · simp [hvars, Mention.declaration?, hname, hty]
  · simp [Mention.declaration?, Mention.declared?, hi]
  · simp
  · rw [hscopes]
    exact hf.insert hi (hf.firstNamed_eq_none hnew)

end

/-! ## Expressions -/

/-- What the statements do, the walk over them does. -/
theorem LaidAll.slotted {outer around : List (List Ident)} {f g : Frame} {es : List Expr}
    (h : ∀ e ∈ es, ∀ {f g : Frame} {before : List Ident}, Laid f e g →
      f.scopes.Lists (·.slot) (before :: around) →
      Slotted outer f g (e.mentions (before :: around ++ outer)) ∧
        g.scopes.Lists (·.slot) ((before ++ e.lets) :: around))
    (hes : LaidAll f es g) {before : List Ident} (hf : f.scopes.Lists (·.slot) (before :: around)) :
    Slotted outer f g (mentionsInTurn Expr.lets
        (fun before e => e.mentions (before :: around ++ outer)) before es) ∧
      g.scopes.Lists (·.slot) ((before ++ es.flatMap Expr.lets) :: around) := by
  induction es generalizing f before with
  | nil =>
    cases hes
    exact ⟨.nil, by simpa using hf⟩
  | cons e es ih =>
    cases hes with
    | cons he hes =>
      obtain ⟨hslotted, hlists⟩ := h e List.mem_cons_self he hf
      obtain ⟨hothers, hlast⟩ := ih (fun d hd => h d (List.mem_cons_of_mem _ hd)) hes hlists
      refine ⟨hslotted.append hothers, ?_⟩
      rw [List.append_assoc] at hlast
      exact hlast

theorem LaidAll.append {f g h : Frame} {es ds : List Expr} (hes : LaidAll f es g)
    (hds : LaidAll g ds h) : LaidAll f (es ++ ds) h := by
  induction es generalizing f with
  | nil => cases hes; exact hds
  | cons e es ih =>
    cases hes with
    | cons he hes => exact .cons he (ih hes)

theorem LaidOpt.toList {f g : Frame} {e : Option Expr} (h : LaidOpt f e g) :
    LaidAll f e.toList g := by
  cases h with
  | none => exact .nil
  | some h => exact .cons h .nil

/-- The parts of a block are placed in a scope of their own. -/
theorem Laid.block_parts {f g : Frame} {n : Node} {body : List Expr} {result : Option Expr}
    (h : Laid f (.block n body result) g) :
    ∃ inner, LaidAll f.enter (Expr.block n body result).children inner ∧ g = inner.leave := by
  cases h with
  | block hb hr => exact ⟨_, hb.append hr.toList, rfl⟩

/-- What is neither a block nor a `let` is placed by its parts. The variable that it uses itself is
visible behind them. -/
theorem Laid.parts {f g : Frame} {e : Expr} (h : Laid f e g) (hblock : e.isBlock = false)
    (hlets : e.lets = []) : LaidAll f e.children g ∧
      ∀ i, e.named? = some (i, .var) → ∃ k, g.scopes.lookup i.name = some k ∧ i.slot = some k := by
  cases h with
  | block => cases hblock
  | bind => cases hlets
  | literal | brk => exact ⟨.nil, by simp [Expr.named?]⟩
  | var hk hs => exact ⟨.nil, by simpa [Expr.named?] using ⟨_, hk, hs⟩⟩
  | call h => exact ⟨h, by simp [Expr.named?]⟩
  | assign hv hk hs => exact ⟨.cons hv .nil, by simpa [Expr.named?] using ⟨_, hk, hs⟩⟩
  | binary hl hr => exact ⟨.cons hl (.cons hr .nil), by simp [Expr.named?]⟩
  | unary h | group h | ret h => exact ⟨.cons h .nil, by simp [Expr.named?]⟩
  | branch hc ht hf => exact ⟨.cons hc (.cons ht hf.toList), by simp [Expr.named?]⟩
  | loop hc hb => exact ⟨.cons hc (.cons hb .nil), by simp [Expr.named?]⟩

/-- A name that is used has the place of its meaning. -/
theorem Expr.named_slotted {outer around : List (List Ident)} {f g : Frame} {e : Expr}
    (hlets : e.lets = []) (hg : g.scopes.Lists (·.slot) around)
    (hused : ∀ i, e.named? = some (i, .var) →
      ∃ k, g.scopes.lookup i.name = some k ∧ i.slot = some k) :
    Slotted outer f f (e.named?.map fun u => ⟨u.1, u.2, around ++ outer⟩).toList := by
  cases hu : e.named? with
  | none => exact .nil
  | some u =>
    obtain ⟨i, use⟩ := u
    have hnone : Mention.declaration? ⟨i, use, around ++ outer⟩ = none := by
      rcases named?_use hlets hu with h | h <;> cases h <;> rfl
    refine ⟨by simp [hnone], by simp [hnone, Mention.declared?], ?_⟩
    intro x hx hvar
    obtain rfl := List.mem_singleton.1 hx
    obtain rfl : use = .var := hvar
    obtain ⟨k, hlookup, hslot⟩ := hused i hu
    rw [hg.lookup] at hlookup
    obtain ⟨j, hj, hk⟩ := Option.bind_eq_some_iff.1 hlookup
    exact ⟨around, j, k, rfl, hj, hk, hslot⟩

/-- Placement is lexical scoping in an expression. -/
theorem Laid.slotted {outer : List (List Ident)} {e : Expr} (hread : e.StatementRead) {f g : Frame}
    {before : List Ident} {around : List (List Ident)} (h : Laid f e g)
    (hf : f.scopes.Lists (·.slot) (before :: around)) :
    Slotted outer f g (e.mentions (before :: around ++ outer)) ∧
      g.scopes.Lists (·.slot) ((before ++ e.lets) :: around) := by
  -- By induction on the tree, as for name resolution.
  induction e using Expr.induction_children generalizing f g before around with
  | _ e ih =>
    by_cases hblock : e.isBlock = true
    · obtain ⟨n, body, result, rfl⟩ := Expr.isBlock_iff.1 hblock
      obtain ⟨inner, hparts, rfl⟩ := h.block_parts
      obtain ⟨hslotted, hlists⟩ := hparts.slotted
        (fun c hc _ _ _ h hf => ih c hc ((Expr.everywhere_iff.1 hread).2 c hc) h hf) hf.push
      rw [Expr.mentions_block]
      refine ⟨⟨hslotted.vars, hslotted.own, hslotted.used⟩, ?_⟩
      rw [show (Expr.block n body result).lets = [] from rfl, List.append_nil]
      exact hlists.pop
    · have hvalues : ∀ c ∈ e.children, c.ValueRead :=
        hread.child (by rintro n body result rfl; exact hblock rfl)
      by_cases hlets : e.lets = []
      · obtain ⟨hparts, hused⟩ := h.parts (Bool.eq_false_iff.2 hblock) hlets
        obtain ⟨hslotted, hlists⟩ := hparts.slotted
          (fun c hc _ _ _ h hf => ih c hc (hvalues c hc).everywhere h hf) hf
        rw [mentionsInTurn_of_declared_nil fun c hc => (hvalues c hc).lets_eq_nil] at hslotted
        rw [List.flatMap_eq_nil_iff.2 fun c hc => (hvalues c hc).lets_eq_nil,
          List.append_nil] at hlists
        rw [Expr.mentions_parts (Bool.eq_false_iff.2 hblock) hlets, hlets, List.append_nil]
        exact ⟨(Expr.named_slotted hlets hlists hused).append hslotted, hlists⟩
      · obtain ⟨n, ident, type, value, rfl⟩ := Expr.lets_ne_nil_iff.1 hlets
        have hvalue := hvalues value (by simp [Expr.children])
        cases h with
        | bind hv hk hs =>
          obtain ⟨hslotted, hlists⟩ := ih value (by simp [Expr.children]) hvalue.everywhere hv hf
          rw [hvalue.lets_eq_nil, List.append_nil] at hlists
          obtain ⟨hown, hlast⟩ := Frame.register_slotted hlists hk hs
          exact ⟨hslotted.append hown, hlast⟩

/-! ## Functions -/

theorem LaidParams.slotted {outer : List (List Ident)} {f g : Frame} {ps : List Param}
    (h : LaidParams f ps g) {before : List Ident} (hf : f.scopes.Lists (·.slot) [before]) :
    Slotted outer f g (mentionsInTurn (fun p => [p.ident]) (fun before p =>
        [⟨p.ident, .declares .parameter p.type.ty none, before :: outer⟩]) before ps) ∧
      g.scopes.Lists (·.slot) [before ++ ps.map (·.ident)] := by
  induction h generalizing before with
  | nil => exact ⟨.nil, by simpa using hf⟩
  | cons hk hs _ ih =>
    obtain ⟨hown, hlists⟩ := Frame.register_slotted hf hk hs
    obtain ⟨hothers, hlast⟩ := ih hlists
    refine ⟨hown.append hothers, ?_⟩
    rw [List.append_assoc] at hlast
    exact hlast

/-- Placement is lexical scoping in a function. -/
theorem Function.LaidIn.slotted {f : Function} {frame : Frame} (h : f.LaidIn frame)
    (hread : f.body.ValueRead) (globals : List Ident) :
    Slotted [globals] (.start f.ident.name) frame (f.mentions globals) := by
  obtain ⟨g, last, hps, hbody, rfl⟩ := h.laid
  have hstart : (Frame.start f.ident.name).scopes.Lists (·.slot) [[]] := Scopes.Lists.push .nil
  obtain ⟨hparams, hlists⟩ := hps.slotted hstart
  obtain ⟨hslotted, -⟩ := hbody.slotted hread.everywhere hlists
  have hall : Slotted [globals] _ _ _ := hparams.append hslotted
  exact ⟨hall.vars, hall.own, hall.used⟩

end Ilang
