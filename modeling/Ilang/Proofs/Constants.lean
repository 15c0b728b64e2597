import Ilang.Proofs.Placement
import Ilang.Proofs.References
/-!
# The constants of a program

Placement gives every string a constant with the next number (`Constants.Numbered`), and the
constants stand in the order in which the strings are written (`placeFunctions_pool`). The data
section has their labels and texts in that order (`Constants.dataLines_eq_ok`).
-/
namespace Ilang

/-! ## Strings and their constants -/

/-- The constant that an expression has for itself. -/
def Expr.constant? : Expr → Option Constant
  | .literal n text (some label) => if n.ty = .string then some ⟨label, .string, text⟩ else none
  | _ => none

/-- The constants of the strings in an expression, as they are written. -/
def Expr.constants (e : Expr) : List Constant := (e.nodes .written).filterMap constant?

theorem Expr.constants_literal (n : Node) (text : String) (constant : Option String) :
    (literal n text constant).constants = (constant? (.literal n text constant)).toList := by
  unfold constants nodes descendants
  cases h : constant? (.literal n text constant) <;> simp [h]

/-- Apart from literals, an expression has the constants of what is below it. -/
theorem Expr.constants_children {e : Expr} (h : e.constant? = none) :
    e.constants = e.children.flatMap constants := by
  unfold constants
  rw [nodes_written, List.filterMap_append, List.filterMap_flatMap, List.filterMap_cons_none h,
    List.filterMap_nil, List.append_nil]

/-- The constants up to here. -/
def Layout.pool (s : Layout) : List Constant := s.constants.entries.toList

mutual

/-- Going through an expression adds the constants of its strings. -/
theorem Expr.pool_place {s : Layout} {e : Expr} (h : (e.place s).error = none) :
    (e.place s).layout.pool = s.pool ++ (e.place s).value.constants := by
  cases e with
  | literal n text constant =>
    unfold Expr.place
    split
    · rename_i hstring
      simp [Layout.pool, Constants.allocate, Expr.constants_literal, Expr.constant?, hstring]
    · rename_i hstring
      cases constant <;> simp [Expr.constants_literal, Expr.constant?, hstring]
  | var n ident =>
    rw [Expr.constants_children rfl]
    simp [Expr.place, Placed.map, Expr.children, Layout.bind_layout]
  | call n callee arguments =>
    rw [Expr.constants_children rfl]
    exact pool_placeAll h
  | block n body result =>
    rw [Expr.constants_children rfl]
    simp only [Expr.place, Placed.map, Placed.leave] at *
    obtain ⟨hb, hr, heq⟩ := Placed.andThen_of_error_none h
    rw [heq]
    simp only [Placed.map, Expr.children, List.flatMap_append]
    -- Opening and closing a scope leaves the constants alone.
    have hbody := pool_placeAll hb
    have henter : s.enter.pool = s.pool := rfl
    rw [← List.append_assoc, ← henter, ← hbody]
    exact pool_placeOpt hr
  | bind n ident type value =>
    rw [Expr.constants_children rfl]
    simp only [Expr.place, Placed.map] at *
    obtain ⟨hv, hi, heq⟩ := Placed.andThen_of_error_none h
    obtain ⟨k, g, hk, hi⟩ := Layout.register_of_error_none hi
    rw [heq]
    simp only [Placed.map, hi, Expr.children, List.flatMap_singleton]
    exact Expr.pool_place hv
  | assign n target value =>
    rw [Expr.constants_children rfl]
    simp only [Expr.place, Placed.map] at *
    obtain ⟨hv, hi, heq⟩ := Placed.andThen_of_error_none h
    obtain ⟨k, hk, hi⟩ := Layout.bind_of_error_none hi
    rw [heq]
    simp only [Placed.map, hi, Expr.children, List.flatMap_singleton]
    exact Expr.pool_place hv
  | binary n op left right =>
    rw [Expr.constants_children rfl]
    simp only [Expr.place, Placed.map] at *
    obtain ⟨hl, hr, heq⟩ := Placed.andThen_of_error_none h
    rw [heq]
    simp only [Placed.map, Expr.children, List.flatMap_cons, List.flatMap_nil, List.append_nil]
    rw [← List.append_assoc, ← Expr.pool_place hl]
    exact Expr.pool_place hr
  | branch n condition onTrue onFalse =>
    rw [Expr.constants_children rfl]
    simp only [Expr.place, Placed.map] at *
    obtain ⟨hct, hf, heq⟩ := Placed.andThen_of_error_none h
    obtain ⟨hc, ht, heq'⟩ := Placed.andThen_of_error_none hct
    rw [heq]
    rw [heq'] at hf ⊢
    simp only [Placed.map, Expr.children, List.flatMap_cons]
    rw [← List.append_assoc, ← List.append_assoc, ← Expr.pool_place hc, ← Expr.pool_place ht]
    exact pool_placeOpt hf
  | loop n condition body =>
    rw [Expr.constants_children rfl]
    simp only [Expr.place, Placed.map] at *
    obtain ⟨hc, hb, heq⟩ := Placed.andThen_of_error_none h
    rw [heq]
    simp only [Placed.map, Expr.children, List.flatMap_cons, List.flatMap_nil, List.append_nil]
    rw [← List.append_assoc, ← Expr.pool_place hc]
    exact Expr.pool_place hb
  | unary n op value | group n value | ret n value =>
    rw [Expr.constants_children rfl]
    simp only [Expr.place, Placed.map, Expr.children, List.flatMap_singleton]
    exact Expr.pool_place h
  | brk n =>
    rw [Expr.constants_children rfl]
    exact (List.append_nil _).symm

theorem pool_placeAll {s : Layout} {es : List Expr} (h : (placeAll s es).error = none) :
    (placeAll s es).layout.pool = s.pool ++ (placeAll s es).value.flatMap Expr.constants := by
  cases es with
  | nil => simp [placeAll]
  | cons e es =>
    simp only [placeAll, Placed.map] at *
    obtain ⟨he, hes, heq⟩ := Placed.andThen_of_error_none h
    rw [heq]
    simp only [Placed.map, List.flatMap_cons]
    rw [← List.append_assoc, ← Expr.pool_place he]
    exact pool_placeAll hes

theorem pool_placeOpt {s : Layout} {e : Option Expr} (h : (placeOpt s e).error = none) :
    (placeOpt s e).layout.pool = s.pool ++ (placeOpt s e).value.toList.flatMap Expr.constants := by
  cases e with
  | none => simp [placeOpt]
  | some e =>
    simp only [placeOpt, Placed.map, Option.toList_some, List.flatMap_singleton]
    exact Expr.pool_place h

end

theorem pool_placeParams {s : Layout} {ps : List Param} (h : (placeParams s ps).error = none) :
    (placeParams s ps).layout.pool = s.pool := by
  induction ps generalizing s with
  | nil => rfl
  | cons p ps ih =>
    simp only [placeParams, Placed.map] at *
    obtain ⟨hi, hps, heq⟩ := Placed.andThen_of_error_none h
    obtain ⟨k, g, hk, hi⟩ := Layout.register_of_error_none hi
    rw [heq]
    simp only [Placed.map, hi] at hps ⊢
    exact ih hps

theorem Function.pool_place {constants : Constants} {f : Function}
    (h : (f.place constants).error = none) :
    (f.place constants).layout.pool =
      constants.entries.toList ++ (f.place constants).value.body.constants := by
  simp only [Function.place, Placed.map, Placed.leave] at *
  obtain ⟨hps, hb, heq⟩ := Placed.andThen_of_error_none h
  rw [heq]
  have hparams := pool_placeParams hps
  refine (Expr.pool_place hb).trans ?_
  rw [hparams]
  rfl

/-- The constants of a program are those of the strings in it, as they are written. -/
theorem placeFunctions_pool {constants : Constants} {fs : List Function}
    (h : (placeFunctions constants fs).stopped = none) :
    (placeFunctions constants fs).constants.entries.toList = constants.entries.toList ++
      (placeFunctions constants fs).functions.flatMap fun f => f.body.constants := by
  induction fs generalizing constants with
  | nil => simp [placeFunctions]
  | cons f fs ih =>
    simp only [placeFunctions] at *
    split at h
    · cases h
    · rename_i he
      rw [ih h, List.flatMap_cons, ← List.append_assoc, ← Function.pool_place he]
      rfl

/-! ## Labels and lines -/

namespace Constants

/-- The labels of constants are numbered. -/
def Numbered (c : Constants) : Prop :=
  c.entries.toList.map (·.label) = (List.range c.entries.size).map labels.label

theorem kept_numbered : Layout.Kept fun s => s.constants.Numbered where
  enter _ h := h
  leave _ h := h
  register s ty i h := by
    unfold Layout.register
    split <;> exact h
  allocate s text h := by
    unfold Numbered allocate at *
    simp only [Array.toList_push, Array.size_push, List.map_append, List.range_succ, h]
    rfl

/-- The lines of constants are their labels and texts. -/
theorem entriesLines_eq_ok {cs : List Constant} {is : List Instr} (h : entriesLines cs = .ok is) :
    is = cs.flatMap fun c => [.label c.label, .asciz c.text] := by
  induction cs generalizing is with
  | nil => cases h; rfl
  | cons c cs ih =>
    unfold entriesLines entryLines at h
    split at h
    · cases hcs : entriesLines cs with
      | error e => rw [hcs] at h; cases h
      | ok js =>
        rw [hcs] at h
        cases h
        rw [List.flatMap_cons, ← ih hcs]
    · cases h

theorem dataLines_eq_ok {c : Constants} {is : List Instr} (h : c.dataLines = .ok is) :
    is = .directive ".data" ::
      c.entries.toList.flatMap fun x => [.label x.label, .asciz x.text] := by
  unfold dataLines at h
  cases hlines : entriesLines c.entries.toList with
  | error e => rw [hlines] at h; cases h
  | ok js =>
    rw [hlines] at h
    cases h
    rw [entriesLines_eq_ok hlines]

/-- The labels in the data section are those of the constants. -/
theorem labels_dataLines {c : Constants} {is : List Instr} (h : c.dataLines = .ok is) :
    Instr.labels is = c.entries.toList.map (·.label) := by
  rw [dataLines_eq_ok h, Instr.labels_cons, Instr.labels, List.filterMap_flatMap]
  rw [List.map_eq_flatMap]
  rfl

end Constants

end Ilang
