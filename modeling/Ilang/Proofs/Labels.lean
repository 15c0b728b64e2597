import Ilang.Proofs.Emission
import Mathlib.Data.List.Nodup
import Mathlib.Data.List.Perm.Basic
/-!
# Labels

The labels that stand in the code of an expression are those that were given out while it was made,
each of them once (`Emits.issues`). So a label of a program stands in one place only if the names of
its functions differ and none of them looks like such a label, and a jump goes where the label was
written (`codeAt_of_suffix`).
-/
namespace Ilang

/-! ## Where a jump goes -/

namespace Instr

/-- The label that an instruction is. -/
def label? : Instr → Option String
  | label name => some name
  | _ => none

/-- The labels that stand in some code. -/
def labels (is : List Instr) : List String := is.filterMap label?

@[simp] theorem labels_nil : labels [] = [] := rfl

@[simp] theorem labels_append (is js : List Instr) : labels (is ++ js) = labels is ++ labels js :=
  List.filterMap_append

theorem labels_cons (i : Instr) (is : List Instr) :
    labels (i :: is) = i.label?.toList ++ labels is := by
  cases h : i.label? <;> simp [labels, h]

/-- The code from a label on. -/
def codeAt (name : String) : List Instr → Option (List Instr)
  | [] => none
  | i :: is => if i = .label name then some (i :: is) else codeAt name is

/-- If each label stands in one place only, the code from a label on starts in that place. -/
theorem codeAt_of_suffix {program rest : List Instr} {name : String}
    (hnodup : (labels program).Nodup) (h : .label name :: rest <:+ program) :
    codeAt name program = some (.label name :: rest) := by
  obtain ⟨before, rfl⟩ := h
  induction before with
  | nil => simp [codeAt]
  | cons i before ih =>
    rw [List.cons_append, labels_cons, List.nodup_append] at hnodup
    have hne : i ≠ .label name := by
      rintro rfl
      exact hnodup.2.2 name (by simp [label?]) name (by simp [labels_cons, label?]) rfl
    rw [List.cons_append, codeAt, if_neg hne]
    exact ih hnodup.2.1

end Instr

/-! ## Labels that are given out -/

theorem LabelSupply.label_injective {s : LabelSupply} {i j : Nat} (h : s.label i = s.label j) :
    i = j := by
  unfold LabelSupply.label at h
  rw [String.append_right_inj, Nat.toString_eq_ofList_toDigits, Nat.toString_eq_ofList_toDigits,
    String.ofList_inj] at h
  rw [← @Nat.ofDigitChars_ten_toDigits i, h, Nat.ofDigitChars_ten_toDigits]

namespace Labels

/-- The label of a branch with a number. -/
def branch (i : Nat) : String := ({} : Labels).branches.label i

/-- The label of a loop with a number. -/
def loop (i : Nat) : String := ({} : Labels).loops.label i

theorem toList_branch (i : Nat) :
    ∃ rest, (branch i).toList = '.' :: 'c' :: 'o' :: 'n' :: 'd' :: rest := by
  have hstem : ".conditional_label".toList =
    '.' :: 'c' :: 'o' :: 'n' :: 'd' :: "itional_label".toList := by decide
  unfold branch LabelSupply.label
  rw [String.toList_append, String.toList_append, hstem]
  exact ⟨_, rfl⟩

theorem toList_loop (i : Nat) : ∃ rest, (loop i).toList = '.' :: 'l' :: rest := by
  have hstem : ".loop_label".toList = '.' :: 'l' :: "oop_label".toList := by decide
  unfold loop LabelSupply.label
  rw [String.toList_append, String.toList_append, hstem]
  exact ⟨_, rfl⟩

theorem branch_ne_loop (i j : Nat) : branch i ≠ loop j := by
  intro h
  obtain ⟨r, hr⟩ := toList_branch i
  obtain ⟨r', hr'⟩ := toList_loop j
  rw [h, hr'] at hr
  cases hr

/-- The names of labels are those of branches and loops. -/
structure Standard (l : Labels) : Prop where
  branches : l.branches.stem = ({} : Labels).branches.stem
  loops : l.loops.stem = ({} : Labels).loops.stem

theorem Standard.branch_eq {l : Labels} (h : l.Standard) (i : Nat) : l.branches.label i = branch i := by
  simp only [LabelSupply.label, branch, h.branches]

theorem Standard.loop_eq {l : Labels} (h : l.Standard) (i : Nat) : l.loops.label i = loop i := by
  simp only [LabelSupply.label, loop, h.loops]

/-- A label is given out between two states of the supply. -/
def Between (l m : Labels) (x : String) : Prop :=
  (∃ i, l.branches.issued ≤ i ∧ i < m.branches.issued ∧ x = branch i) ∨
    ∃ i, l.loops.issued ≤ i ∧ i < m.loops.issued ∧ x = loop i

/-- The labels `xs` were given out, each of them once, on the way from one state to another. -/
structure Issues (l m : Labels) (xs : List String) : Prop where
  standard : m.Standard
  branches : l.branches.issued ≤ m.branches.issued
  loops : l.loops.issued ≤ m.loops.issued
  nodup : xs.Nodup
  between : ∀ x ∈ xs, l.Between m x

namespace Issues

variable {l m k : Labels} {xs ys : List String}

theorem refl (h : l.Standard) : Issues l l [] :=
  ⟨h, Nat.le_refl _, Nat.le_refl _, List.nodup_nil, by simp⟩

theorem perm (h : Issues l m xs) (hp : ys.Perm xs) : Issues l m ys :=
  ⟨h.standard, h.branches, h.loops, hp.nodup_iff.2 h.nodup, fun x hx => h.between x (hp.mem_iff.1 hx)⟩

theorem trans (h : Issues l m xs) (h' : Issues m k ys) : Issues l k (xs ++ ys) := by
  have hb := h.branches
  have hb' := h'.branches
  have hl := h.loops
  have hl' := h'.loops
  refine ⟨h'.standard, by omega, by omega, List.nodup_append.2 ⟨h.nodup, h'.nodup, ?_⟩, ?_⟩
  · rintro x hx _ hy rfl
    -- The first state up to which `x` was given out is the one from which on it was.
    rcases h.between x hx with ⟨i, _, hi, rfl⟩ | ⟨i, _, hi, rfl⟩
    · rcases h'.between _ hy with ⟨j, hj, _, heq⟩ | ⟨j, _, _, heq⟩
      · have := LabelSupply.label_injective heq
        omega
      · exact branch_ne_loop i j heq
    · rcases h'.between _ hy with ⟨j, _, _, heq⟩ | ⟨j, hj, _, heq⟩
      · exact branch_ne_loop j i heq.symm
      · have := LabelSupply.label_injective heq
        omega
  · intro x hx
    rcases List.mem_append.1 hx with hx | hx
    · rcases h.between x hx with ⟨i, hi, hi', rfl⟩ | ⟨i, hi, hi', rfl⟩
      · exact .inl ⟨i, hi, by omega, rfl⟩
      · exact .inr ⟨i, hi, by omega, rfl⟩
    · rcases h'.between x hx with ⟨i, hi, hi', rfl⟩ | ⟨i, hi, hi', rfl⟩
      · exact .inl ⟨i, by omega, hi', rfl⟩
      · exact .inr ⟨i, by omega, hi', rfl⟩

end Issues

theorem issues_branch {l : Labels} (h : l.Standard) :
    Issues l l.afterBranch [l.elseLabel, l.branchEnd] := by
  refine ⟨⟨h.branches, h.loops⟩, by simp [afterBranch], by simp [afterBranch], ?_, ?_⟩
  · rw [List.nodup_cons]
    refine ⟨?_, List.nodup_singleton _⟩
    intro hmem
    have := LabelSupply.label_injective (List.mem_singleton.1 hmem)
    omega
  · intro x hx
    simp only [List.mem_cons, List.not_mem_nil, or_false] at hx
    rcases hx with rfl | rfl
    · exact .inl ⟨_, Nat.le_refl _, by simp [afterBranch], h.branch_eq _⟩
    · exact .inl ⟨_, Nat.le_succ _, by simp [afterBranch], h.branch_eq _⟩

theorem issues_loop {l : Labels} (h : l.Standard) :
    Issues l l.afterLoop [l.loopStart, l.loopEnd] := by
  refine ⟨⟨h.branches, h.loops⟩, by simp [afterLoop], by simp [afterLoop], ?_, ?_⟩
  · rw [List.nodup_cons]
    refine ⟨?_, List.nodup_singleton _⟩
    intro hmem
    have := LabelSupply.label_injective (List.mem_singleton.1 hmem)
    omega
  · intro x hx
    simp only [List.mem_cons, List.not_mem_nil, or_false] at hx
    rcases hx with rfl | rfl
    · exact .inr ⟨_, Nat.le_refl _, by simp [afterLoop], h.loop_eq _⟩
    · exact .inr ⟨_, Nat.le_succ _, by simp [afterLoop], h.loop_eq _⟩

end Labels

/-! ## The labels of code -/

theorem labels_literalCode {n : Node} {text : String} {constant : Option String} {is : List Instr}
    (h : literalCode n text constant = .ok is) : Instr.labels is = [] := by
  unfold literalCode at h
  dsimp only at h
  repeat' split at h
  all_goals cases h
  all_goals rfl

theorem labels_popArguments {k : Nat} {is : List Instr} (h : popArguments k = .ok is) :
    Instr.labels is = [] := by
  induction k generalizing is with
  | zero => cases h; rfl
  | succ k ih =>
    obtain ⟨r, pops, -, hp, rfl⟩ := popArguments_succ h
    simp [Instr.labels_cons, Instr.label?, ih hp]

theorem BinaryOp.labels_code (op : BinaryOp) : Instr.labels op.code = [] := by
  cases op <;> rfl

theorem UnaryOp.labels_code (op : UnaryOp) : Instr.labels op.code = [] := by
  cases op <;> rfl

mutual

/-- The labels in the code of an expression are those that were given out for it. -/
theorem Emits.issues {env : Surroundings} {l m : Labels} {e : Expr} {c : List Instr}
    (hs : l.Standard) (h : Emits env l e c m) : Labels.Issues l m (Instr.labels c) := by
  cases h with
  | literal h => rw [labels_literalCode h]; exact .refl hs
  | var | brk => exact .refl hs
  | call hmax ha hp =>
    simpa [Instr.labels_cons, Instr.label?, labels_popArguments hp] using ha.issues hs
  | block hb hr =>
    have hb' := hb.issues hs
    simpa using hb'.trans (hr.issues hb'.standard)
  | bind hv _ => simpa [Instr.labels_cons, Instr.label?] using hv.issues hs
  | assign hv _ => simpa [Instr.labels_cons, Instr.label?] using hv.issues hs
  | binary hr hl =>
    have hr' := hr.issues hs
    simpa [Instr.labels_cons, Instr.label?, BinaryOp.labels_code] using
      hr'.trans (hl.issues hr'.standard)
  | unary h => simpa [UnaryOp.labels_code] using h.issues hs
  | group h => exact h.issues hs
  | branch hc ht hf =>
    have h₀ := Labels.issues_branch hs
    have h₁ := hc.issues h₀.standard
    have h₂ := ht.issues h₁.standard
    refine (h₀.trans (h₁.trans (h₂.trans (hf.issues h₂.standard)))).perm ?_
    simp only [Instr.labels_append, Instr.labels_cons, Instr.label?, Option.toList_none,
      Option.toList_some, Instr.labels_nil, List.nil_append, List.append_nil]
    rw [List.perm_iff_count]
    intro x
    simp only [List.count_append, List.count_cons, List.count_nil]
    omega
  | ret h => simpa [Instr.labels_cons, Instr.label?] using h.issues hs
  | loop hc hb =>
    have h₀ := Labels.issues_loop hs
    have h₁ := hc.issues h₀.standard
    refine (h₀.trans (h₁.trans (hb.issues h₁.standard))).perm ?_
    simp only [Instr.labels_append, Instr.labels_cons, Instr.label?, Option.toList_none,
      Option.toList_some, Instr.labels_nil, List.nil_append, List.append_nil]
    rw [List.perm_iff_count]
    intro x
    simp only [List.count_append, List.count_cons, List.count_nil]
    omega

theorem EmitsAll.issues {env : Surroundings} {l m : Labels} {es : List Expr} {c : List Instr}
    (hs : l.Standard) (h : EmitsAll env l es c m) : Labels.Issues l m (Instr.labels c) := by
  cases h with
  | nil => exact .refl hs
  | cons he hes =>
    have he' := he.issues hs
    simpa using he'.trans (hes.issues he'.standard)

theorem EmitsArguments.issues {env : Surroundings} {l m : Labels} {es : List Expr} {c : List Instr}
    (hs : l.Standard) (h : EmitsArguments env l es c m) : Labels.Issues l m (Instr.labels c) := by
  cases h with
  | nil => exact .refl hs
  | cons he hes =>
    have he' := he.issues hs
    simpa [Instr.labels_cons, Instr.label?] using he'.trans (hes.issues he'.standard)

theorem EmitsOpt.issues {env : Surroundings} {l m : Labels} {e : Option Expr} {c : List Instr}
    (hs : l.Standard) (h : EmitsOpt env l e c m) : Labels.Issues l m (Instr.labels c) := by
  cases h with
  | none => exact .refl hs
  | some h => exact h.issues hs

end

/-! ## The labels of a program -/

theorem labels_storeParams {frame : Frame} {index : Nat} {ps : List Param} {is : List Instr}
    (h : storeParams frame index ps = .ok is) : Instr.labels is = [] := by
  induction ps generalizing index is with
  | nil => cases h; rfl
  | cons p ps ih =>
    obtain ⟨r, place, stores, -, -, hs, rfl⟩ := storeParams_cons h
    simp [Instr.labels_cons, Instr.label?, ih hs]

/-- The labels in the code of functions are their names and those that were given out. -/
theorem EmitsFunctions.issues {functions : List String} {fs : List (Function × Frame)}
    {l m : Labels} {c : List Instr} (hs : l.Standard) (h : EmitsFunctions functions l fs c m) :
    ∃ xs, Labels.Issues l m xs ∧ (Instr.labels c).Perm (fs.map (·.2.function) ++ xs) := by
  induction h with
  | nil => exact ⟨[], .refl hs, .refl _⟩
  | cons hf _ ih =>
    cases hf with
    | intro hmax hstores hb =>
      have hb' := hb.issues hs
      obtain ⟨xs, hxs, hperm⟩ := ih hb'.standard
      refine ⟨_, hb'.trans hxs, ?_⟩
      rw [List.perm_iff_count] at hperm ⊢
      intro x
      have hx := hperm x
      simp only [Instr.labels_append, Instr.labels_cons, Instr.label?, labels_storeParams hstores,
        Option.toList_some, Option.toList_none, Instr.labels_nil, List.map_cons, List.count_append,
        List.count_cons, List.count_nil] at hx ⊢
      omega

/-- A label in the code of functions is the name of one or was given out. -/
theorem EmitsFunctions.mem_labels {functions : List String} {fs : List (Function × Frame)}
    {m : Labels} {c : List Instr} (h : EmitsFunctions functions {} fs c m) {x : String}
    (hx : x ∈ Instr.labels c) :
    x ∈ fs.map (·.2.function) ∨ (∃ i, x = Labels.branch i) ∨ ∃ i, x = Labels.loop i := by
  obtain ⟨xs, hxs, hperm⟩ := h.issues ⟨rfl, rfl⟩
  rcases List.mem_append.1 (hperm.mem_iff.1 hx) with hx | hx
  · exact .inl hx
  · rcases hxs.between x hx with ⟨i, -, -, heq⟩ | ⟨i, -, -, heq⟩
    · exact .inr (.inl ⟨i, heq⟩)
    · exact .inr (.inr ⟨i, heq⟩)

/-- The names of functions are labels in their code. -/
theorem EmitsFunctions.names_subset {functions : List String} {fs : List (Function × Frame)}
    {m : Labels} {c : List Instr} (h : EmitsFunctions functions {} fs c m) :
    fs.map (·.2.function) ⊆ Instr.labels c := by
  obtain ⟨xs, -, hperm⟩ := h.issues ⟨rfl, rfl⟩
  intro x hx
  exact hperm.mem_iff.2 (List.mem_append_left _ hx)

/-- Each label of a program stands in one place only, if the names of its functions differ and none
starts like a label that is given out. -/
theorem EmitsFunctions.labels_nodup {functions : List String} {fs : List (Function × Frame)}
    {m : Labels} {c : List Instr} (h : EmitsFunctions functions {} fs c m)
    (hnames : (fs.map (·.2.function)).Nodup)
    (hdot : ∀ x ∈ fs, x.2.function.toList.head? ≠ some '.') : (Instr.labels c).Nodup := by
  obtain ⟨xs, hxs, hperm⟩ := h.issues ⟨rfl, rfl⟩
  rw [hperm.nodup_iff, List.nodup_append]
  refine ⟨hnames, hxs.nodup, ?_⟩
  rintro name hname _ hx rfl
  obtain ⟨x, hxfs, rfl⟩ := List.mem_map.1 hname
  apply hdot x hxfs
  rcases hxs.between _ hx with ⟨i, -, -, heq⟩ | ⟨i, -, -, heq⟩
  · obtain ⟨rest, hrest⟩ := Labels.toList_branch i
    rw [heq, hrest]
    rfl
  · obtain ⟨rest, hrest⟩ := Labels.toList_loop i
    rw [heq, hrest]
    rfl

end Ilang
