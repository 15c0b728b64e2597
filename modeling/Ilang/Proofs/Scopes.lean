import Ilang.Scopes
import Mathlib.Data.List.Forall2
/-!
# Laws of nested scopes

`Grows` says that names were only added to the innermost scope, which is all that going through an
expression does to the scopes around it. `Rel` pairs the entries of two chains that hold the same
names: a look-up, a declaration or the end of a scope in one chain is then one in the other.
-/
namespace Ilang.Scopes

variable {α β : Type}

/-! ## What operations do to the meanings of names -/

theorem lookup_push (s : Scopes α) (x : String) : s.push.lookup x = s.lookup x := by
  simp [push, lookup, List.findSome?_cons]

theorem lookup_insert (s : Scopes α) (name x : String) (a : α) :
    (s.insert name a).lookup x = if x = name then some a else s.lookup x := by
  obtain ⟨chain⟩ := s
  by_cases hx : x = name
  · cases chain <;> simp [insert, lookup, hx]
  · cases chain <;>
      simp [insert, lookup, List.findSome?_cons, List.lookup_cons, beq_false_of_ne hx, hx]

theorem innermost?_insert (s : Scopes α) (name x : String) (a : α) :
    (s.insert name a).innermost? x = if x = name then some a else s.innermost? x := by
  obtain ⟨chain⟩ := s
  by_cases hx : x = name
  · cases chain <;> simp [insert, innermost?, hx]
  · cases chain <;> simp [insert, innermost?, List.lookup_cons, beq_false_of_ne hx, hx]

/-! ## Growth of the innermost scope -/

/-- One chain comes from another by adding names to the innermost scope. -/
def Grows (s t : Scopes α) : Prop :=
  ∃ added inner outer, s.chain = inner :: outer ∧ t.chain = (added ++ inner) :: outer

theorem Grows.refl {s : Scopes α} (h : s.chain ≠ []) : s.Grows s := by
  obtain ⟨inner, outer, hs⟩ := List.exists_cons_of_ne_nil h
  exact ⟨[], inner, outer, hs, hs⟩

theorem Grows.trans {s t u : Scopes α} (hst : s.Grows t) (htu : t.Grows u) : s.Grows u := by
  obtain ⟨a, inner, outer, hs, ht⟩ := hst
  obtain ⟨b, inner', outer', ht', hu⟩ := htu
  rw [ht] at ht'
  cases ht'
  exact ⟨b ++ a, inner, outer, hs, by rw [hu, List.append_assoc]⟩

theorem Grows.ne_nil {s t : Scopes α} (h : s.Grows t) : t.chain ≠ [] := by
  obtain ⟨_, _, _, _, ht⟩ := h
  simp [ht]

theorem grows_insert {s : Scopes α} (h : s.chain ≠ []) (name : String) (a : α) :
    s.Grows (s.insert name a) := by
  obtain ⟨inner, outer, hs⟩ := List.exists_cons_of_ne_nil h
  exact ⟨[(name, a)], inner, outer, hs, by simp [insert, hs]⟩

/-- A scope that was opened, grew and is closed again leaves the chain as it was. -/
theorem pop_eq_of_push_grows {s t : Scopes α} (h : s.push.Grows t) : t.pop = s := by
  obtain ⟨added, inner, outer, hs, ht⟩ := h
  cases hs
  simp [pop, ht]

/-- A name that is visible stays so when scopes grow. -/
theorem Grows.lookup_isSome {s t : Scopes α} (h : s.Grows t) {name : String}
    (hs : (s.lookup name).isSome) : (t.lookup name).isSome := by
  obtain ⟨added, inner, outer, hc, ht⟩ := h
  simp only [lookup, hc, ht, List.findSome?_isSome_iff, List.mem_cons, List.lookup_isSome_iff] at *
  obtain ⟨scope, hscope | hscope, x, hx, hk⟩ := hs
  · exact ⟨added ++ inner, .inl rfl, x, List.mem_append_right _ (hscope ▸ hx), hk⟩
  · exact ⟨scope, .inr hscope, x, hx, hk⟩

/-! ## Two chains with the same names -/

/-- Two chains hold the same names in the same places, for things that are related. -/
def Rel (R : α → β → Prop) (s : Scopes α) (t : Scopes β) : Prop :=
  List.Forall₂ (List.Forall₂ fun x y => x.1 = y.1 ∧ R x.2 y.2) s.chain t.chain

variable {R : α → β → Prop}

theorem Rel.push {s : Scopes α} {t : Scopes β} (h : Rel R s t) : Rel R s.push t.push :=
  .cons .nil h

theorem Rel.pop {s : Scopes α} {t : Scopes β} (h : Rel R s t) : Rel R s.pop t.pop := by
  obtain ⟨cs⟩ := s
  obtain ⟨ct⟩ := t
  cases h with
  | nil => exact .nil
  | cons _ h => exact h

theorem Rel.insert {s : Scopes α} {t : Scopes β} (h : Rel R s t) {name : String} {a : α} {b : β}
    (hab : R a b) : Rel R (s.insert name a) (t.insert name b) := by
  obtain ⟨cs⟩ := s
  obtain ⟨ct⟩ := t
  cases h with
  | nil => exact .cons (.cons ⟨rfl, hab⟩ .nil) .nil
  | cons hscope houter => exact .cons (.cons ⟨rfl, hab⟩ hscope) houter

theorem Rel.mono {S : α → β → Prop} {s : Scopes α} {t : Scopes β} (h : Rel R s t)
    (hRS : ∀ a b, R a b → S a b) : Rel S s t :=
  List.Forall₂.imp (fun _ _ hscope => hscope.imp fun _ _ hxy => ⟨hxy.1, hRS _ _ hxy.2⟩) h

theorem forall₂_imp_of_mem {γ δ : Type} {p q : γ → δ → Prop} {xs : List γ} {ys : List δ}
    (h : List.Forall₂ p xs ys) (hpq : ∀ x, ∀ y ∈ ys, p x y → q x y) : List.Forall₂ q xs ys := by
  induction h with
  | nil => exact .nil
  | cons hxy _ ih =>
    exact .cons (hpq _ _ List.mem_cons_self hxy)
      (ih fun x y hy => hpq x y (List.mem_cons_of_mem _ hy))

/-- Only what the second chain holds has to stay related. -/
theorem Rel.mono_of_mem {S : α → β → Prop} {s : Scopes α} {t : Scopes β} (h : Rel R s t)
    (hRS : ∀ a, ∀ y ∈ t.chain.flatten, R a y.2 → S a y.2) : Rel S s t :=
  forall₂_imp_of_mem h fun _ scope hscope hxs =>
    forall₂_imp_of_mem hxs fun x y hy hxy =>
      ⟨hxy.1, hRS x.2 y (List.mem_flatten.2 ⟨scope, hscope, hy⟩) hxy.2⟩

theorem isNone_of_rel {a : Option α} {b : Option β} (h : Option.Rel R a b) :
    a.isNone = b.isNone := by
  cases h <;> rfl

/-- What a name stands for in one scope is related to what it stands for in the other. -/
theorem lookup_rel {s : List (String × α)} {t : List (String × β)}
    (h : List.Forall₂ (fun x y => x.1 = y.1 ∧ R x.2 y.2) s t) (name : String) :
    Option.Rel R (s.lookup name) (t.lookup name) := by
  induction h with
  | nil => exact .none
  | @cons x y s t hxy _ ih =>
    obtain ⟨x1, x2⟩ := x
    obtain ⟨y1, y2⟩ := y
    obtain ⟨rfl, hR⟩ : x1 = y1 ∧ R x2 y2 := hxy
    simp only [List.lookup_cons]
    cases name == x1
    · exact ih
    · exact .some hR

theorem Rel.lookup {s : Scopes α} {t : Scopes β} (h : Rel R s t) (name : String) :
    Option.Rel R (s.lookup name) (t.lookup name) := by
  obtain ⟨cs⟩ := s
  obtain ⟨ct⟩ := t
  unfold Rel at h
  dsimp only at h
  induction h with
  | nil => exact .none
  | cons hscope _ ih =>
    simp only [Scopes.lookup, List.findSome?_cons]
    have hhere := lookup_rel hscope name
    revert hhere
    generalize List.lookup name _ = a
    generalize List.lookup name _ = b
    rintro (hR | _)
    · exact .some hR
    · exact ih

theorem Rel.innermost {s : Scopes α} {t : Scopes β} (h : Rel R s t) (name : String) :
    Option.Rel R (s.innermost? name) (t.innermost? name) := by
  obtain ⟨cs⟩ := s
  obtain ⟨ct⟩ := t
  cases h with
  | nil => exact .none
  | cons hscope _ => exact lookup_rel hscope name

/-! ## Assignment -/

/-- A scope with a new meaning for the first entry of a name. -/
def updateScope (name : String) (a : α) : List (String × α) → List (String × α)
  | [] => []
  | x :: scope => if x.1 = name then (x.1, a) :: scope else x :: updateScope name a scope

/-- Scopes with a new meaning for a name in the innermost scope that has it. -/
def updateChain (name : String) (a : α) : List (List (String × α)) → List (List (String × α))
  | [] => []
  | scope :: outer =>
    if (scope.lookup name).isSome then updateScope name a scope :: outer
    else scope :: updateChain name a outer

/-- Gives a name that is visible a new meaning. -/
def update (s : Scopes α) (name : String) (a : α) : Scopes α := ⟨updateChain name a s.chain⟩

theorem mem_of_lookup {t : List (String × β)} {name : String} {k : β}
    (h : t.lookup name = some k) : k ∈ t.map Prod.snd := by
  obtain ⟨l, r, rfl, -⟩ := List.lookup_eq_some_iff.1 h
  simp

theorem mem_of_findSome? {ts : List (List (String × β))} {name : String} {k : β}
    (h : ts.findSome? (·.lookup name) = some k) : k ∈ ts.flatten.map Prod.snd := by
  obtain ⟨t, ht, hk⟩ := List.exists_of_findSome?_eq_some h
  obtain ⟨y, hy, rfl⟩ := List.mem_map.1 (mem_of_lookup hk)
  exact List.mem_map_of_mem (List.mem_flatten.2 ⟨t, ht, hy⟩)

section
variable {S : α → β → Prop} {name : String} {a : α} {k : β}
  (hS : ∀ a j, j ≠ k → R a j → S a j) (ha : S a k)
include hS ha

theorem updateScope_rel {s : List (String × α)} {t : List (String × β)}
    (h : List.Forall₂ (fun x y => x.1 = y.1 ∧ R x.2 y.2) s t) (hk : t.lookup name = some k)
    (hd : (t.map Prod.snd).Nodup) :
    List.Forall₂ (fun x y => x.1 = y.1 ∧ S x.2 y.2) (updateScope name a s) t := by
  induction h with
  | nil => cases hk
  | @cons x y s t hxy hst ih =>
    rw [List.map_cons, List.nodup_cons] at hd
    rw [List.lookup_cons] at hk
    by_cases hname : name = y.1
    · rw [hname, beq_self_eq_true] at hk
      cases hk
      rw [updateScope, if_pos (hxy.1.trans hname.symm)]
      refine .cons ⟨hxy.1, ha⟩ (forall₂_imp_of_mem hst fun x' y' hy' hxy' => ⟨hxy'.1, ?_⟩)
      exact hS _ _ (fun heq => hd.1 (heq ▸ List.mem_map_of_mem hy')) hxy'.2
    · rw [beq_false_of_ne hname] at hk
      rw [updateScope, if_neg (fun heq => hname (heq.symm.trans hxy.1))]
      refine .cons ⟨hxy.1, hS _ _ ?_ hxy.2⟩ (ih hk hd.2)
      exact fun heq => hd.1 (heq ▸ mem_of_lookup hk)

/-- If the things of the second chain are all different, a new meaning in the first chain is a change
of one pair. -/
theorem Rel.update {s : Scopes α} {t : Scopes β} (h : Rel R s t) (hk : t.lookup name = some k)
    (hd : (t.chain.flatten.map Prod.snd).Nodup) : Rel S (s.update name a) t := by
  obtain ⟨cs⟩ := s
  obtain ⟨ct⟩ := t
  unfold Rel Scopes.update Scopes.lookup at *
  dsimp only at *
  induction h with
  | nil => cases hk
  | @cons xs ys cs ct hxy hst ih =>
    rw [List.flatten_cons, List.map_append, List.nodup_append] at hd
    rw [List.findSome?_cons] at hk
    have hsome : (xs.lookup name).isSome = (ys.lookup name).isSome := by
      rw [← Option.not_isNone, ← Option.not_isNone, isNone_of_rel (lookup_rel hxy name)]
    rw [updateChain, hsome]
    cases hy : ys.lookup name with
    | some j =>
      rw [hy] at hk
      cases hk
      refine .cons (updateScope_rel hS ha hxy hy hd.1) ?_
      -- What is further out is other than `k`, which stands in this scope.
      refine (show Rel R ⟨cs⟩ ⟨ct⟩ from hst).mono_of_mem fun b y hy' hR => hS _ _ ?_ hR
      exact fun heq => hd.2.2 _ (mem_of_lookup hy) _ (List.mem_map_of_mem hy') heq.symm
    | none =>
      rw [hy] at hk
      refine .cons (forall₂_imp_of_mem hxy fun x y hy' hR => ⟨hR.1, hS _ _ ?_ hR.2⟩) (ih hk hd.2.1)
      exact fun heq => hd.2.2 _ (List.mem_map_of_mem hy') _ (mem_of_findSome? hk) heq

end

end Ilang.Scopes
