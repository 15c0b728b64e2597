import Ilang.Assembly.Frame
import Ilang.Proofs.Scopes
import Mathlib.Data.List.Nodup
/-!
# Frames over any run

What a frame is after any calls on it, balanced or not (`Frame.ran_consistent`). `Frame.ran` makes the
calls, and `Frame.Open` says, by the calls alone, at which level a name was registered in a scope
that is still open. The scopes of the frame hold just these names (`Frame.tracks`): each call changes
both in the same way.
-/
namespace Ilang

/-! ## What scopes hold, level by level -/

namespace Scopes

variable {α : Type}

/-- A scope has a name for something. The outermost scope is at level one. -/
def Has (level : Nat) (name : String) (a : α) : List (List (String × α)) → Prop
  | [] => False
  | scope :: outer => level = outer.length + 1 ∧ (name, a) ∈ scope ∨ Has level name a outer

variable {chain : List (List (String × α))} {level : Nat} {name : String} {a : α}

theorem Has.bounds (h : Has level name a chain) : 1 ≤ level ∧ level ≤ chain.length := by
  induction chain with
  | nil => exact h.elim
  | cons scope outer ih =>
    rw [List.length_cons]
    rcases h with ⟨rfl, -⟩ | h
    · omega
    · have := ih h
      omega

theorem has_push : Has level name a ([] :: chain) ↔ Has level name a chain := by
  simp [Has]

theorem has_tail : Has level name a chain.tail ↔
    Has level name a chain ∧ level ≤ chain.length - 1 := by
  cases chain with
  | nil => simp [Has]
  | cons scope outer =>
    rw [List.tail_cons, List.length_cons]
    constructor
    · intro h
      exact ⟨.inr h, h.bounds.2⟩
    · rintro ⟨⟨rfl, -⟩ | h, hle⟩
      · omega
      · exact h

theorem has_insert {s : Scopes α} {x : String} {b : α} : Has level name a (s.insert x b).chain ↔
    Has level name a s.chain ∨ level = max s.chain.length 1 ∧ name = x ∧ a = b := by
  obtain ⟨chain⟩ := s
  cases chain with
  | nil => simp [insert, Has]
  | cons scope outer =>
    have hmax : max (outer.length + 1) 1 = outer.length + 1 := by omega
    simp only [insert, Has, List.length_cons, hmax, List.mem_cons, Prod.mk.injEq]
    grind

/-- No scope has a name twice. -/
def Distinct (chain : List (List (String × α))) : Prop :=
  ∀ scope ∈ chain, (scope.map Prod.fst).Nodup

theorem lookup_iff_mem {scope : List (String × α)} (h : (scope.map Prod.fst).Nodup) :
    scope.lookup name = some a ↔ (name, a) ∈ scope := by
  induction scope with
  | nil => simp
  | cons x scope ih =>
    obtain ⟨hx, hscope⟩ := List.nodup_cons.1 h
    rw [List.lookup_cons, List.mem_cons]
    by_cases hname : name = x.1
    · subst hname
      have hout : (x.1, a) ∉ scope := fun hmem => hx (List.mem_map.2 ⟨_, hmem, rfl⟩)
      simp [hout, Prod.ext_iff, eq_comm]
    · have hne : (name, a) ≠ x := fun heq => hname (congrArg Prod.fst heq)
      simp [beq_false_of_ne hname, ih hscope, hne]

theorem innermost?_iff_has {s : Scopes α} (h : Distinct s.chain) :
    s.innermost? name = some a ↔ Has s.chain.length name a s.chain := by
  obtain ⟨chain⟩ := s
  cases chain with
  | nil => simp [innermost?, Has]
  | cons scope outer =>
    have hout : ¬ Has (outer.length + 1) name a outer := fun hhas => by
      have := hhas.bounds
      omega
    simp [innermost?, Has, hout, lookup_iff_mem (h scope List.mem_cons_self)]

/-- A name is looked up in the innermost scope that has it. -/
theorem lookup_iff_has {s : Scopes α} (h : Distinct s.chain) :
    s.lookup name = some a ↔ ∃ level, Has level name a s.chain ∧
      ∀ level' b, Has level' name b s.chain → level' ≤ level := by
  obtain ⟨chain⟩ := s
  unfold lookup
  dsimp only at h ⊢
  induction chain with
  | nil => simp [Has]
  | cons scope outer ih =>
    obtain ⟨hscope, houter⟩ := List.forall_mem_cons.1 h
    rw [List.findSome?_cons]
    cases hlookup : scope.lookup name with
    | some b =>
      -- The innermost scope has it, at a level that no other one reaches.
      have hmem := (lookup_iff_mem hscope).1 hlookup
      constructor
      · rintro ⟨⟩
        exact ⟨outer.length + 1, .inl ⟨rfl, hmem⟩, fun level' b h' => h'.bounds.2⟩
      · rintro ⟨level, hhas, hmax⟩
        have htop := hmax _ b (.inl ⟨rfl, hmem⟩)
        rcases hhas with ⟨-, ha⟩ | hhas
        · rw [(lookup_iff_mem hscope).2 ha] at hlookup
          exact hlookup.symm
        · have := hhas.bounds
          omega
    | none =>
      have hnot : ∀ b, (name, b) ∉ scope := fun b hmem => by
        rw [(lookup_iff_mem hscope).2 hmem] at hlookup
        cases hlookup
      simp [Has, hnot, ih houter]

theorem lookup_eq_none_iff_has {s : Scopes α} (h : Distinct s.chain) :
    s.lookup name = none ↔ ¬ ∃ level a, Has level name a s.chain := by
  obtain ⟨chain⟩ := s
  unfold lookup
  dsimp only at h ⊢
  induction chain with
  | nil => simp [Has]
  | cons scope outer ih =>
    obtain ⟨hscope, houter⟩ := List.forall_mem_cons.1 h
    rw [List.findSome?_cons]
    cases hlookup : scope.lookup name with
    | some b =>
      have hmem := (lookup_iff_mem hscope).1 hlookup
      exact iff_of_false (by simp) (not_not_intro ⟨_, b, .inl ⟨rfl, hmem⟩⟩)
    | none =>
      have hnot : ∀ b, (name, b) ∉ scope := fun b hmem => by
        rw [(lookup_iff_mem hscope).2 hmem] at hlookup
        cases hlookup
      simp [Has, hnot, ih houter]

theorem Distinct.insert {s : Scopes α} (h : Distinct s.chain) (hnew : s.innermost? name = none)
    (a : α) : Distinct (s.insert name a).chain := by
  obtain ⟨chain⟩ := s
  cases chain with
  | nil => simp [Scopes.insert, Distinct]
  | cons scope outer =>
    obtain ⟨hscope, houter⟩ := List.forall_mem_cons.1 h
    refine List.forall_mem_cons.2 ⟨List.nodup_cons.2 ⟨fun hmem => ?_, hscope⟩, houter⟩
    obtain ⟨⟨x, b⟩, hx, rfl⟩ := List.mem_map.1 hmem
    have hlookup : scope.lookup x = none := hnew
    rw [(lookup_iff_mem hscope).2 hx] at hlookup
    cases hlookup

end Scopes

/-! ## Runs -/

namespace Frame

/-- A call on a frame. -/
inductive Operation where
  | enter
  | leave
  | register (name : String) (ty : Ty) (location : Location)
  | resolve (name : String) (location : Location)
  | pushLoop (endLabel : String)
  | popLoop
deriving DecidableEq, Repr

/-- The frame that a call leaves behind. -/
def after (f : Frame) : Operation → Frame
  | .enter => f.enter
  | .leave => f.leave
  | .register name ty location => (f.register name ty location).2
  | .resolve .. => f
  | .pushLoop endLabel => f.pushLoop endLabel
  | .popLoop => f.popLoop

/-- A new frame after some calls, of which the last one stands first. -/
def ran (function : String) : List Operation → Frame
  | [] => { function }
  | op :: earlier => (ran function earlier).after op

/-- How many scopes are open after some calls. What is registered in no scope opens one. -/
def depth : List Operation → Nat
  | [] => 0
  | .enter :: earlier => depth earlier + 1
  | .leave :: earlier => depth earlier - 1
  | .register .. :: earlier => max (depth earlier) 1
  | _ :: earlier => depth earlier

/-- The names that were registered and their types, in order. -/
def registered (function : String) : List Operation → List (String × Ty)
  | [] => []
  | .register name ty location :: earlier =>
    match ((ran function earlier).register name ty location).1 with
    | .ok _ => registered function earlier ++ [(name, ty)]
    | .error _ => registered function earlier
  | _ :: earlier => registered function earlier

/-- A name was registered as variable `i` in the scope at a level, and this scope has been open ever
since. -/
inductive Open (function : String) : List Operation → String → (level i : Nat) → Prop
  | added {earlier : List Operation} {name : String} {ty : Ty} {location : Location} {i : Nat}
      (h : ((ran function earlier).register name ty location).1 = .ok i) :
    Open function (.register name ty location :: earlier) name (max (depth earlier) 1) i
  | still {earlier : List Operation} {name : String} {level i : Nat} {op : Operation}
      (h : Open function earlier name level i) (hlevel : level ≤ depth (op :: earlier)) :
    Open function (op :: earlier) name level i

/-- The variable that a name gets. -/
def varOf (name : String) (ty : Ty) (i : Nat) : FrameVar :=
  ⟨name, ty, -(8 * (i + 1) : Nat), name ++ "#" ++ toString i⟩

section
variable (f : Frame) {name : String} (ty : Ty) (location : Location)

theorem register_of_innermost {k : Nat} (h : f.scopes.innermost? name = some k) :
    f.register name ty location = (.error (.redefinedLocal name location), f) := by
  simp only [register, Scopes.declare_eq, h]

theorem register_of_new (h : f.scopes.innermost? name = none) :
    f.register name ty location = (.ok f.vars.size,
      { f with
        vars := f.vars.push ⟨name, ty, -(f.size + slotSize : Nat),
          name ++ "#" ++ toString f.vars.size⟩
        scopes := f.scopes.insert name f.vars.size
        size := f.size + slotSize }) := by
  simp only [register, Scopes.declare_eq, h]

end

/-! ## Sizes -/

/-- A call counts bytes just as it adds variables. -/
theorem size_after {f : Frame} (h : f.size = slotSize * f.vars.size) (op : Operation) :
    (f.after op).size = slotSize * (f.after op).vars.size := by
  cases op with
  | register name ty location =>
    cases hinner : f.scopes.innermost? name with
    | some k => simpa only [after, register_of_innermost f ty location hinner] using h
    | none => simp only [after, register_of_new f ty location hinner, Array.size_push, h, Nat.mul_succ]
  | enter | leave | resolve | pushLoop | popLoop => exact h

/-- The bytes that were counted are those of the variables, whatever the calls were. -/
theorem size_ran (function : String) (calls : List Operation) :
    (ran function calls).size = slotSize * (ran function calls).vars.size := by
  induction calls with
  | nil => rfl
  | cons op calls ih => exact size_after ih op

/-! ## Scopes -/

section
variable {function : String} {calls : List Operation} {op : Operation} {name : String}
  {level i : Nat}

theorem Open.level_le (h : Open function calls name level i) : level ≤ depth calls := by
  cases h with
  | added => exact Nat.le_refl _
  | still _ hlevel => exact hlevel

/-- Names are added by registration only, and stay until their scope is closed. -/
theorem open_cons_iff : Open function (op :: calls) name level i ↔
    Open function calls name level i ∧ level ≤ depth (op :: calls) ∨
    ∃ ty location, op = .register name ty location ∧
      ((ran function calls).register name ty location).1 = .ok i ∧
      level = max (depth calls) 1 := by
  constructor
  · intro h
    cases h with
    | added h => exact .inr ⟨_, _, rfl, h, rfl⟩
    | still h hlevel => exact .inl ⟨h, hlevel⟩
  · rintro (⟨h, hlevel⟩ | ⟨ty, location, rfl, h, rfl⟩)
    · exact .still h hlevel
    · exact .added h

theorem open_cons_of_le (hop : ∀ name ty location, op ≠ .register name ty location)
    (hdepth : depth calls ≤ depth (op :: calls)) :
    Open function (op :: calls) name level i ↔ Open function calls name level i := by
  rw [open_cons_iff]
  constructor
  · rintro (⟨h, -⟩ | ⟨ty, location, heq, -⟩)
    · exact h
    · exact absurd heq (hop name ty location)
  · intro h
    exact .inl ⟨h, Nat.le_trans h.level_le hdepth⟩

end

/-- The scopes of a frame hold the names that are still open, each once. -/
structure Tracks (function : String) (calls : List Operation) : Prop where
  length : (ran function calls).scopes.chain.length = depth calls
  distinct : Scopes.Distinct (ran function calls).scopes.chain
  has : ∀ name level i, Scopes.Has level name i (ran function calls).scopes.chain ↔
    Open function calls name level i

section
variable {function : String} {calls : List Operation}

theorem Tracks.innermost? (h : Tracks function calls) {name : String} {i : Nat} :
    (ran function calls).scopes.innermost? name = some i ↔
      Open function calls name (depth calls) i := by
  rw [Scopes.innermost?_iff_has h.distinct, h.length]
  exact h.has _ _ _

theorem Tracks.enter (h : Tracks function calls) : Tracks function (.enter :: calls) where
  length := congrArg (· + 1) h.length
  distinct := List.forall_mem_cons.2 ⟨List.nodup_nil, h.distinct⟩
  has name level i := by
    rw [open_cons_of_le (by simp) (Nat.le_succ _), ← h.has]
    exact Scopes.has_push

theorem Tracks.leave (h : Tracks function calls) : Tracks function (.leave :: calls) where
  length := by
    have hlength : (ran function calls).scopes.chain.tail.length = depth calls - 1 := by
      rw [List.length_tail, h.length]
    exact hlength
  distinct := fun scope hscope => h.distinct scope (List.mem_of_mem_tail hscope)
  has name level i := by
    have htail : Scopes.Has level name i (ran function calls).scopes.chain.tail ↔ _ :=
      Scopes.has_tail
    rw [h.length, h.has] at htail
    rw [open_cons_iff]
    refine htail.trans ⟨.inl, ?_⟩
    rintro (hopen | ⟨_, _, heq, -⟩)
    · exact hopen
    · cases heq

/-- A call that leaves the scopes alone. -/
theorem Tracks.keep (h : Tracks function calls) {op : Operation}
    (hop : ∀ name ty location, op ≠ .register name ty location)
    (hscopes : (ran function (op :: calls)).scopes = (ran function calls).scopes)
    (hdepth : depth (op :: calls) = depth calls) : Tracks function (op :: calls) where
  length := by rw [hscopes, hdepth, h.length]
  distinct := hscopes ▸ h.distinct
  has name level i := by
    rw [open_cons_of_le hop (Nat.le_of_eq hdepth.symm), ← h.has, hscopes]

theorem ran_of_innermost {name : String} {ty : Ty} {location : Location} {k : Nat}
    (h : (ran function calls).scopes.innermost? name = some k) :
    ran function (.register name ty location :: calls) = ran function calls := by
  simp only [ran, after, register_of_innermost _ ty location h]

theorem ran_of_new {name : String} {ty : Ty} {location : Location}
    (h : (ran function calls).scopes.innermost? name = none) :
    ran function (.register name ty location :: calls) =
      { ran function calls with
        vars := (ran function calls).vars.push (varOf name ty (ran function calls).vars.size)
        scopes := (ran function calls).scopes.insert name (ran function calls).vars.size
        size := (ran function calls).size + slotSize } := by
  simp only [ran, after, register_of_new _ ty location h, varOf, size_ran, slotSize, Nat.mul_succ]

theorem Tracks.register (h : Tracks function calls) (name : String) (ty : Ty)
    (location : Location) : Tracks function (.register name ty location :: calls) := by
  cases hinner : (ran function calls).scopes.innermost? name with
  | some k =>
    -- The innermost scope has the name, so there is one.
    have hfail := register_of_innermost _ ty location hinner
    have hdepth : depth (.register name ty location :: calls) = depth calls := by
      have := ((h.has _ _ _).2 (h.innermost?.1 hinner)).bounds
      simp only [depth]
      omega
    refine ⟨?_, ?_, fun x level i => ?_⟩
    · rw [ran_of_innermost hinner, hdepth, h.length]
    · rw [ran_of_innermost hinner]
      exact h.distinct
    · rw [ran_of_innermost hinner, open_cons_iff, h.has, hdepth]
      constructor
      · intro hopen
        exact .inl ⟨hopen, hopen.level_le⟩
      · rintro (⟨hopen, -⟩ | ⟨ty', location', heq, hok, -⟩)
        · exact hopen
        · cases heq
          rw [hfail] at hok
          cases hok
  | none =>
    have hok := register_of_new _ ty location hinner
    have hscopes : (ran function (.register name ty location :: calls)).scopes = _ :=
      congrArg Frame.scopes (ran_of_new hinner)
    refine ⟨?_, ?_, fun x level i => ?_⟩
    · rw [hscopes, depth, ← h.length]
      unfold Scopes.insert
      cases (ran function calls).scopes.chain <;> simp
    · rw [hscopes]
      exact h.distinct.insert hinner _
    · rw [hscopes, Scopes.has_insert, h.has, h.length, open_cons_iff]
      constructor
      · rintro (hopen | ⟨rfl, rfl, rfl⟩)
        · exact .inl ⟨hopen, Nat.le_trans hopen.level_le (Nat.le_max_left _ _)⟩
        · exact .inr ⟨ty, location, rfl, congrArg Prod.fst hok, rfl⟩
      · rintro (⟨hopen, -⟩ | ⟨ty', location', heq, hreg, rfl⟩)
        · exact .inl hopen
        · cases heq
          rw [hok] at hreg
          cases hreg
          exact .inr ⟨rfl, rfl, rfl⟩

end

/-- The scopes of a frame hold the names that are open, whatever the calls were. -/
theorem tracks (function : String) (calls : List Operation) : Tracks function calls := by
  induction calls with
  | nil =>
    refine ⟨rfl, by simp [Scopes.Distinct, ran, Scopes.empty], fun name level i => ?_⟩
    exact iff_of_false id fun h => by cases h
  | cons op calls ih =>
    cases op with
    | enter => exact ih.enter
    | leave => exact ih.leave
    | register name ty location => exact ih.register name ty location
    | resolve | pushLoop | popLoop => exact ih.keep (by simp) rfl rfl

/-! ## Variables -/

section
variable {function : String} {calls : List Operation} {name : String} {ty : Ty}
  {location : Location}

theorem registered_of_innermost {k : Nat}
    (h : (ran function calls).scopes.innermost? name = some k) :
    registered function (.register name ty location :: calls) = registered function calls := by
  simp only [registered, register_of_innermost _ ty location h]

theorem registered_of_new (h : (ran function calls).scopes.innermost? name = none) :
    registered function (.register name ty location :: calls) =
      registered function calls ++ [(name, ty)] := by
  simp only [registered, register_of_new _ ty location h]

end

/-- The variables of a frame are what was registered, numbered in order. -/
theorem vars_ran (function : String) (calls : List Operation) :
    (ran function calls).vars.toList =
      (registered function calls).zipIdx.map fun x => varOf x.1.1 x.1.2 x.2 := by
  induction calls with
  | nil => rfl
  | cons op calls ih =>
    cases op with
    | register name ty location =>
      cases hinner : (ran function calls).scopes.innermost? name with
      | some k => rw [ran_of_innermost hinner, registered_of_innermost hinner, ih]
      | none =>
        have hsize : (ran function calls).vars.size = (registered function calls).length := by
          rw [← Array.length_toList, ih, List.length_map, List.length_zipIdx]
        rw [ran_of_new hinner, registered_of_new hinner, List.zipIdx_append, List.map_append, ← ih,
          Array.toList_push, hsize]
        simp
    | enter | leave | resolve | pushLoop | popLoop => exact ih

theorem size_vars_ran (function : String) (calls : List Operation) :
    (ran function calls).vars.size = (registered function calls).length := by
  rw [← Array.length_toList, vars_ran, List.length_map, List.length_zipIdx]

/-- Later calls only register more. -/
theorem registered_prefix (function : String) (later calls : List Operation) :
    registered function calls <+: registered function (later ++ calls) := by
  induction later with
  | nil => exact List.prefix_rfl
  | cons op later ih =>
    rw [List.cons_append]
    cases op with
    | register name ty location =>
      cases hinner : (ran function (later ++ calls)).scopes.innermost? name with
      | some k => rwa [registered_of_innermost hinner]
      | none =>
        rw [registered_of_new hinner]
        exact List.IsPrefix.trans ih (List.prefix_append _ _)
    | enter | leave | resolve | pushLoop | popLoop => exact ih

theorem vars_prefix (function : String) (later calls : List Operation) :
    (ran function calls).vars.toList <+: (ran function (later ++ calls)).vars.toList := by
  rw [vars_ran, vars_ran]
  obtain ⟨more, hmore⟩ := registered_prefix function later calls
  rw [← hmore, List.zipIdx_append, List.map_append]
  exact List.prefix_append _ _

/-- The number behind the last `#` of a name. -/
def numberOf (uniqueName : String) : Nat :=
  Nat.ofDigitChars 10 (uniqueName.toList.reverse.takeWhile (· ≠ '#')).reverse 0

/-- Whatever the name of a variable is, its number can be read from its unique name. -/
theorem numberOf_varOf (name : String) (ty : Ty) (i : Nat) :
    numberOf (varOf name ty i).uniqueName = i := by
  have hdigits : ∀ c ∈ (Nat.toDigits 10 i).reverse, decide (c ≠ '#') = true := by
    intro c hc
    have hdigit := Nat.isDigit_of_mem_toDigits (by decide) (by decide) (List.mem_reverse.1 hc)
    rw [decide_eq_true_iff]
    rintro rfl
    exact absurd hdigit (by decide)
  have hchars : (varOf name ty i).uniqueName.toList.reverse =
      (Nat.toDigits 10 i).reverse ++ '#' :: name.toList.reverse := by
    simp [varOf]
  rw [numberOf, hchars, List.takeWhile_append_of_pos hdigits, List.takeWhile_cons_of_neg (by simp),
    List.append_nil, List.reverse_reverse, Nat.ofDigitChars_ten_toDigits]

theorem nodup_uniqueNames (function : String) (calls : List Operation) :
    ((ran function calls).vars.toList.map FrameVar.uniqueName).Nodup := by
  refine List.Nodup.of_map numberOf ?_
  have hnumbers : ((ran function calls).vars.toList.map FrameVar.uniqueName).map numberOf =
      (registered function calls).zipIdx.map Prod.snd := by
    rw [vars_ran, List.map_map, List.map_map]
    exact List.map_congr_left fun x _ => numberOf_varOf x.1.1 x.1.2 x.2
  rw [hnumbers, List.zipIdx_map_snd]
  exact List.nodup_range'

theorem nodup_offsets (function : String) (calls : List Operation) :
    ((ran function calls).vars.toList.map FrameVar.offset).Nodup := by
  have hoffsets : (ran function calls).vars.toList.map FrameVar.offset =
      ((registered function calls).zipIdx.map Prod.snd).map
        fun i => -((8 * (i + 1) : Nat) : Int) := by
    rw [vars_ran, List.map_map, List.map_map]
    rfl
  rw [hoffsets, List.zipIdx_map_snd]
  refine List.Nodup.map (fun i j h => ?_) List.nodup_range'
  omega

/-- What is open is a variable of that name. -/
theorem Open.var {function : String} {calls : List Operation} {name : String} {level i : Nat}
    (h : Open function calls name level i) :
    ∃ ty, (registered function calls)[i]? = some (name, ty) := by
  induction h with
  | @added earlier name ty location i h =>
    refine ⟨ty, ?_⟩
    cases hinner : (ran function earlier).scopes.innermost? name with
    | some k =>
      rw [register_of_innermost _ ty location hinner] at h
      cases h
    | none =>
      rw [register_of_new _ ty location hinner] at h
      cases h
      rw [registered_of_new hinner, size_vars_ran, List.getElem?_concat_length]
  | @still earlier name level i op _ _ ih =>
    obtain ⟨ty, hty⟩ := ih
    obtain ⟨more, hmore⟩ := registered_prefix function [op] earlier
    refine ⟨ty, ?_⟩
    rw [List.singleton_append] at hmore
    rw [← hmore, List.getElem?_append_left (List.getElem?_eq_some_iff.1 hty).1, hty]

/-! ## The result -/

/-- The table and the scopes of a frame fit the calls that were made on it. -/
structure Consistent (function : String) (calls : List Operation) : Prop where
  /-- Variable `i` is the one that was registered as number `i`. -/
  vars : (ran function calls).vars.toList = (registered function calls).zipIdx.map fun x =>
    ⟨x.1.1, x.1.2, -(8 * (x.2 + 1) : Nat), x.1.1 ++ "#" ++ toString x.2⟩
  size : (ran function calls).size = 8 * (registered function calls).length
  uniqueNames : ((ran function calls).vars.toList.map FrameVar.uniqueName).Nodup
  offsets : ((ran function calls).vars.toList.map FrameVar.offset).Nodup
  /-- Later calls change no variable and take none away. -/
  grows : ∀ later, (ran function calls).vars.toList <+: (ran function (later ++ calls)).vars.toList ∧
    (ran function calls).size ≤ (ran function (later ++ calls)).size
  scopes : (ran function calls).scopes.chain.length = depth calls
  /-- A name means the variable that was registered for it in the innermost open scope. -/
  resolves : ∀ name location i, (ran function calls).resolve name location = .ok i ↔
    ∃ level, Open function calls name level i ∧
      ∀ level' i', Open function calls name level' i' → level' ≤ level
  resolved : ∀ name location i, (ran function calls).resolve name location = .ok i →
    ∃ v, (ran function calls).vars[i]? = some v ∧ v.name = name
  unresolved : ∀ name location e, (ran function calls).resolve name location = .error e ↔
    e = .unresolvedLocal name location ∧ ¬ ∃ level i, Open function calls name level i
  /-- What is registered gets the next number. -/
  registers : ∀ name ty location i f,
    (ran function calls).register name ty location = (.ok i, f) →
      i = (registered function calls).length ∧
      f = ran function (.register name ty location :: calls) ∧
      registered function (.register name ty location :: calls) =
        registered function calls ++ [(name, ty)]
  /-- Only a name that the innermost open scope has cannot be registered. -/
  refuses : ∀ name ty location e, ((ran function calls).register name ty location).1 = .error e ↔
    e = .redefinedLocal name location ∧ ∃ i, Open function calls name (depth calls) i
  unchanged : ∀ name ty location e f,
    (ran function calls).register name ty location = (.error e, f) → f = ran function calls

section
variable {function : String} {calls : List Operation} {name : String} {ty : Ty}
  {location : Location}

theorem resolve_eq_ok_iff {f : Frame} {i : Nat} :
    f.resolve name location = .ok i ↔ f.scopes.lookup name = some i := by
  unfold resolve
  cases f.scopes.lookup name <;> simp

theorem resolve_eq_error_iff {f : Frame} {e : GenError} :
    f.resolve name location = .error e ↔
      e = .unresolvedLocal name location ∧ f.scopes.lookup name = none := by
  unfold resolve
  cases f.scopes.lookup name <;> simp [eq_comm]

theorem resolve_iff_open {i : Nat} : (ran function calls).resolve name location = .ok i ↔
    ∃ level, Open function calls name level i ∧
      ∀ level' i', Open function calls name level' i' → level' ≤ level := by
  have h := tracks function calls
  rw [resolve_eq_ok_iff, Scopes.lookup_iff_has h.distinct]
  simp only [h.has]

theorem register_eq_ok_iff {f g : Frame} {i : Nat} :
    f.register name ty location = (.ok i, g) ↔ f.scopes.innermost? name = none ∧
      i = f.vars.size ∧ g = f.after (.register name ty location) := by
  cases hinner : f.scopes.innermost? name with
  | some k => simp [register_of_innermost f ty location hinner]
  | none => simp [after, register_of_new f ty location hinner, eq_comm]

theorem register_eq_error_iff {f : Frame} {e : GenError} :
    (f.register name ty location).1 = .error e ↔
      e = .redefinedLocal name location ∧ (f.scopes.innermost? name).isSome := by
  cases hinner : f.scopes.innermost? name with
  | some k => simp [register_of_innermost f ty location hinner, eq_comm]
  | none => simp [register_of_new f ty location hinner]

end

/-- A new frame keeps its table and its scopes consistent, whatever is called on it and in whichever
order: scopes that are closed more often than opened, names registered twice or in no scope. -/
theorem ran_consistent (function : String) (calls : List Operation) : Consistent function calls where
  vars := vars_ran function calls
  size := by rw [size_ran, size_vars_ran, slotSize]
  uniqueNames := nodup_uniqueNames function calls
  offsets := nodup_offsets function calls
  grows later := by
    have hvars := vars_prefix function later calls
    rw [size_ran, size_ran]
    exact ⟨hvars, Nat.mul_le_mul_left slotSize hvars.length_le⟩
  scopes := (tracks function calls).length
  resolves name location i := resolve_iff_open
  resolved name location i h := by
    obtain ⟨level, hopen, -⟩ := resolve_iff_open.1 h
    obtain ⟨ty, hvar⟩ := hopen.var
    refine ⟨varOf name ty i, ?_, rfl⟩
    rw [← Array.getElem?_toList, vars_ran, List.getElem?_map, List.getElem?_zipIdx, hvar]
    simp
  unresolved name location e := by
    have h := tracks function calls
    rw [resolve_eq_error_iff, Scopes.lookup_eq_none_iff_has h.distinct]
    simp only [h.has]
  registers name ty location i f h := by
    obtain ⟨hinner, rfl, rfl⟩ := register_eq_ok_iff.1 h
    exact ⟨size_vars_ran function calls, rfl, registered_of_new hinner⟩
  refuses name ty location e := by
    rw [register_eq_error_iff, Option.isSome_iff_exists]
    simp only [(tracks function calls).innermost?]
  unchanged name ty location e f h := by
    obtain ⟨-, hinner⟩ := register_eq_error_iff.1 (congrArg Prod.fst h)
    obtain ⟨k, hk⟩ := Option.isSome_iff_exists.1 hinner
    rw [register_of_innermost _ ty location hk] at h
    exact (congrArg Prod.snd h).symm

end Frame

end Ilang
