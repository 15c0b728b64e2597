import Ilang.Analysis
import Ilang.Assembly.Placement
/-!
# What the passes leave alone

Each pass over a tree makes notes of one kind and changes nothing else: name resolution writes the
declarations of names, type resolution the types of nodes, placement the variables of names and the
labels of strings. `Expr.strip` takes notes away, `Keep` says which. A tree without the notes of a
pass is the same before that pass and behind it (`Expr.strip_resolveNames`,
`Expr.strip_resolveTypes`, `Expr.strip_place`).

`Inside` is the relation of a node to a tree that it stands in, and `Everywhere` says that all nodes
of a tree have a property. A property that does not depend on notes holds everywhere in a tree if and
only if it does in the stripped tree (`Expr.everywhere_strip`).
-/
namespace Ilang

/-! ## The nodes of a tree -/

namespace Expr

/-- The expressions directly below an expression. -/
def children : Expr → List Expr
  | literal .. | var .. | brk .. => []
  | call _ _ arguments => arguments
  | block _ body result => body ++ result.toList
  | bind _ _ _ value | assign _ _ value | unary _ _ value | group _ value | ret _ value => [value]
  | binary _ _ left right => [left, right]
  | branch _ condition onTrue onFalse => condition :: onTrue :: onFalse.toList
  | loop _ condition body => [condition, body]

/-- An expression is another one or stands somewhere in it. -/
inductive Inside (x : Expr) : Expr → Prop
  | here : Inside x x
  | child {c e : Expr} (hc : c ∈ e.children) (h : Inside x c) : Inside x e

/-- All nodes of a tree have a property. -/
def Everywhere (q : Expr → Prop) (e : Expr) : Prop := ∀ x, x.Inside e → q x

theorem everywhere_iff {q : Expr → Prop} {e : Expr} :
    e.Everywhere q ↔ q e ∧ ∀ c ∈ e.children, c.Everywhere q := by
  constructor
  · intro h
    exact ⟨h e .here, fun c hc x hx => h x (.child hc hx)⟩
  · rintro ⟨he, hcs⟩ x hx
    cases hx with
    | here => exact he
    | child hc h => exact hcs _ hc x h

theorem sizeOf_lt_of_mem_children {c e : Expr} (h : c ∈ e.children) : sizeOf c < sizeOf e := by
  cases e with
  | literal | var | brk => cases h
  | call n callee arguments =>
    have := List.sizeOf_lt_of_mem (show c ∈ arguments from h)
    simp only [call.sizeOf_spec]
    omega
  | block n body result =>
    simp only [block.sizeOf_spec]
    rcases List.mem_append.1 h with h | h
    · have := List.sizeOf_lt_of_mem h
      omega
    · obtain rfl := Option.mem_toList.1 h
      simp only [Option.some.sizeOf_spec]
      omega
  | branch n condition onTrue onFalse =>
    simp only [branch.sizeOf_spec]
    rcases List.mem_cons.1 h with rfl | h
    · omega
    rcases List.mem_cons.1 h with rfl | h
    · omega
    · obtain rfl := Option.mem_toList.1 h
      simp only [Option.some.sizeOf_spec]
      omega
  | bind | assign | unary | group | ret =>
    obtain rfl := List.mem_singleton.1 h
    simp +arith
  | binary | loop =>
    simp only [children, List.mem_cons, List.not_mem_nil, or_false] at h
    rcases h with rfl | rfl <;> simp +arith

/-- What holds of a node when it holds of its children holds of every tree. -/
theorem induction_children {q : Expr → Prop} (h : ∀ e : Expr, (∀ c ∈ e.children, q c) → q e)
    (e : Expr) : q e :=
  h e fun c hc =>
    have := sizeOf_lt_of_mem_children hc
    induction_children h c
termination_by sizeOf e

end Expr

/-! ## Trees without notes -/

/-- Which of the notes of the passes are kept. -/
structure Keep where
  bindings : Bool
  types : Bool
  places : Bool

namespace Keep

/-- What is kept of a name. -/
def ident (k : Keep) (i : Ident) : Ident :=
  { i with
    binding := if k.bindings then i.binding else none
    slot := if k.places then i.slot else none }

/-- What is kept of a node. -/
def node (k : Keep) (n : Node) : Node := if k.types then n else { n with ty := .undefined }

/-- What is kept of the label of a string. -/
def label (k : Keep) (constant : Option String) : Option String :=
  if k.places then constant else none

/-- All but the notes of name resolution. -/
def allButBindings : Keep := ⟨false, true, true⟩

/-- All but the notes of type resolution. -/
def allButTypes : Keep := ⟨true, false, true⟩

/-- All but the notes of placement. -/
def allButPlaces : Keep := ⟨true, true, false⟩

/-- The notes of placement alone. -/
def onlyPlaces : Keep := ⟨false, false, true⟩

/-- The notes of type resolution alone. -/
def onlyTypes : Keep := ⟨false, true, false⟩

/-- No notes at all. -/
def nothing : Keep := ⟨false, false, false⟩

/-- The notes that are kept two times. -/
def both (k k' : Keep) : Keep :=
  ⟨k.bindings && k'.bindings, k.types && k'.types, k.places && k'.places⟩

theorem both_nothing (k : Keep) : k.both nothing = nothing := by
  simp [both, nothing]

end Keep

mutual

/-- An expression with only some of its notes. -/
def Expr.strip (k : Keep) : Expr → Expr
  | .literal n text constant => .literal (k.node n) text (k.label constant)
  | .var n ident => .var (k.node n) (k.ident ident)
  | .call n callee arguments => .call (k.node n) (k.ident callee) (stripAll k arguments)
  | .block n body result => .block (k.node n) (stripAll k body) (stripOpt k result)
  | .bind n ident type value => .bind (k.node n) (k.ident ident) type (value.strip k)
  | .assign n target value => .assign (k.node n) (k.ident target) (value.strip k)
  | .binary n op left right => .binary (k.node n) op (left.strip k) (right.strip k)
  | .unary n op operand => .unary (k.node n) op (operand.strip k)
  | .group n inner => .group (k.node n) (inner.strip k)
  | .branch n condition onTrue onFalse =>
    .branch (k.node n) (condition.strip k) (onTrue.strip k) (stripOpt k onFalse)
  | .ret n value => .ret (k.node n) (value.strip k)
  | .loop n condition body => .loop (k.node n) (condition.strip k) (body.strip k)
  | .brk n => .brk (k.node n)

/-- Expressions with only some of their notes. -/
def stripAll (k : Keep) : List Expr → List Expr
  | [] => []
  | e :: es => e.strip k :: stripAll k es

/-- An expression that may be missing, with only some of its notes. -/
def stripOpt (k : Keep) : Option Expr → Option Expr
  | none => none
  | some e => some (e.strip k)

end

theorem stripAll_eq_map (k : Keep) (es : List Expr) : stripAll k es = es.map (Expr.strip k) := by
  induction es with
  | nil => rfl
  | cons e es ih => simp [stripAll, ih]

theorem stripOpt_eq_map (k : Keep) (e : Option Expr) : stripOpt k e = e.map (Expr.strip k) := by
  cases e <;> rfl

/-- An expression without any notes. -/
abbrev Expr.bare (e : Expr) : Expr := e.strip .nothing

theorem Keep.ident_both (k k' : Keep) (i : Ident) : k'.ident (k.ident i) = (k.both k').ident i := by
  obtain ⟨_ | _, _, _ | _⟩ := k <;> obtain ⟨_ | _, _, _ | _⟩ := k' <;> rfl

theorem Keep.node_both (k k' : Keep) (n : Node) : k'.node (k.node n) = (k.both k').node n := by
  obtain ⟨_, _ | _, _⟩ := k <;> obtain ⟨_, _ | _, _⟩ := k' <;> rfl

theorem Keep.location_node (k : Keep) (n : Node) : (k.node n).location = n.location := by
  unfold Keep.node
  split <;> rfl

theorem Keep.label_both (k k' : Keep) (constant : Option String) :
    k'.label (k.label constant) = (k.both k').label constant := by
  obtain ⟨_, _, _ | _⟩ := k <;> obtain ⟨_, _, _ | _⟩ := k' <;> rfl

mutual

/-- Of notes that are taken away twice, those are left that are kept both times. -/
theorem Expr.strip_strip (k k' : Keep) (e : Expr) : (e.strip k).strip k' = e.strip (k.both k') := by
  cases e <;>
    simp [Expr.strip, Keep.ident_both, Keep.node_both, Keep.label_both, Expr.strip_strip,
      stripAll_stripAll, stripOpt_stripOpt]

theorem stripAll_stripAll (k k' : Keep) (es : List Expr) :
    stripAll k' (stripAll k es) = stripAll (k.both k') es := by
  cases es <;> simp [stripAll, Expr.strip_strip, stripAll_stripAll]

theorem stripOpt_stripOpt (k k' : Keep) (e : Option Expr) :
    stripOpt k' (stripOpt k e) = stripOpt (k.both k') e := by
  cases e <;> simp [stripOpt, Expr.strip_strip]

end

theorem Expr.children_strip (k : Keep) (e : Expr) :
    (e.strip k).children = e.children.map (Expr.strip k) := by
  cases e <;> simp [strip, children, stripAll_eq_map, stripOpt_eq_map, Option.toList_map]

/-- A property that does not depend on some notes holds everywhere in a tree if and only if it holds
everywhere in the tree without these notes. -/
theorem Expr.everywhere_strip {k : Keep} {q : Expr → Prop} (hq : ∀ x : Expr, q (x.strip k) ↔ q x)
    (e : Expr) : (e.strip k).Everywhere q ↔ e.Everywhere q := by
  constructor
  · intro h x hx
    refine (hq x).1 (h _ ?_)
    clear h
    induction hx with
    | here => exact .here
    | child hc _ ih => exact .child (children_strip k _ ▸ List.mem_map_of_mem hc) ih
  · intro h y hy
    generalize hz : e.strip k = z at hy
    induction hy generalizing e with
    | here => exact hz ▸ (hq e).2 (h e .here)
    | child hc _ ih =>
      rw [← hz, children_strip] at hc
      obtain ⟨c, hc', rfl⟩ := List.mem_map.1 hc
      exact ih c (fun x hx => h x (.child hc' hx)) rfl

/-! ## The passes -/

theorem Names.strip_declare (s : Names) (i : Ident) (kind : DeclKind) (ty : Ty)
    (signature : Option Signature) : Keep.allButBindings.ident (s.declare i kind ty signature).value =
      Keep.allButBindings.ident i := by
  unfold Names.declare
  dsimp only
  split <;> rfl

theorem Names.strip_refer (s : Names) (i : Ident) :
    Keep.allButBindings.ident (s.refer i).value = Keep.allButBindings.ident i := rfl

mutual

/-- Name resolution writes bindings only. -/
theorem Expr.strip_resolveNames (s : Names) (e : Expr) :
    (e.resolveNames s).value.strip .allButBindings = e.strip .allButBindings := by
  cases e <;>
    simp [Expr.resolveNames, Expr.strip, Names.strip_declare, Names.strip_refer,
      Expr.strip_resolveNames, stripAll_resolveNames, stripOpt_resolveNames]

theorem stripAll_resolveNames (s : Names) (es : List Expr) :
    stripAll .allButBindings (resolveNamesAll s es).value = stripAll .allButBindings es := by
  cases es <;>
    simp [resolveNamesAll, stripAll, Expr.strip_resolveNames, stripAll_resolveNames]

theorem stripOpt_resolveNames (s : Names) (e : Option Expr) :
    stripOpt .allButBindings (resolveNamesOpt s e).value = stripOpt .allButBindings e := by
  cases e <;> simp [resolveNamesOpt, stripOpt, Expr.strip_resolveNames]

end

theorem Keep.node_with_ty (n : Node) (t : Ty) :
    Keep.allButTypes.node { n with ty := t } = Keep.allButTypes.node n := rfl

mutual

/-- Type resolution writes types only. -/
theorem Expr.strip_resolveTypes (table : DeclTable) (e : Expr) :
    (e.resolveTypes table).value.strip .allButTypes = e.strip .allButTypes := by
  cases e with
  | literal n text constant =>
    simp only [Expr.resolveTypes]
    split <;> rfl
  | _ =>
    simp [Expr.resolveTypes, Expr.strip, Keep.node_with_ty, Expr.strip_resolveTypes,
      stripAll_resolveTypes, stripOpt_resolveTypes]

theorem stripAll_resolveTypes (table : DeclTable) (es : List Expr) :
    stripAll .allButTypes (resolveTypesAll table es).value = stripAll .allButTypes es := by
  cases es <;>
    simp [resolveTypesAll, stripAll, Expr.strip_resolveTypes, stripAll_resolveTypes]

theorem stripOpt_resolveTypes (table : DeclTable) (e : Option Expr) :
    stripOpt .allButTypes (resolveTypesOpt table e).value = stripOpt .allButTypes e := by
  cases e <;> simp [resolveTypesOpt, stripOpt, Expr.strip_resolveTypes]

end

theorem Expr.children_resolveTypes (table : DeclTable) (e : Expr) :
    (e.resolveTypes table).value.children =
      e.children.map fun c => (c.resolveTypes table).value := by
  have hall : ∀ es : List Expr,
      (resolveTypesAll table es).value = es.map fun c => (c.resolveTypes table).value := by
    intro es
    induction es with
    | nil => rfl
    | cons e es ih => simp [resolveTypesAll, ih]
  have hopt : ∀ e : Option Expr, (resolveTypesOpt table e).value.toList =
      e.toList.map fun c => (c.resolveTypes table).value := by
    intro e
    cases e <;> rfl
  cases e with
  | literal n text constant =>
    simp only [resolveTypes]
    split <;> rfl
  | _ => simp [resolveTypes, children, hall, hopt]

/-- What the checks of other expressions see of an expression. -/
def Expr.face (e : Expr) : Ty × Location := (e.ty, e.location)

theorem DeclTable.checkArguments_eq (name : String) (location : Location) (variadic : Bool)
    {as bs : List Expr} (h : bs.map Expr.face = as.map Expr.face) (position : Nat) (ts : List Ty) :
    checkArguments name location variadic position bs ts =
      checkArguments name location variadic position as ts := by
  induction as generalizing bs position ts with
  | nil =>
    rw [List.map_nil, List.map_eq_nil_iff] at h
    rw [h]
  | cons a as ih =>
    obtain ⟨b, bs, rfl, hface, hfaces⟩ := List.map_eq_cons_iff.1 h
    obtain ⟨hty, hlocation⟩ := Prod.mk.inj hface
    cases ts with
    | nil => rw [checkArguments, checkArguments, hlocation, ih hfaces]
    | cons t ts => rw [checkArguments, checkArguments, hty, hlocation, ih hfaces]

namespace Placed

variable {α β γ : Type}

@[simp] theorem andThen_value_fst (p : Placed α) (second : β) (go : Layout → Placed β) :
    (p.andThen second go).value.1 = p.value := by
  unfold andThen
  split <;> rfl

/-- What the second piece keeps is kept whether or not it is reached. -/
theorem andThen_value_snd (p : Placed α) (second : β) (go : Layout → Placed β) {f : β → γ}
    (hf : ∀ s, f (go s).value = f second) : f (p.andThen second go).value.2 = f second := by
  unfold andThen
  split
  · rfl
  · exact hf _

end Placed

theorem Layout.strip_register (s : Layout) (ty : Ty) (i : Ident) :
    Keep.allButPlaces.ident (s.register ty i).value = Keep.allButPlaces.ident i := by
  unfold Layout.register
  split <;> rfl

theorem Layout.strip_bind (s : Layout) (i : Ident) :
    Keep.allButPlaces.ident (s.bind i).value = Keep.allButPlaces.ident i := by
  unfold Layout.bind
  split <;> rfl

mutual

/-- Placement writes the variables of names and the labels of strings only. -/
theorem Expr.strip_place (s : Layout) (e : Expr) :
    (e.place s).value.strip .allButPlaces = e.strip .allButPlaces := by
  cases e with
  | literal n text constant =>
    simp only [Expr.place]
    split <;> rfl
  | var n ident => simp [Expr.place, Expr.strip, Placed.map, Layout.strip_bind]
  | call n callee arguments => simp [Expr.place, Expr.strip, Placed.map, stripAll_place]
  | block n body result =>
    simp [Expr.place, Expr.strip, Placed.map, Placed.leave, stripAll_place,
      Placed.andThen_value_snd _ _ _ (fun s => stripOpt_place s result)]
  | bind n ident type value =>
    simp [Expr.place, Expr.strip, Placed.map, Expr.strip_place,
      Placed.andThen_value_snd _ _ _ (fun s => Layout.strip_register s type.ty ident)]
  | assign n target value =>
    simp [Expr.place, Expr.strip, Placed.map, Expr.strip_place,
      Placed.andThen_value_snd _ _ _ (fun s => Layout.strip_bind s target)]
  | binary n op left right =>
    simp [Expr.place, Expr.strip, Placed.map, Expr.strip_place,
      Placed.andThen_value_snd _ _ _ (fun s => Expr.strip_place s right)]
  | unary n op operand => simp [Expr.place, Expr.strip, Placed.map, Expr.strip_place]
  | group n inner => simp [Expr.place, Expr.strip, Placed.map, Expr.strip_place]
  | branch n condition onTrue onFalse =>
    simp [Expr.place, Expr.strip, Placed.map, Expr.strip_place,
      Placed.andThen_value_snd _ _ _ (fun s => Expr.strip_place s onTrue),
      Placed.andThen_value_snd _ _ _ (fun s => stripOpt_place s onFalse)]
  | ret n value => simp [Expr.place, Expr.strip, Placed.map, Expr.strip_place]
  | loop n condition body =>
    simp [Expr.place, Expr.strip, Placed.map, Expr.strip_place,
      Placed.andThen_value_snd _ _ _ (fun s => Expr.strip_place s body)]
  | brk n => rfl

theorem stripAll_place (s : Layout) (es : List Expr) :
    stripAll .allButPlaces (placeAll s es).value = stripAll .allButPlaces es := by
  cases es with
  | nil => rfl
  | cons e es =>
    simp [placeAll, stripAll, Placed.map, Expr.strip_place,
      Placed.andThen_value_snd _ _ _ (fun s => stripAll_place s es)]

theorem stripOpt_place (s : Layout) (e : Option Expr) :
    stripOpt .allButPlaces (placeOpt s e).value = stripOpt .allButPlaces e := by
  cases e <;> simp [placeOpt, stripOpt, Placed.map, Expr.strip_place]

end

/-! ## Functions and programs -/

/-- A parameter with only some of its notes. -/
def Param.strip (k : Keep) (p : Param) : Param := { p with ident := k.ident p.ident }

/-- An external function with only some of its notes. -/
def External.strip (k : Keep) (e : External) : External :=
  { e with ident := k.ident e.ident, params := e.params.map (Param.strip k) }

/-- A function with only some of its notes. -/
def Function.strip (k : Keep) (f : Function) : Function :=
  { f with ident := k.ident f.ident, params := f.params.map (Param.strip k), body := f.body.strip k }

/-- A function without any notes. -/
abbrev Function.bare (f : Function) : Function := f.strip .nothing

theorem Param.strip_strip (k k' : Keep) (p : Param) : (p.strip k).strip k' = p.strip (k.both k') := by
  simp [Param.strip, Keep.ident_both]

theorem External.strip_strip (k k' : Keep) (e : External) :
    (e.strip k).strip k' = e.strip (k.both k') := by
  simp [External.strip, Keep.ident_both, Param.strip_strip, Function.comp_def]

theorem Function.strip_strip (k k' : Keep) (f : Function) :
    (f.strip k).strip k' = f.strip (k.both k') := by
  simp [Function.strip, Keep.ident_both, Param.strip_strip, Expr.strip_strip, Function.comp_def]

theorem Function.bare_strip (k : Keep) (f : Function) : (f.strip k).bare = f.bare := by
  rw [Function.bare, strip_strip, Keep.both_nothing]

/-- A program with only some of its notes. The declarations are what bindings refer to. -/
def Program.strip (k : Keep) (p : Program) : Program where
  functions := p.functions.map (Function.strip k)
  externals := p.externals.map (External.strip k)
  table := if k.bindings then p.table else #[]

theorem Program.strip_strip (k k' : Keep) (p : Program) :
    (p.strip k).strip k' = p.strip (k.both k') := by
  obtain ⟨bindings, types, places⟩ := k
  obtain ⟨bindings', types', places'⟩ := k'
  cases bindings <;> cases bindings' <;>
    simp [Program.strip, Function.strip_strip, External.strip_strip, Function.comp_def, Keep.both]

/-- Two programs that are the same without some notes are so without more of them. -/
theorem Program.strip_eq_of_strip_eq {k k' : Keep} (hk : k.both k' = k') {p q : Program}
    (h : p.strip k = q.strip k) : p.strip k' = q.strip k' := by
  rw [← hk, ← strip_strip, h, strip_strip]

/-- What each part of a list keeps, the list keeps. -/
theorem map_resolveEach {α β : Type} {resolve : Names → α → Resolved α} {g : α → β}
    (hg : ∀ s a, g (resolve s a).value = g a) (s : Names) (as : List α) :
    (resolveEach resolve s as).value.map g = as.map g := by
  induction as generalizing s with
  | nil => rfl
  | cons a as ih => simp [resolveEach, hg, ih]

theorem Param.strip_resolveNames (s : Names) (p : Param) :
    (p.resolveNames s).value.strip .allButBindings = p.strip .allButBindings := by
  simp [Param.resolveNames, Param.strip, Names.strip_declare]

theorem External.strip_resolveNames (s : Names) (e : External) :
    (e.resolveNames s).value.strip .allButBindings = e.strip .allButBindings := by
  simp [External.resolveNames, External.strip, map_resolveEach Param.strip_resolveNames,
    Names.strip_declare]

theorem Function.strip_declareName (s : Names) (f : Function) :
    (f.declareName s).value.strip .allButBindings = f.strip .allButBindings := by
  simp [Function.declareName, Function.strip, Names.strip_declare]

theorem Function.strip_resolveInside (s : Names) (f : Function) :
    (f.resolveInside s).value.strip .allButBindings = f.strip .allButBindings := by
  simp [Function.resolveInside, Function.strip, map_resolveEach Param.strip_resolveNames,
    Expr.strip_resolveNames]

theorem Program.strip_resolveNames (p : Program) :
    p.resolveNames.1.functions.map (Function.strip .allButBindings) =
      p.functions.map (Function.strip .allButBindings) := by
  simp [Program.resolveNames, map_resolveEach Function.strip_resolveInside,
    map_resolveEach Function.strip_declareName]

theorem Program.strip_resolveTypes (p : Program) :
    p.resolveTypes.1.functions.map (Function.strip .allButTypes) =
      p.functions.map (Function.strip .allButTypes) := by
  simp [Program.resolveTypes, Function.resolveTypes, Function.strip, Expr.strip_resolveTypes]

theorem placeParams_strip (s : Layout) (ps : List Param) :
    (placeParams s ps).value.map (Param.strip .allButPlaces) =
      ps.map (Param.strip .allButPlaces) := by
  induction ps generalizing s with
  | nil => rfl
  | cons p ps ih =>
    simp only [placeParams, Placed.map, List.map_cons, Placed.andThen_value_fst,
      Placed.andThen_value_snd _ _ _ (fun s => ih s)]
    simp [Param.strip, Layout.strip_register]

theorem Function.strip_place (constants : Constants) (f : Function) :
    (f.place constants).value.strip .allButPlaces = f.strip .allButPlaces := by
  simp [Function.place, Placed.map, Placed.leave, Function.strip, placeParams_strip,
    Placed.andThen_value_snd _ _ _ (fun s => Expr.strip_place s f.body)]

theorem placeFunctions_strip (constants : Constants) (fs : List Function) :
    (placeFunctions constants fs).functions.map (Function.strip .allButPlaces) =
      fs.map (Function.strip .allButPlaces) := by
  induction fs generalizing constants with
  | nil => rfl
  | cons f fs ih =>
    simp only [placeFunctions]
    split <;> simp [Function.strip_place, ih]

/-- Two lists that are the same without some notes are the same without any. -/
theorem bare_eq_of_strip_eq {k : Keep} {fs gs : List Function}
    (h : fs.map (Function.strip k) = gs.map (Function.strip k)) :
    fs.map Function.bare = gs.map Function.bare := by
  have hb := congrArg (List.map Function.bare) h
  simpa [Function.comp_def, Function.bare_strip] using hb

/-- What does not depend on notes and holds in some functions, holds in the same ones with others. -/
theorem everywhere_of_strip_eq {k : Keep} {q : Expr → Prop} (hq : ∀ x : Expr, q (x.strip k) ↔ q x)
    {fs gs : List Function} (h : fs.map (Function.strip k) = gs.map (Function.strip k))
    (hgs : ∀ g ∈ gs, g.body.Everywhere q) : ∀ f ∈ fs, f.body.Everywhere q := by
  intro f hf
  obtain ⟨g, hg, hgf⟩ := List.mem_map.1 (h ▸ List.mem_map_of_mem hf)
  have hbody : g.body.strip k = f.body.strip k := congrArg Function.body hgf
  rw [← Expr.everywhere_strip hq, ← hbody, Expr.everywhere_strip hq]
  exact hgs g hg

/-- Analysis only makes notes. -/
theorem Program.bare_analyze (p : Program) :
    p.analyze.program.functions.map Function.bare = p.functions.map Function.bare :=
  (bare_eq_of_strip_eq p.resolveNames.1.strip_resolveTypes).trans
    (bare_eq_of_strip_eq p.strip_resolveNames)

/-- So do analysis and placement together. -/
theorem Program.bare_placed (p : Program) :
    (placeFunctions {} p.analyze.program.functions).functions.map Function.bare =
      p.functions.map Function.bare :=
  (bare_eq_of_strip_eq (placeFunctions_strip _ _)).trans p.bare_analyze

end Ilang
