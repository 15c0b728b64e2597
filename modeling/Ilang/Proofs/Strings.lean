import Ilang.Compilation
import Ilang.Proofs.Closure
import Ilang.Proofs.Derivation
import Ilang.Proofs.Walks
/-!
# What becomes of strings

The strings of a text reach the assembly one for one (`compile_strings`). Reading makes a literal of
each string token and of nothing else (`strings_of_parse`), type resolution tells strings by their
quote (`Expr.stringTyped_resolveTypes`), placement numbers them as they are written, and the code of
each takes the address of its own constant, although operands are not evaluated in the order in
which they are written (`Expr.perm_nodes`).
-/
namespace Ilang

/-! ## Strings in a text -/

/-- Whether a literal is written with a quote. -/
def Literal.isQuoted (text : String) : Bool := text.toList.head? = some '"'

/-- What is written with a quote is a string, and nothing else is. -/
theorem Literal.type?_eq_string {text : String} :
    Literal.type? text = some .string ↔ Literal.isQuoted text = true := by
  unfold Literal.type? Literal.isQuoted
  split
  · rename_i h
    subst h
    decide
  · split
    · rename_i h
      rcases Bool.or_eq_true_iff.1 h with h | h <;> · rw [of_decide_eq_true h]; decide
    · split
      · simp [*]
      · repeat' split
        all_goals simp [*]

/-- Whether a token is a string. -/
def Token.isString (t : Token) : Bool :=
  match t.kind with
  | .literal text => Literal.isQuoted text
  | _ => false

/-- The token that a literal was read from, if it is a string. -/
def Expr.stringToken? : Expr → Option Token
  | .literal n text _ => if Literal.isQuoted text then some ⟨.literal text, n.location⟩ else none
  | _ => none

/-- The string tokens that an expression was read from. -/
def Expr.strings (e : Expr) : List Token := (e.nodes .written).filterMap stringToken?

theorem Expr.strings_eq (e : Expr) :
    e.strings = e.children.flatMap strings ++ e.stringToken?.toList := by
  unfold strings
  rw [nodes_written, List.filterMap_append, List.filterMap_flatMap]
  cases h : e.stringToken? <;> simp [h]

theorem Expr.strings_strip (k : Keep) (e : Expr) : (e.strip k).strings = e.strings := by
  have htoken : ∀ e : Expr, (e.strip k).stringToken? = e.stringToken? := by
    intro e
    cases e with
    | literal n text constant => simp only [Expr.strip, stringToken?, Keep.location_node]
    | _ => rfl
  induction e using Expr.induction_children with
  | _ e ih =>
    rw [strings_eq, strings_eq, children_strip, htoken, List.flatMap_map]
    congr 1
    exact List.flatMap_congr ih

/-! ## Strings in a print -/

/-- Whatever tokens spell a print, the strings among them are these. -/
def Quotes (marks : List Mark) (strings : List Token) : Prop :=
  ∀ others ts, Spells (marks ++ others) ts →
    ∃ us vs, ts = us ++ vs ∧ us.filter Token.isString = strings ∧ Spells others vs

namespace Quotes

variable {marks marks' : List Mark} {strings strings' : List Token}

theorem of_eq (h : Quotes marks strings) (heq : strings' = strings) : Quotes marks strings' :=
  heq ▸ h

theorem nil : Quotes [] [] := fun _ ts h => ⟨[], ts, rfl, rfl, h⟩

theorem append (h : Quotes marks strings) (h' : Quotes marks' strings') :
    Quotes (marks ++ marks') (strings ++ strings') := by
  intro others ts hts
  rw [List.append_assoc] at hts
  obtain ⟨us, vs, rfl, rfl, hvs⟩ := h _ _ hts
  obtain ⟨us', vs', rfl, rfl, hvs'⟩ := h' _ _ hvs
  exact ⟨us ++ us', vs', by rw [List.append_assoc], by rw [List.filter_append], hvs'⟩

theorem start {l : Location} (h : Quotes marks strings) : Quotes (.start l :: marks) strings := by
  intro others ts hts
  cases hts with
  | start hts => exact h _ _ hts

theorem token (kind : TokenKind) (hkind : ∀ l, Token.isString ⟨kind, l⟩ = false)
    (h : Quotes marks strings) : Quotes (.token kind :: marks) strings := by
  intro others ts hts
  cases hts with
  | @token _ l us _ hts =>
    obtain ⟨us, vs, rfl, rfl, hvs⟩ := h _ _ hts
    exact ⟨⟨kind, l⟩ :: us, vs, rfl, List.filter_cons_of_neg (by simp [hkind]), hvs⟩

/-- The token of a literal stands where the literal starts. -/
theorem literal (n : Node) (text : String) (constant : Option String) :
    Quotes [.start n.location, .token (.literal text)]
      (Expr.stringToken? (.literal n text constant)).toList := by
  intro others ts hts
  cases hts with
  | start hts =>
    cases hts with
    | token hts =>
      refine ⟨[_], _, rfl, ?_, hts⟩
      cases hquoted : Literal.isQuoted text <;>
        simp [Expr.stringToken?, Token.isString, hquoted]

theorem separated {prints : List (List Mark)} {strings : List (List Token)}
    (h : List.Forall₂ Quotes prints strings) : Quotes (separated prints) strings.flatten := by
  induction h with
  | nil => exact .nil
  | @cons first _ prints _ hfirst hothers ih =>
    cases hothers with
    | nil => exact hfirst.of_eq (List.append_nil _)
    | cons => exact hfirst.append (.token .comma (fun _ => rfl) ih)

theorem terminated {prints : List (List Mark)} {strings : List (List Token)}
    (h : List.Forall₂ Quotes prints strings) : Quotes (terminated prints) strings.flatten := by
  induction h with
  | nil => exact .nil
  | cons hfirst _ ih =>
    have hclosed := hfirst.append (.token .semicolon (fun _ => rfl) .nil)
    exact (hclosed.append ih).of_eq (by simp)

theorem parenthesized (h : Quotes marks strings) : Quotes (parenthesized marks) strings := by
  have hclosed := h.append (.token .rparen (fun _ => rfl) .nil)
  exact (Quotes.token .lparen (fun _ => rfl) hclosed).of_eq (List.append_nil _).symm

/-- Of many prints, each with its strings. -/
theorem forall₂_map {α : Type} (print : α → List Mark) (strings : α → List Token) {as : List α}
    (h : ∀ a ∈ as, Quotes (print a) (strings a)) :
    List.Forall₂ Quotes (as.map print) (as.map strings) := by
  rw [List.forall₂_map_left_iff, List.forall₂_map_right_iff, List.forall₂_same]
  exact h

end Quotes

theorem Ident.quotes (i : Ident) : Quotes i.print [] :=
  .start (.token (.identifier i.name) (fun _ => rfl) .nil)

theorem TypeRef.quotes (t : TypeRef) : Quotes t.print [] := by
  refine .start (.token t.token (fun l => ?_) .nil)
  unfold TypeRef.token
  split
  · -- As a type, too, `unit` is a literal.
    have hunit : Literal.isQuoted "unit" = false := by decide
    exact hunit
  · rfl

theorem BinaryOp.isString_token (op : BinaryOp) (l : Location) :
    Token.isString ⟨op.token, l⟩ = false := by
  cases op <;> rfl

theorem UnaryOp.isString_token (op : UnaryOp) (l : Location) :
    Token.isString ⟨op.token, l⟩ = false := by
  cases op <;> rfl

theorem printAll_eq_map (es : List Expr) : printAll es = es.map Expr.print := by
  induction es with
  | nil => rfl
  | cons e es ih => rw [printAll, ih, List.map_cons]

theorem quotes_printOpt {heading : List Mark} (hheading : Quotes heading []) {e : Option Expr}
    (h : ∀ c ∈ e.toList, Quotes c.print c.strings) :
    Quotes (printOpt heading e) (e.toList.flatMap Expr.strings) := by
  cases e with
  | none => exact .nil
  | some e => exact (hheading.append (h e (by simp))).of_eq (by simp)

/-- The strings in the tokens of an expression are those of its literals. -/
theorem Expr.quotes (e : Expr) : Quotes e.print e.strings := by
  induction e using Expr.induction_children with
  | _ e ih =>
    rw [strings_eq]
    cases e with
    | literal n text constant => exact .literal n text constant
    | var n ident => exact .start ident.quotes
    | call n callee arguments =>
      have harguments := Quotes.separated (Quotes.forall₂_map _ _ ih)
      rw [← printAll_eq_map] at harguments
      refine (Quotes.start (callee.quotes.append harguments.parenthesized)).of_eq ?_
      simp [stringToken?, children, List.flatMap_def]
    | block n body result =>
      have hbody := Quotes.terminated (Quotes.forall₂_map _ _ fun c hc =>
        ih c (List.mem_append_left _ hc))
      rw [← printAll_eq_map] at hbody
      have hresult := quotes_printOpt .nil fun c hc => ih c (List.mem_append_right _ hc)
      have hclosed := hresult.append (.token .rbrace (fun _ => rfl) .nil)
      refine (Quotes.start (.token .lbrace (fun _ => rfl) (hbody.append hclosed))).of_eq ?_
      simp [stringToken?, children, List.flatMap_def]
    | bind n ident type value =>
      have hvalue := Quotes.token .assign (fun _ => rfl) (ih value (by simp [children]))
      have htype := type.quotes.append hvalue
      have hident := ident.quotes.append (.token .colon (fun _ => rfl) htype)
      refine (Quotes.start (.token .kwLet (fun _ => rfl) hident)).of_eq ?_
      simp [stringToken?, children]
    | assign n target value =>
      have hvalue := Quotes.token .assign (fun _ => rfl) (ih value (by simp [children]))
      refine (Quotes.start (target.quotes.append hvalue)).of_eq ?_
      simp [stringToken?, children]
    | binary n op left right =>
      have hright := Quotes.token op.token op.isString_token (ih right (by simp [children]))
      refine (Quotes.start ((ih left (by simp [children])).append hright)).of_eq ?_
      simp [stringToken?, children]
    | unary n op operand =>
      have hoperand := Quotes.token op.token op.isString_token (ih operand (by simp [children]))
      refine hoperand.start.of_eq ?_
      simp [stringToken?, children]
    | group n inner =>
      refine (ih inner (by simp [children])).parenthesized.start.of_eq ?_
      simp [stringToken?, children]
    | branch n condition onTrue onFalse =>
      have hfalse := quotes_printOpt (.token .kwElse (fun _ => rfl) .nil) (e := onFalse)
        fun c hc => ih c (by simp [children, Option.mem_toList.1 hc])
      have htrue := (ih onTrue (by simp [children])).append hfalse
      have hcondition := (ih condition (by simp [children])).append htrue
      refine (Quotes.start (.token .kwIf (fun _ => rfl) hcondition)).of_eq ?_
      simp [stringToken?, children]
    | ret n value =>
      have hvalue := Quotes.token .kwReturn (fun _ => rfl) (ih value (by simp [children]))
      refine hvalue.start.of_eq ?_
      simp [stringToken?, children]
    | loop n condition body =>
      have hparts := (ih condition (by simp [children])).append (ih body (by simp [children]))
      refine (Quotes.start (.token .kwWhile (fun _ => rfl) hparts)).of_eq ?_
      simp [stringToken?, children]
    | brk n => exact .start (.token .kwBreak (fun _ => rfl) .nil)

/-! ## Strings in a program -/

theorem Param.quotes (p : Param) : Quotes p.print [] := p.type.quotes.append p.ident.quotes

theorem quotes_printParams (variadic : Bool) (ps : List Param) :
    Quotes (printParams variadic ps) [] := by
  have hparts : ∀ marks ∈ ps.map Param.print ++ (if variadic then [[.token .ellipsis]] else []),
      Quotes marks [] := by
    intro marks hmarks
    rcases List.mem_append.1 hmarks with hmarks | hmarks
    · obtain ⟨p, -, rfl⟩ := List.mem_map.1 hmarks
      exact p.quotes
    · cases variadic with
      | false => cases hmarks
      | true =>
        obtain rfl := List.mem_singleton.1 hmarks
        exact .token .ellipsis (fun _ => rfl) .nil
  have hall := Quotes.separated (Quotes.forall₂_map id (fun _ => []) hparts)
  rw [List.map_id] at hall
  exact hall.of_eq (by simp)

/-- The string tokens that a declaration was read from. -/
def Decl.strings (d : Decl) : List Token := d.function?.toList.flatMap fun f => f.body.strings

/-- Only the bodies of functions hold strings. -/
theorem Decl.quotes (d : Decl) : Quotes d.print d.strings := by
  cases d with
  | function f =>
    have hparams := (quotes_printParams false f.params).parenthesized
    have hparts := f.returns.quotes.append (f.ident.quotes.append (hparams.append f.body.quotes))
    exact hparts.start.of_eq (by simp [Decl.strings, Decl.function?])
  | external e closed =>
    have hparams := (quotes_printParams e.variadic e.params).parenthesized
    have hparts := e.returns.quotes.append (e.ident.quotes.append hparams)
    have hheading := Quotes.start (l := e.location) (.token .kwExtrn (fun _ => rfl) hparts)
    cases closed with
    | false => exact (hheading.append .nil).of_eq rfl
    | true => exact (hheading.append (.token .semicolon (fun _ => rfl) .nil)).of_eq rfl

/-- The strings of a text are those of the literals in its functions, as they are written. -/
theorem strings_of_parse {file source : String} {ts : List Token} {p : Program}
    (hts : tokenize file source = .ok ts) (hp : parse ts = .ok p) :
    ts.filter Token.isString = p.functions.flatMap fun f => f.body.strings := by
  obtain ⟨read, l, ds, rfl, hspelled, hfunctions⟩ := exists_declarations hts hp
  have hquotes : Quotes (ds.flatMap Decl.print) (ds.flatMap Decl.strings) := by
    clear hspelled hfunctions
    induction ds with
    | nil => exact .nil
    | cons d ds ih => exact d.quotes.append ih
  obtain ⟨us, vs, rfl, hus, hvs⟩ := hquotes [] read (by rwa [List.append_nil])
  cases hvs
  rw [List.append_nil, List.filter_append, hus, hfunctions, List.filterMap_eq_flatMap_toList,
    List.flatMap_assoc]
  exact List.append_nil _

/-! ## Strings in a tree -/

/-- Whether an expression is a literal that has the type of strings. -/
def Expr.isString : Expr → Bool
  | .literal n _ _ => n.ty = .string
  | _ => false

/-- A literal has the type of strings exactly if it is written with a quote. -/
def Expr.StringTyped : Expr → Prop
  | .literal n text _ => n.ty = .string ↔ Literal.isQuoted text = true
  | _ => True

/-- Type resolution tells strings by their quote, also where it reports something. -/
theorem Expr.stringTyped_resolveTypes (table : DeclTable) (e : Expr) :
    (e.resolveTypes table).value.Everywhere StringTyped := by
  induction e using Expr.induction_children with
  | _ e ih =>
    rw [everywhere_iff, children_resolveTypes]
    refine ⟨?_, List.forall_mem_map.2 ih⟩
    cases e with
    | literal n text constant =>
      simp only [resolveTypes]
      split
      · rename_i t ht
        rw [StringTyped, ← Literal.type?_eq_string, ht, Option.some_inj]
      · -- A literal that is reported gets the undefined type, and has no quote.
        rename_i ht
        rw [StringTyped, ← Literal.type?_eq_string, ht]
        simp
    | _ => trivial

theorem Expr.stringTyped_strip (e : Expr) :
    (e.strip .allButPlaces).StringTyped ↔ e.StringTyped := by
  cases e <;> exact Iff.rfl

/-- Evaluation changes only the order of the nodes. -/
theorem Expr.perm_nodes (e : Expr) : (e.nodes .evaluated).Perm (e.nodes .written) := by
  induction e using Expr.induction_children with
  | _ e ih =>
    have hparts : (e.descendants .evaluated).Perm (e.children.flatMap (nodes .evaluated)) := by
      cases e with
      | binary n op left right =>
        -- The one kind of node whose children are evaluated in another order.
        have hcomm : (right.nodes .evaluated ++ left.nodes .evaluated).Perm
            (left.nodes .evaluated ++ right.nodes .evaluated) := List.perm_append_comm
        rw [descendants, children, List.flatMap_cons, List.flatMap_cons, List.flatMap_nil,
          List.append_nil]
        exact hcomm
      | _ => simp [descendants, children, nodes, nodesAll_eq, nodesOpt_eq]
    rw [nodes_written, nodes]
    exact (hparts.trans (List.Perm.flatMap_left _ ih)).append_right _

/-- The literals in functions that have the type of strings, as they are written. -/
def stringNodes (fs : List Function) : List Expr :=
  fs.flatMap fun f => (f.body.nodes .written).filter Expr.isString

/-- What only strings have is found among them. -/
theorem filterMap_stringNodes {α : Type} {part? : Expr → Option α} {fs : List Function}
    (h : ∀ f ∈ fs, ∀ e, e.Inside f.body → e.isString = false → part? e = none) :
    (stringNodes fs).filterMap part? =
      fs.flatMap fun f => (f.body.nodes .written).filterMap part? := by
  unfold stringNodes
  rw [List.filterMap_flatMap]
  simp only [List.filterMap_filter]
  refine List.flatMap_congr fun f hf => List.filterMap_congr fun e he => ?_
  cases hstring : e.isString with
  | true => rfl
  | false => exact (h f hf e (Expr.mem_nodes.1 he) hstring).symm

theorem filterMap_constant?_stringNodes (fs : List Function) :
    (stringNodes fs).filterMap Expr.constant? = fs.flatMap fun f => f.body.constants := by
  refine filterMap_stringNodes fun f _ e _ hstring => ?_
  cases e with
  | literal n text constant =>
    have hty : n.ty ≠ .string := of_decide_eq_false hstring
    cases constant <;> simp [Expr.constant?, hty]
  | _ => rfl

theorem filterMap_stringToken?_stringNodes {fs : List Function}
    (htyped : ∀ f ∈ fs, f.body.Everywhere Expr.StringTyped) :
    (stringNodes fs).filterMap Expr.stringToken? = fs.flatMap fun f => f.body.strings := by
  refine filterMap_stringNodes fun f hf e he hstring => ?_
  have htyped := htyped f hf e he
  cases e with
  | literal n text constant =>
    have hty : n.ty ≠ .string := of_decide_eq_false hstring
    exact if_neg fun hquoted => hty (htyped.2 hquoted)
  | _ => rfl

/-- The literal that a string token becomes, with the label of its constant. -/
def Token.literal (t : Token) (i : Nat) : Expr :=
  .literal ⟨t.location, .string⟩ t.kind.text (some (".constant_" ++ toString i))

/-- A literal that has been typed and placed, of a string with a label. -/
def Expr.Quoted (e : Expr) : Prop :=
  ∃ location text label, e = .literal ⟨location, .string⟩ text (some label) ∧
    Literal.isQuoted text = true

theorem Expr.quoted_of_isString {e : Expr} {count : Nat} (hstring : e.isString = true)
    (htyped : e.StringTyped) (hlocated : e.Located count) : e.Quoted := by
  cases e with
  | literal n text constant =>
    obtain ⟨location, ty⟩ := n
    obtain rfl : ty = .string := of_decide_eq_true hstring
    obtain ⟨label, rfl⟩ := hlocated rfl
    exact ⟨location, text, label, rfl, htyped.1 rfl⟩
  | _ => cases hstring

/-- Literals with numbered labels are those of their tokens. -/
theorem eq_zipIdx_of_labels {es : List Expr} (hquoted : ∀ e ∈ es, e.Quoted) {k : Nat}
    (hlabels : (es.filterMap Expr.constant?).map (·.label) =
      (List.range' k (es.filterMap Expr.constant?).length).map Constants.labels.label) :
    es = ((es.filterMap Expr.stringToken?).zipIdx k).map fun x => x.1.literal x.2 := by
  induction es generalizing k with
  | nil => rfl
  | cons e es ih =>
    obtain ⟨⟨location, text, label, rfl, htext⟩, hes⟩ := List.forall_mem_cons.1 hquoted
    have hconstant : Expr.constant? (.literal ⟨location, .string⟩ text (some label)) =
      some ⟨label, .string, text⟩ := rfl
    have htoken : Expr.stringToken? (.literal ⟨location, .string⟩ text (some label)) =
      some ⟨.literal text, location⟩ := if_pos htext
    rw [List.filterMap_cons_some hconstant, List.map_cons, List.length_cons, List.range'_succ,
      List.map_cons, List.cons.injEq] at hlabels
    obtain ⟨rfl, hlabels⟩ := hlabels
    rw [List.filterMap_cons_some htoken, List.zipIdx_cons, List.map_cons, ← ih hes hlabels]
    rfl

/-! ## Strings in code -/

/-- Whether an instruction takes the address of a label. -/
def Instr.loads (label : String) : Instr → Bool
  | .lea (.symbol x _) _ => x = label
  | _ => false

theorem Instr.countP_references (label : String) (is : List Instr) :
    (references is).countP (loads label) = is.countP (loads label) := by
  unfold references
  rw [List.countP_filter]
  refine List.countP_congr fun i _ => ?_
  cases i with
  | lea => simp [refers]
  | _ => simp [loads]

/-- The code of a node takes the address of its own constant and of no other. -/
theorem Expr.loads_reference? (functions : List String) (label : String) (e : Expr) :
    ((e.reference? functions).map (Instr.loads label)).getD false =
      (e.constant?.map fun c => decide (c.label = label)).getD false := by
  cases e with
  | literal n text constant =>
    cases constant <;> by_cases hstring : n.ty = .string <;>
      simp [reference?, constant?, hstring, Instr.loads]
  | _ => rfl

theorem Expr.countP_reference? (functions : List String) (label : String) (e : Expr) :
    ((e.nodes .evaluated).filterMap (reference? functions)).countP (Instr.loads label) =
      e.constants.countP (·.label = label) := by
  rw [List.countP_filterMap, e.perm_nodes.countP_eq, constants, List.countP_filterMap]
  simp only [loads_reference?]

/-- The address of each label is taken as often as the label is given to a constant. -/
theorem PlacedFunctions.countP_loads {placed : PlacedFunctions} {options : GenOptions}
    {assembly : Assembly} {labels : Labels}
    (hlength : placed.functions.length = placed.frames.length)
    (h : placed.assemble options = .ok (assembly, labels)) (label : String) :
    assembly.code.countP (Instr.loads label) =
      (placed.functions.flatMap fun f => f.body.constants).countP (·.label = label) := by
  rw [← Instr.countP_references, references_of_ok hlength h, List.countP_flatMap,
    List.countP_flatMap]
  simp only [Function.comp_def, Expr.countP_reference?]

theorem Function.standsIn_emit {comments : Bool} {functions : List String} {frame : Frame}
    {f : Function} {l m : Labels} {code : Code}
    (h : f.emit comments functions frame l = .ok (code, m)) {x : Expr} (hx : x.Inside f.body) :
    ∃ env k c k', env.comments = comments ∧ x.emit env k = .ok (c, k') ∧ c.StandsIn code := by
  rw [Function.emit] at h
  split at h
  · cases h
  · obtain ⟨stores, -, h⟩ := Emit.bind_lift_eq_ok h
    obtain ⟨body, j, hbody, h⟩ := Emit.bind_eq_ok h
    obtain ⟨rfl, -⟩ := Emit.pure_eq_ok h
    obtain ⟨path, hpath⟩ := hx.exists_at?
    obtain ⟨⟨env, k⟩, hwalk, -⟩ := Expr.walk_of_ok hbody hpath
    obtain ⟨c, k', hc, hin⟩ := hwalk.exists_code hbody
    exact ⟨env, k, c, k', hwalk.comments_eq, hc, hin.trans (Code.StandsIn.refl body).right.left⟩

/-- The code of every node in a function stands in the code of the program. -/
theorem standsIn_emitFunctions {comments : Bool} {functions : List String}
    {fs : List (Function × Frame)} {l m : Labels} {code : Code}
    (h : emitFunctions comments functions fs l = .ok (code, m)) {f : Function} {frame : Frame}
    (hf : (f, frame) ∈ fs) {x : Expr} (hx : x.Inside f.body) :
    ∃ env k c k', env.comments = comments ∧ x.emit env k = .ok (c, k') ∧ c.StandsIn code := by
  induction fs generalizing l m code with
  | nil => cases hf
  | cons g fs ih =>
    rw [emitFunctions] at h
    obtain ⟨first, j, hfirst, h⟩ := Emit.bind_eq_ok h
    obtain ⟨others, j', hothers, h⟩ := Emit.bind_eq_ok h
    obtain ⟨rfl, -⟩ := Emit.pure_eq_ok h
    rcases List.mem_cons.1 hf with rfl | hf
    · obtain ⟨env, k, c, k', henv, hc, hin⟩ := Function.standsIn_emit hfirst hx
      exact ⟨env, k, c, k', henv, hc, hin.left⟩
    · obtain ⟨env, k, c, k', henv, hc, hin⟩ := ih hothers hf
      exact ⟨env, k, c, k', henv, hc, hin.right⟩

/-- The code of a string, wherever it stands. -/
def Token.code (comments : Bool) (i : Nat) : Code :=
  .instrs (remark comments "literal expression" ++
    [.lea (.symbol (".constant_" ++ toString i) .rip) .rax])

theorem Token.emit_literal (t : Token) (i : Nat) (env : Surroundings) (l : Labels) :
    (t.literal i).emit env l = .ok (Token.code env.comments i, l) := by
  rw [Token.literal, Expr.emit]
  rfl

theorem PlacedFunctions.exists_frame {placed : PlacedFunctions}
    (hlength : placed.functions.length = placed.frames.length) {f : Function}
    (hf : f ∈ placed.functions) : ∃ frame, (f, frame) ∈ placed.functions.zip placed.frames := by
  rw [← List.map_fst_zip (Nat.le_of_eq hlength)] at hf
  obtain ⟨⟨f, frame⟩, hmem, rfl⟩ := List.mem_map.1 hf
  exact ⟨frame, hmem⟩

/-- Code that stands in the code of functions stands in the assembly. -/
theorem PlacedFunctions.code_of_inside {placed : PlacedFunctions} {options : GenOptions}
    {assembly : Assembly} {labels : Labels}
    (hlength : placed.functions.length = placed.frames.length)
    (h : placed.assemble options = .ok (assembly, labels)) {f : Function}
    (hf : f ∈ placed.functions) {x : Expr} (hx : x.Inside f.body) :
    ∃ env k c k', env.comments = options.comments ∧ x.emit env k = .ok (c, k') ∧
      c.toList <:+: assembly.code := by
  obtain ⟨code, hrun, hcode, -⟩ := assemble_eq_ok h
  obtain ⟨frame, hmem⟩ := exists_frame hlength hf
  obtain ⟨env, k, c, k', henv, hc, hin⟩ := standsIn_emitFunctions hrun hmem hx
  refine ⟨env, k, c, k', henv, hc, ?_⟩
  rw [hcode]
  exact List.IsInfix.trans hin List.infix_append_right

/-! ## The result -/

theorem compile_eq_ok {options : GenOptions} {checked : Bool} {file source : String}
    {assembly : Assembly} (h : (compile options checked file source).value = .ok assembly) :
    ∃ ts p labels, tokenize file source = .ok ts ∧ parse ts = .ok p ∧
      (p.analyze.program.generate options).result = .ok (assembly, labels) := by
  unfold compile readProgram at h
  cases hts : tokenize file source with
  | error e => simp only [hts] at h; cases h
  | ok ts =>
    simp only [hts] at h
    cases hp : parse ts with
    | error e => simp only [hp] at h; cases h
    | ok p =>
      simp only [hp] at h
      split at h
      · cases h
      · unfold assemble at h
        cases hresult : (p.analyze.program.generate options).result with
        | error e => simp only [hresult] at h; cases h
        | ok r =>
          simp only [hresult] at h
          cases h
          exact ⟨ts, p, r.2, rfl, hp, hresult⟩

theorem Program.stringTyped_analyze (p : Program) :
    ∀ f ∈ p.analyze.program.functions, f.body.Everywhere Expr.StringTyped := by
  intro f hf
  simp only [Program.analyze, Program.resolveTypes, List.map_map, List.mem_map] at hf
  obtain ⟨g, -, rfl⟩ := hf
  exact Expr.stringTyped_resolveTypes _ g.body

theorem strings_of_bare_eq {fs gs : List Function}
    (h : fs.map Function.bare = gs.map Function.bare) :
    (fs.flatMap fun f => f.body.strings) = gs.flatMap fun f => f.body.strings := by
  have hbare : ∀ fs : List Function, (fs.flatMap fun f => f.body.strings) =
      (fs.map Function.bare).flatMap fun f => f.body.strings := by
    intro fs
    simp only [List.flatMap_map, Function.bare, Function.strip, Expr.strings_strip]
  rw [hbare, h, ← hbare]

/-- Functions that have been placed from the start: strings are told by their quotes, and the
constants are those of the strings, numbered. -/
structure PlacedFunctions.StringsLaid (placed : PlacedFunctions) : Prop where
  laid : List.Forall₂ Function.LaidIn placed.functions placed.frames
  typed : ∀ f ∈ placed.functions, f.body.Everywhere Expr.StringTyped
  pool : placed.constants.entries.toList = placed.functions.flatMap fun f => f.body.constants
  numbered : placed.constants.Numbered

theorem Program.stringsLaid {p : Program}
    (h : (placeFunctions {} p.analyze.program.functions).stopped = none) :
    (placeFunctions {} p.analyze.program.functions).StringsLaid where
  laid := laid_placeFunctions h
  typed := everywhere_of_strip_eq Expr.stringTyped_strip
    (placeFunctions_strip {} p.analyze.program.functions) p.stringTyped_analyze
  pool := placeFunctions_pool h
  numbered := placeFunctions_kept Constants.kept_numbered (by rfl) _

namespace PlacedFunctions.StringsLaid

variable {placed : PlacedFunctions} (h : placed.StringsLaid)

include h

theorem quoted {e : Expr} (he : e ∈ stringNodes placed.functions) : e.Quoted := by
  obtain ⟨f, hf, he⟩ := List.mem_flatMap.1 he
  obtain ⟨he, hstring⟩ := List.mem_filter.1 he
  have hinside := Expr.mem_nodes.1 he
  obtain ⟨frame, hmem⟩ := exists_frame h.laid.length_eq hf
  obtain ⟨-, hlocated⟩ := (List.forall₂_zip h.laid hmem).located
  exact Expr.quoted_of_isString hstring (h.typed f hf e hinside) (hlocated e hinside)

theorem entries_eq :
    placed.constants.entries.toList = (stringNodes placed.functions).filterMap Expr.constant? := by
  rw [filterMap_constant?_stringNodes, h.pool]

/-- The strings are those of the tokens, each with the label of its number. -/
theorem stringNodes_eq : stringNodes placed.functions =
    (placed.functions.flatMap fun f => f.body.strings).zipIdx.map fun x => x.1.literal x.2 := by
  rw [← filterMap_stringToken?_stringNodes h.typed]
  refine eq_zipIdx_of_labels (fun _ => h.quoted) ?_
  rw [← h.entries_eq, h.numbered, List.range_eq_range', Array.length_toList]

/-- The constants have the texts of the tokens. -/
theorem constants_eq : placed.constants.entries.toList =
    (placed.functions.flatMap fun f => f.body.strings).zipIdx.map fun x =>
      ⟨".constant_" ++ toString x.2, .string, x.1.kind.text⟩ := by
  rw [h.entries_eq, h.stringNodes_eq, List.filterMap_map]
  exact congrFun List.filterMap_eq_map _

variable {options : GenOptions} {assembly : Assembly} {labels : Labels}
  (hassemble : placed.assemble options = .ok (assembly, labels)) {x : Token × Nat}
  (hx : x ∈ (placed.functions.flatMap fun f => f.body.strings).zipIdx)

include hassemble

theorem data_eq : assembly.data = .directive ".data" ::
    (placed.functions.flatMap fun f => f.body.strings).zipIdx.flatMap fun x =>
      [.label (".constant_" ++ toString x.2), .asciz x.1.kind.text] := by
  obtain ⟨-, -, -, hdata⟩ := assemble_eq_ok hassemble
  rw [Constants.dataLines_eq_ok hdata, h.constants_eq, List.flatMap_map]

include hx

/-- No address is taken twice, since no label is given twice. -/
theorem countP_loads_eq_one :
    assembly.code.countP (Instr.loads (".constant_" ++ toString x.2)) = 1 := by
  have hlabel : ".constant_" ++ toString x.2 ∈
      placed.constants.entries.toList.map (·.label) := by
    rw [h.constants_eq, List.map_map]
    exact List.mem_map_of_mem hx
  rw [countP_loads h.laid.length_eq hassemble, ← h.pool,
    ← List.count_eq_one_of_mem h.numbered.nodup hlabel, List.count, List.countP_map]
  rfl

theorem code_literal : (Token.code options.comments x.2).toList <:+: assembly.code := by
  have hmem : x.1.literal x.2 ∈ stringNodes placed.functions := by
    rw [h.stringNodes_eq]
    exact List.mem_map_of_mem hx
  obtain ⟨f, hf, hmem⟩ := List.mem_flatMap.1 hmem
  have hinside := Expr.mem_nodes.1 (List.mem_filter.1 hmem).1
  obtain ⟨env, l, c, m, henv, hc, hin⟩ := code_of_inside h.laid.length_eq hassemble hf hinside
  rw [Token.emit_literal, henv] at hc
  cases hc
  exact hin

end PlacedFunctions.StringsLaid

/-- Every string of a text becomes one constant, and the constants stand in the data section in the
order of the text, also if strings are the same. The literals with the type of strings are those
read from the strings of the text, each with the label of its constant. The address of each
constant is taken once, in the code of its literal. -/
theorem compile_strings {options : GenOptions} {checked : Bool} {file source : String}
    {assembly : Assembly} (h : (compile options checked file source).value = .ok assembly) :
    ∃ ts p, tokenize file source = .ok ts ∧ parse ts = .ok p ∧
      assembly.data = .directive ".data" :: (ts.filter Token.isString).zipIdx.flatMap (fun x =>
        [.label (".constant_" ++ toString x.2), .asciz x.1.kind.text]) ∧
      stringNodes (p.analyze.program.generate options).program.functions =
        (ts.filter Token.isString).zipIdx.map (fun x => x.1.literal x.2) ∧
      ∀ x ∈ (ts.filter Token.isString).zipIdx,
        assembly.code.countP (Instr.loads (".constant_" ++ toString x.2)) = 1 ∧
        (∀ env l, (x.1.literal x.2).emit env l = .ok (Token.code env.comments x.2, l)) ∧
        (Token.code options.comments x.2).toList <:+: assembly.code := by
  obtain ⟨ts, p, labels, hts, hp, hgen⟩ := compile_eq_ok h
  obtain ⟨hstopped, hfunctions, hassemble⟩ := Program.generate_eq_ok hgen
  have hlaid := Program.stringsLaid hstopped
  -- Neither analysis nor placement changes what was read.
  have htokens : ts.filter Token.isString =
      (placeFunctions {} p.analyze.program.functions).functions.flatMap fun f => f.body.strings :=
    (strings_of_parse hts hp).trans (strings_of_bare_eq p.bare_placed.symm)
  refine ⟨ts, p, hts, hp, ?_⟩
  rw [hfunctions, htokens]
  refine ⟨hlaid.data_eq hassemble, hlaid.stringNodes_eq, fun x hx => ?_⟩
  exact ⟨hlaid.countP_loads_eq_one hassemble hx, x.1.emit_literal x.2,
    hlaid.code_literal hassemble hx⟩

/-- Two strings that are the same, and operators that evaluate their right operands first. -/
def stringsText : String :=
  "extrn int puts(string s) int main() " ++
    braced "(puts(\"on\") - puts(\"off\")) * puts(\"on\")"

theorem compile_strings_text :
    ∃ assembly, (compile {} true "main" stringsText).value = .ok assembly ∧
      assembly.data = [.directive ".data", .label ".constant_0", .asciz "\"on\"",
        .label ".constant_1", .asciz "\"off\"", .label ".constant_2", .asciz "\"on\""] ∧
      assembly.code.filter (fun i => [0, 1, 2].any fun k =>
          i.loads (".constant_" ++ toString k)) =
        [2, 1, 0].map (fun k => .lea (.symbol (".constant_" ++ toString k) .rip) .rax) ∧
      ∃ ts p, tokenize "main" stringsText = .ok ts ∧ parse ts = .ok p ∧
        (ts.filter Token.isString).map (·.kind.text) = ["\"on\"", "\"off\"", "\"on\""] ∧
        stringNodes (p.analyze.program.generate {}).program.functions =
          (ts.filter Token.isString).zipIdx.map (fun x => x.1.literal x.2) ∧
        ∀ x ∈ (ts.filter Token.isString).zipIdx,
          assembly.code.countP (Instr.loads (".constant_" ++ toString x.2)) = 1 ∧
          (Token.code true x.2).toList <:+: assembly.code := by
  have hcheck : ((compile {} true "main" stringsText).value.toOption.any fun assembly =>
      decide (assembly.data = [.directive ".data", .label ".constant_0", .asciz "\"on\"",
        .label ".constant_1", .asciz "\"off\"", .label ".constant_2", .asciz "\"on\""] ∧
      assembly.code.filter (fun i => [0, 1, 2].any fun k =>
          i.loads (".constant_" ++ toString k)) =
        [2, 1, 0].map fun k => .lea (.symbol (".constant_" ++ toString k) .rip) .rax)) = true := by
    decide +kernel
  have htexts : ((tokenize "main" stringsText).toOption.map fun ts =>
      (ts.filter Token.isString).map (·.kind.text)) =
        some ["\"on\"", "\"off\"", "\"on\""] := by
    decide +kernel
  obtain ⟨assembly, h, hq⟩ := (Option.any_eq_true ..).1 hcheck
  obtain ⟨hdata, hcode⟩ := of_decide_eq_true hq
  obtain ⟨ts, p, hts, hp, -, hnodes, hstrings⟩ := compile_strings (eq_ok_of_toOption h)
  rw [hts] at htexts
  refine ⟨assembly, eq_ok_of_toOption h, hdata, hcode, ts, p, hts, hp, Option.some.inj htexts,
    hnodes, fun x hx => ?_⟩
  obtain ⟨hcount, -, hin⟩ := hstrings x hx
  exact ⟨hcount, hin⟩

end Ilang
