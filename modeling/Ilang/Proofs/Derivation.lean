import Ilang.Proofs.Lexing
import Ilang.Proofs.Reading
import Ilang.Proofs.Spelling
/-!
# What the grammar reads

A rule that succeeds has taken the tokens that spell its result, and nothing else. The result has
the shape that the productions give it (`Expr.Shaped`). Each rule is gone through once, with a law
for each way to take tokens (`Rule.Reads`); the budget bounds the induction.
-/
namespace Ilang

/-! ## Shape -/

namespace Expr

/-- Whether an expression can stand only in a block. -/
def isStatement : Expr → Bool
  | bind .. | assign .. | ret .. | loop .. | brk .. => true
  | _ => false

/-- Whether an expression has a binary operator at its root. -/
def isBinary : Expr → Bool
  | binary .. => true
  | _ => false

/-- A node has the children that its production allows. -/
def Shaped : Expr → Prop
  | block .. => True
  | binary _ _ left right =>
    left.isStatement = false ∧ left.isBinary = false ∧ right.isStatement = false
  | unary _ _ operand => operand.isStatement = false ∧ operand.isBinary = false
  | loop _ condition body => condition.isStatement = false ∧ body.isBlock = true
  | e => ∀ c ∈ e.children, c.isStatement = false

/-- Tokens spell an expression, which has the shape that the grammar asks for. -/
structure ReadFrom (e : Expr) (ts : List Token) : Prop where
  spelled : Spells e.print ts
  shaped : e.Everywhere Shaped

/-- Tokens spell what can stand anywhere. -/
structure ValueFrom (e : Expr) (ts : List Token) : Prop extends e.ReadFrom ts where
  notStatement : e.isStatement = false

/-- Tokens spell what can stand before a binary operator. -/
structure OperandFrom (e : Expr) (ts : List Token) : Prop extends e.ValueFrom ts where
  notBinary : e.isBinary = false

/-- Tokens spell a block. -/
structure BlockFrom (e : Expr) (ts : List Token) : Prop extends e.ReadFrom ts where
  block : e.isBlock = true

theorem BlockFrom.operand {e : Expr} {ts : List Token} (h : e.BlockFrom ts) : e.OperandFrom ts := by
  obtain ⟨hread, hblock⟩ := h
  cases e with
  | block => exact ⟨⟨hread, rfl⟩, rfl⟩
  | _ => cases hblock

end Expr

/-- The word `unit` is no identifier. -/
def Queue.Reserved (q : Queue) : Prop := ∀ t ∈ q.tokens, t.kind ≠ .identifier "unit"

theorem Queue.Reserved.of_prepend {q : Queue} {ts : List Token} (h : (q.prepend ts).Reserved) :
    q.Reserved :=
  fun t ht => h t (List.mem_append_right _ ht)

/-! ## Laws of reading -/

namespace Rule

variable {α β : Type}

/-- Where the next token has some location and kind, what a rule gives is in a relation to the
tokens that it takes. -/
def ReadsAt (here : Location) (k : Option TokenKind) (r : Rule α) (P : List Token → α → Prop) :
    Prop :=
  ∀ q a rest, q.Reserved → q.location = here → q.head? = k → r q = .ok a rest →
    ∃ taken, q = rest.prepend taken ∧ P taken a

/-- What a rule gives is in a relation to the tokens that it takes. -/
def Reads (r : Rule α) (P : List Token → α → Prop) : Prop := ∀ here k, r.ReadsAt here k P

variable {here : Location} {k : Option TokenKind} {r : Rule α} {f : α → Rule β}
  {P : List Token → α → Prop} {Q : List Token → β → Prop}

theorem ReadsAt.bind (hr : r.ReadsAt here k P)
    (hf : ∀ ts a, P ts a → (f a).Reads fun us b => Q (ts ++ us) b) : (r >>= f).ReadsAt here k Q := by
  intro q b rest hq hhere hk h
  obtain ⟨a, mid, hra, hfa⟩ := bind_eq_ok h
  obtain ⟨ts, rfl, hts⟩ := hr q a mid hq hhere hk hra
  obtain ⟨us, rfl, hus⟩ := hf ts a hts _ _ mid b rest hq.of_prepend rfl rfl hfa
  exact ⟨ts ++ us, (Queue.prepend_append ts us rest).symm, hus⟩

theorem Reads.bind (hr : r.Reads P)
    (hf : ∀ ts a, P ts a → (f a).Reads fun us b => Q (ts ++ us) b) : (r >>= f).Reads Q :=
  fun here k => (hr here k).bind hf

theorem Reads.pure {a : α} (h : P [] a) : (Pure.pure a : Rule α).Reads P := by
  rintro here k q _ rest hq - - ⟨⟩
  exact ⟨[], rfl, h⟩

theorem ReadsAt.mono {P' : List Token → α → Prop} (hr : r.ReadsAt here k P)
    (h : ∀ ts a, P ts a → P' ts a) : r.ReadsAt here k P' := by
  intro q a rest hq hhere hk hra
  obtain ⟨ts, hts, hP⟩ := hr q a rest hq hhere hk hra
  exact ⟨ts, hts, h ts a hP⟩

theorem Reads.mono {P' : List Token → α → Prop} (hr : r.Reads P) (h : ∀ ts a, P ts a → P' ts a) :
    r.Reads P' :=
  fun here k => (hr here k).mono h

/-- What is made of the result of a rule takes no more tokens. -/
theorem Reads.map {g : α → β} (hr : r.Reads P) (h : ∀ ts a, P ts a → Q ts (g a)) :
    (r >>= fun a => Pure.pure (g a)).Reads Q := by
  refine hr.bind fun ts a hP => .pure ?_
  rw [List.append_nil]
  exact h ts a hP

/-- What a rule gives, it gives somewhere. -/
theorem Reads.run (hr : r.Reads P) :
    r.Reads fun ts a => P ts a ∧ ∃ q rest, q.Reserved ∧ r q = .ok a rest := by
  intro here k q a rest hq hhere hk hra
  obtain ⟨ts, hts, hP⟩ := hr here k q a rest hq hhere hk hra
  exact ⟨ts, hts, hP, q, rest, hq, hra⟩

theorem readsAt_fail {expected : Expected} : (fail expected : Rule α).ReadsAt here k P := by
  rintro q a rest hq - - ⟨⟩

theorem reads_exhausted : (exhausted : Rule α).Reads P := by
  rintro here k q a rest hq - - ⟨⟩

theorem ReadsAt.location {f : Location → Rule β} (h : (f here).ReadsAt here k Q) :
    (location >>= f).ReadsAt here k Q := by
  rintro q b rest hq rfl hk hb
  exact h q b rest hq rfl hk hb

theorem ReadsAt.peek {f : Option TokenKind → Rule β} (h : (f k).ReadsAt here k Q) :
    (peek >>= f).ReadsAt here k Q := by
  rintro q b rest hq hhere rfl hb
  exact h q b rest hq hhere rfl hb

/-- Taking the next token, whose location and kind are known. -/
theorem ReadsAt.skip {kind : TokenKind} {f : Unit → Rule β}
    (h : kind ≠ .identifier "unit" → (f ()).Reads fun us b => Q (⟨kind, here⟩ :: us) b) :
    (skip >>= f).ReadsAt here (some kind) Q := by
  rintro q b rest hq rfl hk hb
  have hsplit := Queue.eq_prepend_of_head? hk
  have hkind : kind ≠ .identifier "unit" := by
    refine hq ⟨kind, q.location⟩ ?_
    rw [hsplit]
    exact List.mem_cons_self
  rw [hsplit] at hq
  obtain ⟨us, hus, hQ⟩ := h hkind _ _ q.tail b rest hq.of_prepend rfl rfl hb
  refine ⟨⟨kind, q.location⟩ :: us, ?_, hQ⟩
  rw [hsplit, hus]
  rfl

/-- Taking two tokens if the second one is of a given kind. -/
theorem ReadsAt.peekSecond {kind second : TokenKind} {f : Unit → Rule β} {r : Rule β}
    (hf : ∀ l, (f ()).Reads fun us b => Q (⟨kind, here⟩ :: ⟨second, l⟩ :: us) b)
    (hr : r.ReadsAt here (some kind) Q) :
    (Rule.peekSecond >>= fun k' =>
      if k' = some second then Rule.skip >>= fun _ => Rule.skip >>= f else r).ReadsAt
      here (some kind) Q := by
  intro q b rest hq hhere hk hb
  change (if q.tail.head? = some second then Rule.skip >>= fun _ => Rule.skip >>= f else r) q = _
    at hb
  split at hb
  · rename_i hsecond
    have htail := Queue.eq_prepend_of_head? hsecond
    have hsplit := Queue.eq_prepend_of_head? hk
    rw [hhere] at hsplit
    rw [hsplit, htail] at hq
    obtain ⟨us, hus, hQ⟩ := hf _ _ _ q.tail.tail b rest hq.of_prepend.of_prepend rfl rfl hb
    refine ⟨⟨kind, here⟩ :: ⟨second, q.tail.location⟩ :: us, ?_, hQ⟩
    rw [hsplit, htail, hus]
    rfl
  · exact hr q b rest hq hhere hk hb

theorem readsAt_expect (kind : TokenKind) (construct : Construct) :
    (expect kind construct).ReadsAt here k fun ts _ => ts = [⟨kind, here⟩] := by
  rintro q a rest hq rfl hk h
  unfold expect at h
  split at h
  · rename_i hhead
    cases h
    exact ⟨_, Queue.eq_prepend_of_head? hhead, rfl⟩
  · cases h

theorem reads_expect (kind : TokenKind) (construct : Construct) :
    (expect kind construct).Reads fun ts _ => ∃ l, ts = [⟨kind, l⟩] := by
  intro here k q a rest hq hhere hk h
  obtain ⟨ts, hts, rfl⟩ := readsAt_expect kind construct q a rest hq hhere hk h
  exact ⟨_, hts, here, rfl⟩

theorem reads_accept (kind : TokenKind) : (accept kind).Reads fun ts taken =>
    (taken = true ∧ ∃ l, ts = [⟨kind, l⟩]) ∨ (taken = false ∧ ts = []) := by
  intro here k q a rest hq hhere hk h
  unfold accept at h
  split at h
  · rename_i hhead
    cases h
    exact ⟨_, Queue.eq_prepend_of_head? hhead, .inl ⟨rfl, _, rfl⟩⟩
  · cases h
    exact ⟨[], rfl, .inr ⟨rfl, rfl⟩⟩

end Rule

/-! ## Expressions -/

theorem BinaryOp.eq_token {k : Option TokenKind} {op : BinaryOp} (h : k.bind ofToken? = some op) :
    k = some op.token := by
  obtain ⟨kind, rfl, hkind⟩ := Option.bind_eq_some_iff.1 h
  rw [ofToken?_eq_some_iff.1 hkind]

theorem UnaryOp.eq_token {k : Option TokenKind} {op : UnaryOp} (h : k.bind ofToken? = some op) :
    k = some op.token := by
  obtain ⟨kind, rfl, hkind⟩ := Option.bind_eq_some_iff.1 h
  rw [ofToken?_eq_some_iff.1 hkind]

namespace Grammar

open Rule

theorem reads_ident (construct : Construct) :
    (ident construct).Reads fun ts i => Spells i.print ts := by
  unfold ident
  intro here k
  refine .location (.peek ?_)
  split
  · exact .skip fun _ => .pure (.start (.token .nil))
  · exact readsAt_fail

theorem readsAt_typeRef {here : Location} {k : Option TokenKind} (construct : Construct) :
    (typeRef construct).ReadsAt here k fun ts t => Spells t.print ts ∧ t.location = here := by
  unfold typeRef
  refine .location (.peek ?_)
  split
  · rename_i name
    refine .skip fun hname => .pure ⟨?_, rfl⟩
    have htoken : (TypeRef.ofName name here).token = .identifier name :=
      if_neg fun heq => hname (congrArg TokenKind.identifier heq)
    rw [TypeRef.print, htoken]
    exact .start (.token .nil)
  · exact .skip fun _ => .pure ⟨.start (.token .nil), rfl⟩
  · exact readsAt_fail

theorem reads_typeRef (construct : Construct) :
    (typeRef construct).Reads fun ts t => Spells t.print ts :=
  fun _ _ => (readsAt_typeRef construct).mono fun _ _ h => h.1

/-- The inside of a block and its closing brace. -/
structure StatementsFrom (ts : List Token) (r : List Expr × Option Expr) : Prop where
  spelled : Spells (terminated (printAll r.1) ++ (printOpt [] r.2 ++ [.token .rbrace])) ts
  shaped : ∀ e ∈ r.1 ++ r.2.toList, e.Everywhere Expr.Shaped

/-- All of some expressions can stand anywhere. -/
def AreValues (es : List Expr) : Prop :=
  ∀ e ∈ es, e.isStatement = false ∧ e.Everywhere Expr.Shaped

/-- What the rules for expressions read with some budget. -/
structure ReadsAll (n : Nat) : Prop where
  block : (block n).Reads fun ts e => e.BlockFrom ts
  statements : (statements n).Reads StatementsFrom
  expression : (expression n).Reads fun ts e => e.ReadFrom ts
  value : (value n).Reads fun ts e => e.ValueFrom ts
  unary : (unary n).Reads fun ts e => e.OperandFrom ts
  primary : (primary n).Reads fun ts e => e.OperandFrom ts
  arguments : (arguments n).Reads fun ts es =>
    Spells (parenthesized (separated (printAll es))) ts ∧ AreValues es
  argumentList : (argumentList n).Reads fun ts es =>
    es ≠ [] ∧ Spells (separated (printAll es)) ts ∧ AreValues es

section
variable {n : Nat} (ih : ReadsAll n)
include ih

theorem reads_block : (block (n + 1)).Reads fun ts e => e.BlockFrom ts := by
  rw [block]
  intro here k
  refine .location (.bind (readsAt_expect _ _) ?_)
  rintro _ - rfl
  refine ih.statements.map fun ts r hr => ⟨⟨.start (.token hr.spelled), ?_⟩, rfl⟩
  exact Expr.everywhere_iff.2 ⟨trivial, hr.shaped⟩

theorem reads_statements : (statements (n + 1)).Reads StatementsFrom := by
  rw [statements]
  refine (reads_accept _).bind ?_
  rintro _ _ (⟨rfl, l, rfl⟩ | ⟨rfl, rfl⟩)
  · exact .pure ⟨.token .nil, by simp⟩
  · refine ih.expression.bind fun ts first hfirst => (reads_accept _).bind ?_
    rintro _ _ (⟨rfl, l, rfl⟩ | ⟨rfl, rfl⟩)
    · refine ih.statements.map fun us r hr => ⟨?_, ?_⟩
      · simpa [terminated, printAll] using hfirst.spelled.append (.token hr.spelled)
      · exact List.forall_mem_cons.2 ⟨hfirst.shaped, hr.shaped⟩
    · refine (reads_expect _ _).map ?_
      rintro _ - ⟨l, rfl⟩
      refine ⟨?_, by simpa using hfirst.shaped⟩
      simpa [terminated, printAll, printOpt] using hfirst.spelled.append (.token .nil)

theorem reads_expression : (expression (n + 1)).Reads fun ts e => e.ReadFrom ts := by
  have hvalue := ih.value.mono fun _ _ he => Expr.ValueFrom.toReadFrom he
  rw [expression]
  intro here k
  refine .location (.peek ?_)
  split
  · refine .skip fun _ => ih.value.map fun ts v hv => ⟨.start (.token hv.spelled), ?_⟩
    exact Expr.everywhere_iff.2 ⟨by simpa [Expr.Shaped, Expr.children] using hv.notStatement,
      by simpa [Expr.children] using hv.shaped⟩
  · refine .skip fun _ => (reads_ident _).bind fun ts name hname => (reads_expect _ _).bind ?_
    rintro _ - ⟨colon, rfl⟩
    refine (reads_typeRef _).bind fun us type htype => (reads_expect _ _).bind ?_
    rintro _ - ⟨assign, rfl⟩
    refine ih.value.map fun vs v hv =>
      ⟨.start (.token (hname.append (.token (htype.append (.token hv.spelled))))), ?_⟩
    exact Expr.everywhere_iff.2 ⟨by simpa [Expr.Shaped, Expr.children] using hv.notStatement,
      by simpa [Expr.children] using hv.shaped⟩
  · refine .skip fun _ => ih.value.bind fun ts c hc => ih.block.map fun us b hb =>
      ⟨.start (.token (hc.spelled.append hb.spelled)), ?_⟩
    exact Expr.everywhere_iff.2 ⟨⟨hc.notStatement, hb.block⟩,
      by simpa [Expr.children] using ⟨hc.shaped, hb.shaped⟩⟩
  · refine .skip fun _ => .pure ⟨.start (.token .nil), ?_⟩
    exact Expr.everywhere_iff.2 ⟨by simp [Expr.Shaped, Expr.children], by simp [Expr.children]⟩
  · refine .peekSecond (fun l => ih.value.map fun ts v hv =>
      ⟨.start (.start (.token (.token hv.spelled))), ?_⟩) (hvalue _ _)
    exact Expr.everywhere_iff.2 ⟨by simpa [Expr.Shaped, Expr.children] using hv.notStatement,
      by simpa [Expr.children] using hv.shaped⟩
  · exact hvalue _ _

theorem reads_value : (value (n + 1)).Reads fun ts e => e.ValueFrom ts := by
  rw [value]
  refine ih.unary.bind fun ts left hleft here k => .peek ?_
  split
  · rename_i op hop
    obtain rfl := BinaryOp.eq_token hop
    refine .skip fun _ => ih.value.map fun us right hright => ⟨⟨?_, ?_⟩, rfl⟩
    · exact Expr.spells_again (hleft.spelled.append (.token hright.spelled))
    · exact Expr.everywhere_iff.2 ⟨⟨hleft.notStatement, hleft.notBinary, hright.notStatement⟩,
        by simpa [Expr.children] using ⟨hleft.shaped, hright.shaped⟩⟩
  · refine Reads.pure ?_ _ _
    rw [List.append_nil]
    exact hleft.toValueFrom

theorem reads_unary : (unary (n + 1)).Reads fun ts e => e.OperandFrom ts := by
  rw [unary]
  intro here k
  refine .location (.peek ?_)
  split
  · rename_i op hop
    obtain rfl := UnaryOp.eq_token hop
    refine .skip fun _ => ih.unary.map fun ts operand hoperand =>
      ⟨⟨⟨.start (.token hoperand.spelled), ?_⟩, rfl⟩, rfl⟩
    exact Expr.everywhere_iff.2 ⟨⟨hoperand.notStatement, hoperand.notBinary⟩,
      by simpa [Expr.children] using hoperand.shaped⟩
  · exact ih.primary _ _

theorem reads_primary : (primary (n + 1)).Reads fun ts e => e.OperandFrom ts := by
  rw [primary]
  intro here k
  refine .location (.peek ?_)
  split
  · refine .skip fun _ => .pure ⟨⟨⟨.start (.token .nil), ?_⟩, rfl⟩, rfl⟩
    exact Expr.everywhere_iff.2 ⟨by simp [Expr.Shaped, Expr.children], by simp [Expr.children]⟩
  · refine .skip fun _ _ _ => .peek ?_
    split
    · refine ih.arguments.map ?_ _ _
      rintro ts args ⟨hspelled, hargs⟩
      refine ⟨⟨⟨.start (.start (.token hspelled)), ?_⟩, rfl⟩, rfl⟩
      exact Expr.everywhere_iff.2 ⟨fun e he => (hargs e he).1, fun e he => (hargs e he).2⟩
    · refine Reads.pure ⟨⟨⟨.start (.start (.token .nil)), ?_⟩, rfl⟩, rfl⟩ _ _
      exact Expr.everywhere_iff.2 ⟨by simp [Expr.Shaped, Expr.children], by simp [Expr.children]⟩
  · refine .skip fun _ => ih.value.bind fun ts inner hinner => (reads_expect _ _).map ?_
    rintro _ - ⟨l, rfl⟩
    refine ⟨⟨⟨.start hinner.spelled.parenthesized, ?_⟩, rfl⟩, rfl⟩
    exact Expr.everywhere_iff.2 ⟨by simpa [Expr.Shaped, Expr.children] using hinner.notStatement,
      by simpa [Expr.children] using hinner.shaped⟩
  · exact (ih.block.mono fun _ _ he => he.operand) _ _
  · refine .skip fun _ => ih.value.bind fun ts c hc => ih.value.bind fun us t ht =>
      (reads_accept _).bind ?_
    rintro _ _ (⟨rfl, l, rfl⟩ | ⟨rfl, rfl⟩)
    · refine ih.value.map fun vs e he => ⟨⟨⟨.start (.token (hc.spelled.append
        (ht.spelled.append (.token he.spelled)))), ?_⟩, rfl⟩, rfl⟩
      exact Expr.everywhere_iff.2
        ⟨by simpa [Expr.Shaped, Expr.children] using
            ⟨hc.notStatement, ht.notStatement, he.notStatement⟩,
          by simpa [Expr.children] using ⟨hc.shaped, ht.shaped, he.shaped⟩⟩
    · refine .pure ⟨⟨⟨.start (.token (hc.spelled.append (ht.spelled.append .nil))), ?_⟩, rfl⟩, rfl⟩
      exact Expr.everywhere_iff.2
        ⟨by simpa [Expr.Shaped, Expr.children] using ⟨hc.notStatement, ht.notStatement⟩,
          by simpa [Expr.children] using ⟨hc.shaped, ht.shaped⟩⟩
  · exact readsAt_fail

theorem reads_arguments : (arguments (n + 1)).Reads fun ts es =>
    Spells (parenthesized (separated (printAll es))) ts ∧ AreValues es := by
  rw [arguments]
  refine (reads_expect _ _).bind ?_
  rintro _ - ⟨l, rfl⟩ here k
  refine .peek ?_
  split
  · rename_i hk
    obtain rfl := hk
    exact .skip fun _ => .pure ⟨Spells.nil.parenthesized, List.forall_mem_nil _⟩
  · refine ih.argumentList.bind (fun us es hes => (reads_expect _ _).map ?_) _ _
    rintro _ - ⟨l', rfl⟩
    exact ⟨hes.2.1.parenthesized, hes.2.2⟩

theorem reads_argumentList : (argumentList (n + 1)).Reads fun ts es =>
    es ≠ [] ∧ Spells (separated (printAll es)) ts ∧ AreValues es := by
  rw [argumentList]
  refine ih.value.bind fun ts first hfirst => (reads_accept _).bind ?_
  rintro _ _ (⟨rfl, l, rfl⟩ | ⟨rfl, rfl⟩)
  · refine ih.argumentList.map ?_
    rintro us es ⟨hne, hspelled, hes⟩
    refine ⟨List.cons_ne_nil _ _, ?_, ?_⟩
    · obtain ⟨second, others, rfl⟩ := List.exists_cons_of_ne_nil hne
      exact hfirst.spelled.append (.token hspelled)
    · exact List.forall_mem_cons.2 ⟨⟨hfirst.notStatement, hfirst.shaped⟩, hes⟩
  · refine .pure ⟨List.cons_ne_nil _ _, ?_, ?_⟩
    · simpa [printAll, separated] using hfirst.spelled
    · simpa [AreValues] using ⟨hfirst.notStatement, hfirst.shaped⟩

end

theorem readsAll (n : Nat) : ReadsAll n := by
  induction n with
  | zero => constructor <;> exact reads_exhausted
  | succ n ih =>
    exact ⟨reads_block ih, reads_statements ih, reads_expression ih, reads_value ih,
      reads_unary ih, reads_primary ih, reads_arguments ih, reads_argumentList ih⟩

end Grammar

/-! ## Programs -/

/-- A declaration is what its rule gives somewhere. -/
def Decl.Read : Decl → Prop
  | .function f => ∃ n q rest, q.Reserved ∧ Grammar.function n q = .ok f rest
  | .external e _ => ∃ n q rest, q.Reserved ∧ Grammar.external n q = .ok e rest

namespace Grammar

open Rule

theorem printParams_cons {variadic : Bool} {ps : List Param} (h : ps ≠ [] ∨ variadic = true)
    (p : Param) : printParams variadic (p :: ps) =
      p.print ++ .token .comma :: printParams variadic ps := by
  obtain ⟨second, others, heq⟩ : ∃ second others,
      ps.map Param.print ++ (if variadic then [[Mark.token .ellipsis]] else []) =
        second :: others := by
    rcases h with h | rfl
    · obtain ⟨q, qs, rfl⟩ := List.exists_cons_of_ne_nil h
      exact ⟨_, _, rfl⟩
    · cases ps <;> exact ⟨_, _, rfl⟩
  simp only [printParams, List.map_cons, List.cons_append, heq, separated]

theorem reads_paramList (allowVariadic : Bool) (n : Nat) : (paramList allowVariadic n).Reads
    fun ts r => (r.1 ≠ [] ∨ r.2 = true) ∧ Spells (printParams r.2 r.1) ts ∧
      (r.2 = true → allowVariadic = true) := by
  induction n with
  | zero => exact reads_exhausted
  | succ n ih =>
    rw [paramList]
    intro here k
    refine .peek ?_
    split
    · rename_i hk
      simp only [Bool.and_eq_true, decide_eq_true_eq] at hk
      obtain ⟨hallow, rfl⟩ := hk
      exact .skip fun _ => .pure ⟨.inr rfl, .token .nil, fun _ => hallow⟩
    · refine Reads.bind (reads_typeRef _) (fun ts type htype => (reads_ident _).bind
        fun us name hname => (reads_accept _).bind ?_) _ _
      rintro _ _ (⟨rfl, l, rfl⟩ | ⟨rfl, rfl⟩)
      · refine ih.map ?_
        rintro vs ⟨others, variadic⟩ ⟨hne, hspelled, hvariadic⟩
        refine ⟨.inl (List.cons_ne_nil _ _), ?_, hvariadic⟩
        rw [printParams_cons hne]
        simpa [Param.print] using (htype.append hname).append (.token hspelled)
      · refine .pure ⟨.inl (List.cons_ne_nil _ _), ?_, by simp⟩
        simpa [printParams, separated, Param.print] using htype.append hname

theorem reads_params (allowVariadic : Bool) (n : Nat) : (params allowVariadic n).Reads
    fun ts r => Spells (parenthesized (printParams r.2 r.1)) ts ∧
      (r.2 = true → allowVariadic = true) := by
  unfold params
  refine (reads_expect _ _).bind ?_
  rintro _ - ⟨l, rfl⟩ here k
  refine .peek ?_
  split
  · rename_i hk
    obtain rfl := hk
    exact .skip fun _ => .pure ⟨Spells.nil.parenthesized, by simp⟩
  · refine Reads.bind (reads_paramList allowVariadic n)
      (fun us r hr => (reads_expect _ _).map ?_) _ _
    rintro _ - ⟨l', rfl⟩
    exact ⟨hr.2.1.parenthesized, hr.2.2⟩

theorem reads_function (n : Nat) : (function n).Reads
    fun ts f => Spells f.print ts ∧ f.body.isBlock = true ∧ f.body.Everywhere Expr.Shaped := by
  unfold function
  intro here k
  refine .location (.bind (readsAt_typeRef _) ?_)
  rintro ts returns ⟨hreturns, rfl⟩
  refine (reads_ident _).bind fun us name hname => (reads_params _ n).bind ?_
  rintro vs ⟨ps, variadic⟩ ⟨hps, hvariadic⟩
  obtain rfl : variadic = false := by simpa using hvariadic
  refine (readsAll n).block.map fun ws body hbody => ⟨?_, hbody.block, hbody.shaped⟩
  exact (hreturns.append (hname.append (hps.append hbody.spelled))).again

/-- The declaration of an external function without its semicolon. -/
def heading (n : Nat) : Rule External := do
  let here ← location
  expect .kwExtrn .externalDeclaration
  let returns ← typeRef .externalDeclaration
  let name ← ident .externalDeclaration
  let (ps, variadic) ← params true n
  return ⟨name, returns, ps, variadic, here⟩

theorem external_eq (n : Nat) : external n = (do
    let e ← heading n
    let _ ← accept .semicolon
    return e) := by
  simp only [external, heading, bind_bind, Rule.pure_bind]

theorem reads_heading (n : Nat) : (heading n).Reads fun ts e => Spells e.print ts := by
  unfold heading
  intro here k
  refine .location (.bind (readsAt_expect _ _) ?_)
  rintro _ - rfl
  refine (reads_typeRef _).bind fun ts returns hreturns => (reads_ident _).bind fun us name hname =>
    (reads_params _ n).map ?_
  rintro vs ⟨ps, variadic⟩ ⟨hps, -⟩
  exact .start (.token (hreturns.append (hname.append hps)))

theorem reads_external (n : Nat) : (external n).Reads
    fun ts e => ∃ closed, Spells (Decl.external e closed).print ts := by
  rw [external_eq]
  refine (reads_heading n).bind fun ts e hspelled => (reads_accept _).map ?_
  rintro _ _ (⟨rfl, l, rfl⟩ | ⟨rfl, rfl⟩)
  · have hclosed : Spells [.token .semicolon] [⟨.semicolon, l⟩] := .token .nil
    exact ⟨true, hspelled.append hclosed⟩
  · exact ⟨false, hspelled.append .nil⟩

/-- The declarations of a program one after another. -/
theorem declarations_succ (n : Nat) : declarations (n + 1) = (do
    let k ← peek
    if k = none ∨ k = some .endOfFile then
      return ([], [])
    else if k = some .kwExtrn then
      let e ← external n
      let (functions, externals) ← declarations n
      return (functions, e :: externals)
    else
      let f ← function n
      let (functions, externals) ← declarations n
      return (f :: functions, externals)) := by
  funext q
  rw [declarations, peek_bind]
  dsimp only
  by_cases hend : q.atEnd = true
  · rw [if_pos hend, if_pos (Queue.atEnd_iff.1 hend)]
    rfl
  · rw [if_neg hend, if_neg fun h => hend (Queue.atEnd_iff.2 h)]
    split <;> rfl

theorem atEnd_of_declarations {n : Nat} {q rest : Queue} {r : List Function × List External}
    (h : declarations n q = .ok r rest) : rest.atEnd = true := by
  induction n generalizing q r with
  | zero => cases h
  | succ n ih =>
    rw [declarations] at h
    dsimp only at h
    split at h
    · cases h
      assumption
    · split at h
      all_goals
        obtain ⟨_, mid, -, h₁⟩ := bind_eq_ok h
        obtain ⟨_, mid', hothers, h₂⟩ := bind_eq_ok h₁
        cases h₂
        exact ih hothers

/-- Tokens spell declarations that have been read. -/
def DeclarationsFrom (ts : List Token) (r : List Function × List External) : Prop :=
  ∃ ds : List Decl, Spells (ds.flatMap Decl.print) ts ∧ (∀ d ∈ ds, d.Read) ∧
    r.1 = ds.filterMap Decl.function? ∧ r.2 = ds.filterMap Decl.external?

theorem reads_declarations (n : Nat) : (declarations n).Reads DeclarationsFrom := by
  induction n with
  | zero => exact reads_exhausted
  | succ n ih =>
    rw [declarations_succ]
    intro here k
    refine .peek ?_
    split
    · exact Reads.pure ⟨[], .nil, List.forall_mem_nil _, rfl, rfl⟩ _ _
    · split
      · refine (reads_external n).run.bind (fun ts e he => ih.map ?_) _ _
        obtain ⟨⟨closed, hspelled⟩, hrun⟩ := he
        rintro us r ⟨ds, hds, hread, hfunctions, hexternals⟩
        refine ⟨.external e closed :: ds, hspelled.append hds, ?_, hfunctions, ?_⟩
        · exact List.forall_mem_cons.2 ⟨⟨n, hrun⟩, hread⟩
        · exact congrArg (e :: ·) hexternals
      · refine (reads_function n).run.bind (fun ts f hf => ih.map ?_) _ _
        obtain ⟨⟨hspelled, -⟩, hrun⟩ := hf
        rintro us r ⟨ds, hds, hread, hfunctions, hexternals⟩
        refine ⟨.function f :: ds, hspelled.append hds, ?_, ?_, hexternals⟩
        · exact List.forall_mem_cons.2 ⟨⟨n, hrun⟩, hread⟩
        · exact congrArg (f :: ·) hfunctions

/-- An expression is what has been taken from the front of a queue. -/
structure TakenAs (q rest : Queue) (e : Expr) : Prop where
  shaped : e.Everywhere Expr.Shaped
  taken : ∃ taken, taken ≠ [] ∧ q = rest.prepend taken ∧ taken.map Token.kind = e.yield ∧
    Spells e.print taken ∧ e.LocatedIn taken

theorem takenAs_of_reads {r : Rule Expr} {P : List Token → Expr → Prop} (hr : r.Reads P)
    (hP : ∀ ts e, P ts e → e.ReadFrom ts) {q rest : Queue} {e : Expr} (hq : q.Reserved)
    (h : r q = .ok e rest) : TakenAs q rest e := by
  obtain ⟨taken, hsplit, hP'⟩ := hr _ _ q e rest hq rfl rfl h
  obtain ⟨hspelled, hshaped⟩ := hP taken e hP'
  exact ⟨hshaped, taken, Expr.ne_nil_of_spells hspelled, hsplit, hspelled.kinds, hspelled,
    Expr.locatedIn_of_spells hspelled List.infix_rfl⟩

end Grammar

/-! ## Tokens of a text -/

theorem Lexeme.Fits.ne_unit {kind : TokenKind} {rest : List Char} (h : Lexeme.Fits kind rest) :
    kind ≠ .identifier "unit" := by
  rintro rfl
  cases h with
  | keyword hk => exact absurd hk (by decide)
  | identifier _ _ hliteral => exact hliteral (by decide)
  | symbol hk => exact absurd hk (by decide)

theorem Lexed.fits {file : String} {before text behind : List Char} {ts : List Token}
    (h : Lexed file before text ts behind) : ∀ t ∈ ts, ∃ rest, Lexeme.Fits t.kind rest := by
  induction h with
  | stop => exact List.forall_mem_nil _
  | token _ hfits _ ih => exact List.forall_mem_cons.2 ⟨⟨_, hfits⟩, ih⟩

/-- The tokens of a text end in the end of the text, which is not found before. -/
theorem tokenize_eq_ok {file source : String} {ts : List Token}
    (h : tokenize file source = .ok ts) : ∃ read l, ts = read ++ [⟨.endOfFile, l⟩] ∧
      ∀ t ∈ read, t.kind ≠ .endOfFile ∧ t.kind ≠ .identifier "unit" := by
  have hstart : (Cursor.start file source).location = .behind file [] := rfl
  have hlexed := Cursor.tokens_lexed hstart
  rw [show (Cursor.start file source).tokens = .ok ts from h] at hlexed
  obtain ⟨read, rfl, hread⟩ := hlexed
  refine ⟨read, _, rfl, fun t ht => ?_⟩
  obtain ⟨rest, hfits⟩ := hread.fits t ht
  exact ⟨hfits.ne_endOfFile, hfits.ne_unit⟩

theorem Queue.reserved_of_suffix {read : List Token} {l : Location} {q : Queue}
    (hread : ∀ t ∈ read, t.kind ≠ .endOfFile ∧ t.kind ≠ .identifier "unit")
    (h : q.tokens <:+ read ++ [⟨.endOfFile, l⟩]) : q.Reserved := by
  intro t ht
  rcases List.mem_append.1 (h.subset ht) with hmem | hmem
  · exact (hread t hmem).2
  · rw [List.mem_singleton.1 hmem]
    nofun

/-- Reading stops in front of the end of a text and no sooner. -/
theorem eq_of_atEnd {read taken : List Token} {l : Location} {rest : Queue}
    (hread : ∀ t ∈ read, t.kind ≠ .endOfFile) (htaken : ∀ t ∈ taken, t.kind ≠ .endOfFile)
    (h : read ++ [⟨.endOfFile, l⟩] = taken ++ rest.tokens) (hend : rest.atEnd = true) :
    taken = read ∧ rest.tokens = [⟨.endOfFile, l⟩] := by
  rcases List.append_eq_append_iff.1 h with ⟨between, rfl, hbetween⟩ | ⟨between, rfl, hbetween⟩
  · cases between with
    | nil => exact ⟨List.append_nil _, hbetween.symm⟩
    | cons t between =>
      obtain ⟨rfl, -⟩ := List.cons.inj hbetween
      exact absurd rfl (htaken _ (List.mem_append_right _ List.mem_cons_self))
  · cases between with
    | nil => exact ⟨(List.append_nil _).symm, hbetween⟩
    | cons t between =>
      have hhead : rest.head? = some t.kind := by
        rw [Queue.head?, hbetween]
        rfl
      rcases Queue.atEnd_iff.1 hend with hnone | hsome
      · rw [hhead] at hnone
        cases hnone
      · rw [hhead] at hsome
        exact absurd (Option.some.inj hsome) (hread t (List.mem_append_right _ List.mem_cons_self))

theorem parse_eq_ok {ts : List Token} {p : Program} (h : parse ts = .ok p) :
    ∃ rest, Grammar.declarations (Grammar.budget (.ofTokens ts)) (.ofTokens ts) =
      .ok (p.functions, p.externals) rest ∧ p.table = #[] := by
  unfold parse at h
  cases hrun : Grammar.program (.ofTokens ts) with
  | error e rest => rw [hrun] at h; cases h
  | ok q rest =>
    rw [hrun] at h
    cases h
    obtain ⟨r, mid, hr, hpure⟩ := Rule.bind_eq_ok hrun
    cases hpure
    exact ⟨rest, hr, rfl⟩

/-- The declarations of a text are spelled by all of its tokens. -/
theorem exists_declarations {file source : String} {ts : List Token} {p : Program}
    (hts : tokenize file source = .ok ts) (hp : parse ts = .ok p) :
    ∃ (read : List Token) (l : Location) (ds : List Decl), ts = read ++ [⟨.endOfFile, l⟩] ∧
      Spells (ds.flatMap Decl.print) read ∧ p.functions = ds.filterMap Decl.function? := by
  obtain ⟨read, l, rfl, hread⟩ := tokenize_eq_ok hts
  obtain ⟨rest, hrun, -⟩ := parse_eq_ok hp
  have hreserved : (Queue.ofTokens (read ++ [⟨.endOfFile, l⟩])).Reserved :=
    Queue.reserved_of_suffix hread List.suffix_rfl
  obtain ⟨taken, hsplit, ds, hspelled, -, hfunctions, -⟩ :=
    Grammar.reads_declarations _ _ _ _ _ _ hreserved rfl rfl hrun
  -- Declarations are read to the end of the file, so what they took is all that there is.
  obtain ⟨rfl, -⟩ := eq_of_atEnd (fun t ht => (hread t ht).1) hspelled.ne_endOfFile
    (congrArg Queue.tokens hsplit) (Grammar.atEnd_of_declarations hrun)
  exact ⟨taken, l, ds, rfl, hspelled, hfunctions⟩

/-- What is printed of a function that was read is a token of the text. -/
theorem exists_token_of_print {file source : String} {ts : List Token} {p : Program}
    (hts : tokenize file source = .ok ts) (hp : parse ts = .ok p) {f : Function}
    (hf : f ∈ p.functions) {kind : TokenKind} (hkind : .token kind ∈ f.print) :
    ∃ t ∈ ts, t.kind = kind := by
  obtain ⟨read, l, ds, rfl, hspelled, hfunctions⟩ := exists_declarations hts hp
  rw [hfunctions] at hf
  obtain ⟨d, hd, hdf⟩ := List.mem_filterMap.1 hf
  cases d with
  | external => cases hdf
  | function g =>
    cases hdf
    have hread : kind ∈ read.map Token.kind := by
      rw [hspelled.kinds]
      exact List.mem_filterMap.2 ⟨_, List.mem_flatMap.2 ⟨_, hd, hkind⟩, rfl⟩
    obtain ⟨t, ht, rfl⟩ := List.mem_map.1 hread
    exact ⟨t, List.mem_append_left _ ht, rfl⟩

theorem Function.print_body_infix (f : Function) : f.body.print <:+: f.print :=
  ⟨.start f.location :: (f.returns.print ++ (f.ident.print ++
    parenthesized (printParams false f.params))), [], by simp [Function.print]⟩

theorem Function.print_body_within {f : Function} {ds : List Decl} (h : .function f ∈ ds) :
    f.body.print <:+: ds.flatMap Decl.print := by
  obtain ⟨before, behind, rfl⟩ := List.append_of_mem h
  refine f.print_body_infix.trans ⟨before.flatMap Decl.print, behind.flatMap Decl.print, ?_⟩
  simp [Decl.print]

/-- What the grammar reads in the tokens of a text is spelled by the tokens that it takes: a program
by all of them up to the end, declaration by declaration, an expression by those from the front of
the queue. Trees have the shape of their productions, and every node starts where its first token
does. -/
theorem parse_spelled {file source : String} {ts : List Token}
    (h : tokenize file source = .ok ts) :
    (∀ p, parse ts = .ok p → ∃ (ds : List Decl) (read : List Token) (l : Location),
      ts = read ++ [⟨.endOfFile, l⟩] ∧ read.map Token.kind = ds.flatMap Decl.yield ∧
      Spells (ds.flatMap Decl.print) read ∧
      p.functions = ds.filterMap Decl.function? ∧ p.externals = ds.filterMap Decl.external? ∧
      ∀ f ∈ p.functions, f.body.isBlock = true ∧ f.body.Everywhere Expr.Shaped ∧
        f.body.LocatedIn read) ∧
    ∀ q e rest, q.tokens <:+ ts →
      (Grammar.withBudget Grammar.value q = .ok e rest →
        e.isStatement = false ∧ Grammar.TakenAs q rest e) ∧
      (Grammar.withBudget Grammar.expression q = .ok e rest → Grammar.TakenAs q rest e) ∧
      (Grammar.withBudget Grammar.block q = .ok e rest →
        e.isBlock = true ∧ Grammar.TakenAs q rest e) := by
  obtain ⟨read, l, rfl, hread⟩ := tokenize_eq_ok h
  constructor
  · intro p hp
    obtain ⟨rest, hrun, -⟩ := parse_eq_ok hp
    have hreserved : (Queue.ofTokens (read ++ [⟨.endOfFile, l⟩])).Reserved :=
      Queue.reserved_of_suffix hread List.suffix_rfl
    obtain ⟨taken, hsplit, ds, hspelled, hds, hfunctions, hexternals⟩ :=
      Grammar.reads_declarations _ _ _ _ _ _ hreserved rfl rfl hrun
    dsimp only at hfunctions hexternals
    -- The declarations end before the end of the text, which only the last token is.
    obtain ⟨rfl, -⟩ := eq_of_atEnd (fun t ht => (hread t ht).1) hspelled.ne_endOfFile
      (congrArg Queue.tokens hsplit) (Grammar.atEnd_of_declarations hrun)
    refine ⟨ds, taken, l, rfl, ?_, hspelled, hfunctions, hexternals, fun f hf => ?_⟩
    · rw [hspelled.kinds, yieldOf, List.filterMap_flatMap]
      rfl
    · rw [hfunctions] at hf
      obtain ⟨d, hd, hdf⟩ := List.mem_filterMap.1 hf
      cases d with
      | external => cases hdf
      | function g =>
        cases hdf
        obtain ⟨n, q, rest, hq, hrun⟩ := hds _ hd
        obtain ⟨-, -, -, hblock, hshaped⟩ := Grammar.reads_function n _ _ q f rest hq rfl rfl hrun
        exact ⟨hblock, hshaped, Expr.locatedIn_of_spells hspelled (Function.print_body_within hd)⟩
  · intro q e rest hq
    have hreserved := Queue.reserved_of_suffix hread hq
    have hreads := Grammar.readsAll (Grammar.budget q)
    refine ⟨fun hrun => ?_, fun hrun => ?_, fun hrun => ?_⟩
    · refine ⟨?_, Grammar.takenAs_of_reads hreads.value (fun _ _ he => he.toReadFrom) hreserved hrun⟩
      obtain ⟨_, -, he⟩ := hreads.value _ _ q e rest hreserved rfl rfl hrun
      exact he.notStatement
    · exact Grammar.takenAs_of_reads hreads.expression (fun _ _ he => he) hreserved hrun
    · refine ⟨?_, Grammar.takenAs_of_reads hreads.block (fun _ _ he => he.toReadFrom) hreserved hrun⟩
      obtain ⟨_, -, he⟩ := hreads.block _ _ q e rest hreserved rfl rfl hrun
      exact he.block

/-- A text with declarations and expressions of all kinds. -/
def Grammar.sampleText : String :=
  "extrn int printf(...); extrn unit f(int n) int main(int n, string s) " ++
    braced ("let m: int = -n + 1 * 2; m = f(m, (n)); while m " ++ braced "break" ++
      "; if m " ++ braced "return 1" ++ " else !m")

theorem parse_spelled_sample :
    ∃ ts p, tokenize "main" Grammar.sampleText = .ok ts ∧ parse ts = .ok p ∧
      p.functions.length = 1 ∧ p.externals.length = 2 ∧
      (∃ (ds : List Decl) (read : List Token) (l : Location),
        ts = read ++ [⟨.endOfFile, l⟩] ∧ read.map Token.kind = ds.flatMap Decl.yield ∧
        Spells (ds.flatMap Decl.print) read ∧
        p.functions = ds.filterMap Decl.function? ∧ p.externals = ds.filterMap Decl.external? ∧
        ∀ f ∈ p.functions, f.body.isBlock = true ∧ f.body.Everywhere Expr.Shaped ∧
          f.body.LocatedIn read) ∧
      ∃ e rest, Grammar.withBudget Grammar.block (.ofTokens (ts.drop 23)) = .ok e rest ∧
        rest.tokens.length = 1 ∧ e.isBlock = true ∧
        Grammar.TakenAs (.ofTokens (ts.drop 23)) rest e := by
  have hcheck : (tokenize "main" Grammar.sampleText).toOption.any fun ts =>
      (parse ts).toOption.any (fun p =>
        decide (p.functions.length = 1 ∧ p.externals.length = 2)) &&
      match Grammar.withBudget Grammar.block (.ofTokens (ts.drop 23)) with
      | .ok _ rest => decide (rest.tokens.length = 1)
      | .error .. => false := by
    decide +kernel
  obtain ⟨ts, hts, hfound⟩ := (Option.any_eq_true ..).1 hcheck
  obtain ⟨hprogram, hblock⟩ := Bool.and_eq_true_iff.1 hfound
  obtain ⟨p, hp, hcounts⟩ := (Option.any_eq_true ..).1 hprogram
  have htokens : tokenize "main" Grammar.sampleText = .ok ts := eq_ok_of_toOption hts
  have hparse : parse ts = .ok p := eq_ok_of_toOption hp
  obtain ⟨hspelled, htaken⟩ := parse_spelled htokens
  refine ⟨ts, p, htokens, hparse, (of_decide_eq_true hcounts).1, (of_decide_eq_true hcounts).2,
    hspelled p hparse, ?_⟩
  split at hblock
  · rename_i e rest hrun
    obtain ⟨hisBlock, hall⟩ := (htaken _ e rest (List.drop_suffix 23 ts)).2.2 hrun
    exact ⟨e, rest, hrun, of_decide_eq_true hblock, hisBlock, hall⟩
  · cases hblock

end Ilang
