import Ilang.Proofs.Strings
/-!
# Comments are decoration

Assembly with comments is assembly without them and lines that begin with a number sign: if those
lines are deleted, the text without comments is left (`Program.generate_comments`).

Every node of a program decides on its own whether it writes comments. That silence leaves the same
instructions, labels and errors behind goes by induction on the expression (`Expr.emit_silent`). For
the texts every instruction has to fill one line, and only comments may begin like one. What an
instruction takes from a program are labels, names and strings. Names and strings are tokens of the
text, which hold no line feed and do not begin with a number sign (`Lexeme.Fits.isTidy`).
-/
namespace Ilang

/-! ## Lines -/

namespace Text

/-- The lines of a text, each with the line feed at its end. -/
def linesOf : List Char → List (List Char)
  | [] => []
  | c :: cs =>
    if c = '\n' then [c] :: linesOf cs
    else
      match linesOf cs with
      | [] => [[c]]
      | line :: others => (c :: line) :: others

/-- A line ends at its line feed. -/
theorem linesOf_append {line : List Char} (h : '\n' ∉ line) (cs : List Char) :
    linesOf (line ++ '\n' :: cs) = (line ++ ['\n']) :: linesOf cs := by
  induction line with
  | nil => simp [linesOf]
  | cons c line ih =>
    rw [List.mem_cons, not_or] at h
    rw [List.cons_append, linesOf, if_neg (Ne.symm h.1), ih h.2]
    rfl

/-- Whether a line begins with a number sign. -/
def isCommentLine (line : List Char) : Bool := line.head? = some '#'

/-- A text without the lines that begin with a number sign. -/
def withoutComments (text : String) : String :=
  String.ofList ((linesOf text.toList).filter (!isCommentLine ·)).flatten

/-- Whether a text can stand in a line, also at its margin, without making it a comment. -/
def isTidy (text : String) : Bool := !text.toList.contains '\n' && text.toList.head? != some '#'

theorem isTidy_iff {text : String} :
    isTidy text = true ↔ '\n' ∉ text.toList ∧ text.toList.head? ≠ some '#' := by
  simp [isTidy]

end Text

/-! ## Instructions as lines -/

/-- Whether an operand takes only tidy texts from a program. -/
def Operand.isTidy : Operand → Bool
  | symbol label _ => Text.isTidy label
  | _ => true

@[simp] theorem Operand.isTidy_reg (r : Reg) : isTidy r = true := rfl

@[simp] theorem Operand.isTidy_imm (n : Int) : isTidy (.imm n) = true := rfl

namespace Instr

/-- Whether an instruction takes only tidy texts from a program. -/
def isTidy : Instr → Bool
  | jmp text | je text | call text _ | label text | comment text | directive text | asciz text =>
    Text.isTidy text
  | i => i.operands.all Operand.isTidy

end Instr

theorem Reg.newline_not_mem_text (r : Reg) : '\n' ∉ r.text.toList := by
  cases r <;> decide

theorem Cond.newline_not_mem_text (c : Cond) : '\n' ∉ c.text.toList := by
  cases c <;> decide

theorem newline_not_mem_repr (n : Nat) : '\n' ∉ n.repr.toList := by
  rw [Nat.repr_eq_ofList_toDigits, String.toList_ofList]
  intro h
  have hdigit := Nat.isDigit_of_mem_toDigits (by decide) (Nat.le_refl _) h
  exact absurd hdigit (by decide)

theorem newline_not_mem_repr_int (n : Int) : '\n' ∉ n.repr.toList := by
  cases n with
  | ofNat n => exact newline_not_mem_repr n
  | negSucc n =>
    show '\n' ∉ ("-" ++ (n + 1).repr).toList
    rw [String.toList_append, List.mem_append, not_or]
    exact ⟨by decide, newline_not_mem_repr _⟩

theorem Operand.newline_not_mem_text {o : Operand} (h : o.isTidy = true) :
    '\n' ∉ o.text.toList := by
  cases o with
  | reg r => exact r.newline_not_mem_text
  | imm n => simp +decide [text, newline_not_mem_repr_int]
  | mem offset base =>
    simp +decide [text, newline_not_mem_repr_int, Reg.newline_not_mem_text]
  | symbol label base =>
    simp +decide [text, (Text.isTidy_iff.1 h).1, Reg.newline_not_mem_text]

namespace Instr

theorem newline_not_mem_text {i : Instr} (h : i.isTidy = true) : '\n' ∉ i.text.toList := by
  cases i with
  | call target external =>
    cases external <;> simp +decide [text, (Text.isTidy_iff.1 h).1]
  | jmp | je | label | comment | directive | asciz =>
    simp +decide [text, (Text.isTidy_iff.1 h).1]
  | _ =>
    simp [isTidy, operands] at h
    simp +decide [text, h, Operand.newline_not_mem_text, Reg.newline_not_mem_text,
      Cond.newline_not_mem_text]

/-- A tidy instruction is one line, which begins with a number sign if it is a comment and not
otherwise. -/
theorem exists_line {i : Instr} (h : i.isTidy = true) :
    ∃ line, i.line.toList = line ++ ['\n'] ∧ '\n' ∉ line ∧
      Text.isCommentLine (line ++ ['\n']) = i.isComment := by
  refine ⟨((if i.atMargin then "" else "    ") ++ i.text).toList, by simp [line], ?_, ?_⟩
  · rw [String.toList_append, List.mem_append, not_or]
    exact ⟨by split <;> decide, newline_not_mem_text h⟩
  · cases i with
    | comment => simp +decide [text, atMargin, isComment, Text.isCommentLine]
    | label name | directive name =>
      have hhead := (Text.isTidy_iff.1 h).2
      cases hname : name.toList with
      | nil => simp +decide [text, atMargin, isComment, Text.isCommentLine, hname]
      | cons c cs =>
        rw [hname] at hhead
        simpa [text, atMargin, isComment, Text.isCommentLine, hname] using hhead
    | _ => simp +decide [atMargin, isComment, Text.isCommentLine]

theorem toList_lines (is : List Instr) : (lines is).toList = is.flatMap (·.line.toList) := by
  have hfold : ∀ s : String, (is.foldl (fun s i => s ++ i.line) s).toList =
      s.toList ++ is.flatMap (·.line.toList) := by
    induction is with
    | nil => simp
    | cons i is ih => intro s; simp [ih]
  rw [lines, hfold]
  rfl

/-- The lines of tidy instructions are the instructions. -/
theorem linesOf_lines {is : List Instr} (h : is.all isTidy = true) (cs : List Char) :
    Text.linesOf ((lines is).toList ++ cs) = is.map (·.line.toList) ++ Text.linesOf cs := by
  induction is with
  | nil => rfl
  | cons i is ih =>
    rw [List.all_cons, Bool.and_eq_true] at h
    obtain ⟨line, hline, hone, -⟩ := exists_line h.1
    rw [toList_lines] at ih ⊢
    rw [List.flatMap_cons, hline, List.append_assoc, List.append_assoc, List.singleton_append,
      Text.linesOf_append hone, ih h.2, List.map_cons, hline, List.cons_append]

theorem isCommentLine_line {i : Instr} (h : i.isTidy = true) :
    Text.isCommentLine i.line.toList = i.isComment := by
  obtain ⟨line, hline, -, hcomment⟩ := exists_line h
  rw [hline, hcomment]

/-- Deleting comment lines deletes comments. -/
theorem filter_map_line {is : List Instr} (h : is.all isTidy = true) :
    (is.map (·.line.toList)).filter (!Text.isCommentLine ·) =
      (plain is).map (·.line.toList) := by
  rw [List.filter_map]
  congr 1
  refine List.filter_congr fun i hi => ?_
  simp only [Function.comp_apply, isCommentLine_line (List.all_eq_true.1 h i hi)]

/-- Without comments there are no comment lines. -/
theorem not_isCommentLine {is : List Instr} (h : is.all isTidy = true) :
    ∀ line ∈ (plain is).map (·.line.toList), Text.isCommentLine line = false := by
  intro line hline
  rw [← filter_map_line h] at hline
  simpa using (List.mem_filter.1 hline).2

theorem isTidy_plain {is : List Instr} (h : is.all isTidy = true) :
    (plain is).all isTidy = true :=
  List.all_eq_true.2 fun i hi => List.all_eq_true.1 h i (List.mem_of_mem_filter hi)

end Instr

/-! ## Assembly as lines -/

namespace Assembly

theorem linesOf_text {a : Assembly} (hcode : a.code.all Instr.isTidy = true)
    (hdata : a.data.all Instr.isTidy = true) :
    Text.linesOf a.text.toList =
      a.code.map (·.line.toList) ++ ['\n'] :: a.data.map (·.line.toList) := by
  -- An empty line stands between code and data.
  have hblank := Text.linesOf_append List.not_mem_nil (Instr.lines a.data).toList
  have hlast := Instr.linesOf_lines hdata []
  rw [List.append_nil, Text.linesOf, List.append_nil] at hlast
  rw [text, String.toList_append, String.toList_append, List.append_assoc,
    Instr.linesOf_lines hcode]
  rw [show "\n".toList ++ (Instr.lines a.data).toList =
    [] ++ '\n' :: (Instr.lines a.data).toList from rfl, hblank, hlast]
  rfl

/-- Deleting the comment lines of an assembly deletes its comments. -/
theorem withoutComments_text {a : Assembly} (hcode : a.code.all Instr.isTidy = true)
    (hdata : a.data.all Instr.isTidy = true) : Text.withoutComments a.text =
      text ⟨Instr.plain a.code, Instr.plain a.data⟩ := by
  rw [Text.withoutComments, linesOf_text hcode hdata, List.filter_append,
    List.filter_cons_of_pos (by decide), Instr.filter_map_line hcode,
    Instr.filter_map_line hdata, ← String.toList_inj, String.toList_ofList, text]
  simp only [String.toList_append, Instr.toList_lines, List.flatten_append, List.flatten_cons,
    List.flatMap_def, List.append_assoc]
  rfl

end Assembly

/-! ## Tokens -/

namespace Lexeme

theorem IsWord.isTidy {w : String} (h : IsWord w.toList) : Text.isTidy w = true := by
  refine Text.isTidy_iff.2 ⟨fun hmem => ?_, fun hhead => ?_⟩
  · exact absurd (h.all _ hmem) (by decide)
  · exact absurd (h.all _ (List.mem_of_head? hhead)) (by decide)

theorem StringBody.newline_not_mem {body : List Char} (h : StringBody body) : '\n' ∉ body := by
  induction h with
  | nil => exact List.not_mem_nil
  | plain _ _ hline _ ih => simp [Ne.symm hline, ih]
  | escaped hline _ ih => simp [Ne.symm hline, ih]

/-- Every token is tidy. -/
theorem Fits.isTidy {kind : TokenKind} {rest : List Char} (h : Fits kind rest) :
    Text.isTidy kind.text = true := by
  have hkeywords : ∀ k ∈ TokenKind.keywords, Text.isTidy k.text = true := by decide
  have hsymbols : ∀ k ∈ TokenKind.symbols, Text.isTidy k.text = true := by decide
  have hwords : ∀ w ∈ TokenKind.literalWords, Text.isTidy w = true := by decide
  have hdigits : ∀ c : Char, c.isDigit = true → c ≠ '\n' ∧ c ≠ '#' := by
    refine fun c hc => ⟨?_, ?_⟩ <;> · rintro rfl; exact absurd hc (by decide)
  cases h with
  | keyword hk => exact hkeywords _ hk
  | literalWord hw => exact hwords _ hw
  | identifier hw => exact hw.isTidy
  | symbol hk => exact hsymbols _ hk
  | @whole ds _ hds =>
    rw [Text.isTidy_iff, TokenKind.text, String.toList_ofList]
    exact ⟨fun hmem => (hdigits _ (hds.2 _ hmem)).1 rfl,
      fun hhead => (hdigits _ (hds.2 _ (List.mem_of_head? hhead))).2 rfl⟩
  | @fraction ds fs _ hds hfs =>
    rw [Text.isTidy_iff, TokenKind.text, String.toList_ofList]
    refine ⟨fun hmem => ?_, fun hhead => ?_⟩
    · simp only [List.mem_append, List.mem_cons] at hmem
      rcases hmem with hmem | hmem | hmem
      · exact (hdigits _ (hds.2 _ hmem)).1 rfl
      · cases hmem
      · exact (hdigits _ (hfs.2 _ hmem)).1 rfl
    · rw [List.head?_append_of_ne_nil _ hds.1] at hhead
      exact (hdigits _ (hds.2 _ (List.mem_of_head? hhead))).2 rfl
  | string hbody =>
    rw [Text.isTidy_iff, TokenKind.text, String.toList_ofList]
    simp [hbody.newline_not_mem]

end Lexeme

/-! ## Code -/

/-- Whether all instructions of a piece of code are tidy. -/
def Code.isTidy (c : Code) : Bool := c.toList.all Instr.isTidy

@[simp] theorem Code.isTidy_append (a b : Code) : (a ++ b).isTidy = (a.isTidy && b.isTidy) := by
  simp [isTidy]

@[simp] theorem Code.isTidy_instrs (is : List Instr) :
    (Code.instrs is).isTidy = is.all Instr.isTidy := by
  simp [isTidy]

/-- What an expression contributes to its code is tidy: the name that it calls, or the label of its
string. -/
def Expr.Tidy : Expr → Prop
  | .call _ callee _ => Text.isTidy callee.name = true
  | .literal n _ constant => n.ty = .string → ∀ label, constant = some label →
    Text.isTidy label = true
  | _ => True

theorem LabelSupply.isTidy_label {s : LabelSupply} (h : Text.isTidy s.stem = true)
    (hstem : s.stem.toList ≠ []) (i : Nat) : Text.isTidy (s.label i) = true := by
  rw [Text.isTidy_iff] at h ⊢
  rw [label, String.toList_append, String.toList_append, List.append_assoc,
    List.head?_append_of_ne_nil _ hstem]
  refine ⟨?_, h.2⟩
  simp only [List.mem_append, not_or]
  exact ⟨h.1, by decide, newline_not_mem_repr i⟩

/-- The labels that will be given out are tidy. -/
structure Labels.Tidy (l : Labels) : Prop where
  branch : ∀ i, Text.isTidy (l.branches.label i) = true
  loop : ∀ i, Text.isTidy (l.loops.label i) = true

theorem Labels.tidy_start : Labels.Tidy {} where
  branch := LabelSupply.isTidy_label (by decide) (by decide)
  loop := LabelSupply.isTidy_label (by decide) (by decide)

theorem isTidy_remark (wanted : Bool) {text : String} (h : Text.isTidy text = true) :
    (remark wanted text).all Instr.isTidy = true := by
  cases wanted <;> simp [remark, Instr.isTidy, h]

theorem isTidy_literalCode {n : Node} {text : String} {constant : Option String}
    {is : List Instr} (h : literalCode n text constant = .ok is)
    (htidy : n.ty = .string → ∀ label, constant = some label → Text.isTidy label = true) :
    is.all Instr.isTidy = true := by
  unfold literalCode at h
  dsimp only at h
  repeat' split at h
  all_goals cases h
  all_goals first
    | rfl
    | simp [Instr.isTidy, Instr.operands, Operand.isTidy, htidy ‹_›]

theorem isTidy_popArguments {k : Nat} {is : List Instr} (h : popArguments k = .ok is) :
    is.all Instr.isTidy = true := by
  refine List.all_eq_true.2 fun i hi => ?_
  obtain ⟨r, rfl⟩ := mem_popArguments h i hi
  rfl

theorem Frame.isTidy_slotOf {f : Frame} {i : Ident} {place : Operand}
    (h : f.slotOf i = .ok place) : place.isTidy = true := by
  have hmem := f.isMem_of_slotOf h
  cases place with
  | symbol => cases hmem
  | _ => rfl

theorem BinaryOp.isTidy_code (op : BinaryOp) : op.code.all Instr.isTidy = true := by
  cases op <;> rfl

theorem UnaryOp.isTidy_code (op : UnaryOp) : op.code.all Instr.isTidy = true := by
  cases op <;> rfl

mutual

/-- The code of an expression is tidy, and so are the labels that are still free. -/
theorem Expr.isTidy_emit {env : Surroundings} {l m : Labels} {e : Expr} {c : Code}
    (h : e.emit env l = .ok (c, m)) (hl : l.Tidy) (he : e.Everywhere Expr.Tidy)
    (hloops : env.frame.loops.all Text.isTidy = true) : c.isTidy = true ∧ m.Tidy := by
  obtain ⟨hown, hchildren⟩ := Expr.everywhere_iff.1 he
  cases e with
  | literal n text constant =>
    rw [Expr.emit] at h
    obtain ⟨is, his, h₁⟩ := Emit.bind_lift_eq_ok h
    obtain ⟨rfl, rfl⟩ := Emit.pure_eq_ok h₁
    exact ⟨by simp +decide [isTidy_remark, isTidy_literalCode his hown], hl⟩
  | var n ident =>
    rw [Expr.emit] at h
    obtain ⟨place, hp, h₁⟩ := Emit.bind_lift_eq_ok h
    obtain ⟨rfl, rfl⟩ := Emit.pure_eq_ok h₁
    exact ⟨by simp +decide [Instr.isTidy, isTidy_remark, Instr.operands, Frame.isTidy_slotOf hp], hl⟩
  | call n callee arguments =>
    rw [Expr.emit] at h
    split at h
    · cases h
    · obtain ⟨args, k, ha, h₁⟩ := Emit.bind_eq_ok h
      obtain ⟨pops, hp, h₂⟩ := Emit.bind_lift_eq_ok h₁
      obtain ⟨rfl, rfl⟩ := Emit.pure_eq_ok h₂
      obtain ⟨hargs, hk⟩ := isTidy_emitArguments ha hl hchildren hloops
      have hname : Text.isTidy callee.name = true := hown
      exact ⟨by simp +decide [Instr.isTidy, isTidy_remark, hargs, isTidy_popArguments hp, hname], hk⟩
  | block n body result =>
    rw [Expr.emit] at h
    obtain ⟨hbody, hresult⟩ := List.forall_mem_append.1 hchildren
    obtain ⟨b, k, hb, h₁⟩ := Emit.bind_eq_ok h
    obtain ⟨r, k', hr, h₂⟩ := Emit.bind_eq_ok h₁
    obtain ⟨rfl, rfl⟩ := Emit.pure_eq_ok h₂
    obtain ⟨hb, hk⟩ := isTidy_emitAll hb hl hbody hloops
    obtain ⟨hr, hk'⟩ := isTidy_emitOpt (isTidy_remark _ (by decide)) hr hk hresult hloops
    exact ⟨by simp +decide [isTidy_remark, hb, hr], hk'⟩
  | bind n ident type value | assign n ident value =>
    rw [Expr.emit] at h
    obtain ⟨v, k, hv, h₁⟩ := Emit.bind_eq_ok h
    obtain ⟨place, hp, h₂⟩ := Emit.bind_lift_eq_ok h₁
    obtain ⟨rfl, rfl⟩ := Emit.pure_eq_ok h₂
    obtain ⟨hv, hk⟩ := Expr.isTidy_emit hv hl (hchildren _ (.head _)) hloops
    exact ⟨by simp +decide [Instr.isTidy, isTidy_remark, Instr.operands, hv,
      Frame.isTidy_slotOf hp], hk⟩
  | binary n op left right =>
    rw [Expr.emit] at h
    obtain ⟨r, k, hr, h₁⟩ := Emit.bind_eq_ok h
    obtain ⟨lc, k', hlc, h₂⟩ := Emit.bind_eq_ok h₁
    obtain ⟨rfl, rfl⟩ := Emit.pure_eq_ok h₂
    obtain ⟨hr, hk⟩ := Expr.isTidy_emit hr hl (hchildren _ (.tail _ (.head _))) hloops
    obtain ⟨hlc, hk'⟩ := Expr.isTidy_emit hlc hk (hchildren _ (.head _)) hloops
    exact ⟨by simp +decide [Instr.isTidy, isTidy_remark, hr, hlc, op.isTidy_code], hk'⟩
  | unary n op operand =>
    rw [Expr.emit] at h
    obtain ⟨c, k, hc, h₁⟩ := Emit.bind_eq_ok h
    obtain ⟨rfl, rfl⟩ := Emit.pure_eq_ok h₁
    obtain ⟨hc, hk⟩ := Expr.isTidy_emit hc hl (hchildren _ (.head _)) hloops
    exact ⟨by simp +decide [isTidy_remark, hc, op.isTidy_code], hk⟩
  | group n inner =>
    rw [Expr.emit] at h
    exact Expr.isTidy_emit h hl (hchildren _ (.head _)) hloops
  | branch n condition onTrue onFalse =>
    rw [Expr.emit] at h
    obtain ⟨hcondition, hchildren⟩ := List.forall_mem_cons.1 hchildren
    obtain ⟨hTrue, hFalse⟩ := List.forall_mem_cons.1 hchildren
    obtain ⟨c, k₁, hc, h₁⟩ := Emit.bind_eq_ok (Emit.branchLabels_eq_ok h)
    obtain ⟨t, k₂, ht, h₂⟩ := Emit.bind_eq_ok h₁
    obtain ⟨f, k₃, hf, h₃⟩ := Emit.bind_eq_ok h₂
    obtain ⟨rfl, rfl⟩ := Emit.pure_eq_ok h₃
    obtain ⟨hc, hk₁⟩ := Expr.isTidy_emit hc ⟨hl.branch, hl.loop⟩ hcondition hloops
    obtain ⟨ht, hk₂⟩ := Expr.isTidy_emit ht hk₁ hTrue hloops
    obtain ⟨hf, hk₃⟩ := isTidy_emitOpt rfl hf hk₂ hFalse hloops
    have hlabels : Text.isTidy l.elseLabel = true ∧ Text.isTidy l.branchEnd = true :=
      ⟨hl.branch _, hl.branch _⟩
    exact ⟨by simp +decide [Instr.isTidy, isTidy_remark, Instr.operands, hc, ht, hf, hlabels], hk₃⟩
  | ret n value =>
    rw [Expr.emit] at h
    obtain ⟨v, k, hv, h₁⟩ := Emit.bind_eq_ok h
    obtain ⟨rfl, rfl⟩ := Emit.pure_eq_ok h₁
    obtain ⟨hv, hk⟩ := Expr.isTidy_emit hv hl (hchildren _ (.head _)) hloops
    exact ⟨by simp +decide [Instr.isTidy, isTidy_remark, hv], hk⟩
  | loop n condition body =>
    rw [Expr.emit] at h
    obtain ⟨c, k₁, hc, h₁⟩ := Emit.bind_eq_ok (Emit.loopLabels_eq_ok h)
    obtain ⟨b, k₂, hb, h₂⟩ := Emit.bind_eq_ok h₁
    obtain ⟨rfl, rfl⟩ := Emit.pure_eq_ok h₂
    have hlabels : Text.isTidy l.loopStart = true ∧ Text.isTidy l.loopEnd = true :=
      ⟨hl.loop _, hl.loop _⟩
    have hinside : (env.frame.pushLoop l.loopEnd).loops.all Text.isTidy = true := by
      simpa [Frame.pushLoop, hlabels.2] using hloops
    obtain ⟨hc, hk₁⟩ := Expr.isTidy_emit hc ⟨hl.branch, hl.loop⟩ (hchildren _ (.head _)) hinside
    obtain ⟨hb, hk₂⟩ := Expr.isTidy_emit hb hk₁ (hchildren _ (.tail _ (.head _))) hinside
    exact ⟨by simp +decide [Instr.isTidy, isTidy_remark, Instr.operands, hc, hb, hlabels], hk₂⟩
  | brk n =>
    rw [Expr.emit] at h
    cases hexit : env.frame.currentLoop? with
    | none => rw [hexit] at h; cases h
    | some endLabel =>
      rw [hexit] at h
      obtain ⟨rfl, rfl⟩ := Emit.pure_eq_ok h
      have hlabel := List.all_eq_true.1 hloops _ (List.mem_of_head? hexit)
      exact ⟨by simp +decide [Instr.isTidy, isTidy_remark, hlabel], hl⟩

theorem isTidy_emitAll {env : Surroundings} {l m : Labels} {es : List Expr} {c : Code}
    (h : emitAll env es l = .ok (c, m)) (hl : l.Tidy) (hes : ∀ e ∈ es, e.Everywhere Expr.Tidy)
    (hloops : env.frame.loops.all Text.isTidy = true) : c.isTidy = true ∧ m.Tidy := by
  cases es with
  | nil =>
    obtain ⟨rfl, rfl⟩ := Emit.pure_eq_ok h
    exact ⟨rfl, hl⟩
  | cons e es =>
    rw [emitAll] at h
    obtain ⟨he, hes⟩ := List.forall_mem_cons.1 hes
    obtain ⟨first, k, hfirst, h₁⟩ := Emit.bind_eq_ok h
    obtain ⟨others, k', hothers, h₂⟩ := Emit.bind_eq_ok h₁
    obtain ⟨rfl, rfl⟩ := Emit.pure_eq_ok h₂
    obtain ⟨hfirst, hk⟩ := Expr.isTidy_emit hfirst hl he hloops
    obtain ⟨hothers, hk'⟩ := isTidy_emitAll hothers hk hes hloops
    exact ⟨by simp [hfirst, hothers], hk'⟩

theorem isTidy_emitArguments {env : Surroundings} {l m : Labels} {es : List Expr} {c : Code}
    (h : emitArguments env es l = .ok (c, m)) (hl : l.Tidy)
    (hes : ∀ e ∈ es, e.Everywhere Expr.Tidy)
    (hloops : env.frame.loops.all Text.isTidy = true) : c.isTidy = true ∧ m.Tidy := by
  cases es with
  | nil =>
    obtain ⟨rfl, rfl⟩ := Emit.pure_eq_ok h
    exact ⟨rfl, hl⟩
  | cons e es =>
    rw [emitArguments] at h
    obtain ⟨he, hes⟩ := List.forall_mem_cons.1 hes
    obtain ⟨first, k, hfirst, h₁⟩ := Emit.bind_eq_ok h
    obtain ⟨others, k', hothers, h₂⟩ := Emit.bind_eq_ok h₁
    obtain ⟨rfl, rfl⟩ := Emit.pure_eq_ok h₂
    obtain ⟨hfirst, hk⟩ := Expr.isTidy_emit hfirst hl he hloops
    obtain ⟨hothers, hk'⟩ := isTidy_emitArguments hothers hk hes hloops
    exact ⟨by simp +decide [Instr.isTidy, hfirst, hothers], hk'⟩

theorem isTidy_emitOpt {env : Surroundings} {heading : List Instr} {l m : Labels}
    {e : Option Expr} {c : Code} (hheading : heading.all Instr.isTidy = true)
    (h : emitOpt env heading e l = .ok (c, m)) (hl : l.Tidy)
    (he : ∀ x ∈ e.toList, x.Everywhere Expr.Tidy)
    (hloops : env.frame.loops.all Text.isTidy = true) : c.isTidy = true ∧ m.Tidy := by
  cases e with
  | none =>
    obtain ⟨rfl, rfl⟩ := Emit.pure_eq_ok h
    exact ⟨rfl, hl⟩
  | some e =>
    rw [emitOpt] at h
    obtain ⟨c, k, hc, h₁⟩ := Emit.bind_eq_ok h
    obtain ⟨rfl, rfl⟩ := Emit.pure_eq_ok h₁
    obtain ⟨hc, hk⟩ := Expr.isTidy_emit hc hl (he _ (.head _)) hloops
    exact ⟨by simp [hheading, hc], hk⟩

end

theorem isTidy_storeParams {frame : Frame} {index : Nat} {ps : List Param} {is : List Instr}
    (h : storeParams frame index ps = .ok is) : is.all Instr.isTidy = true := by
  induction ps generalizing index is with
  | nil => cases h; rfl
  | cons p ps ih =>
    obtain ⟨r, place, stores, -, hplace, hs, rfl⟩ := storeParams_cons h
    simp [Instr.isTidy, Instr.operands, Frame.isTidy_slotOf hplace, ih hs]

/-- The code of a function is tidy if its name is, and what its body contributes. -/
theorem Function.isTidy_emit {comments : Bool} {functions : List String} {frame : Frame}
    {f : Function} {l m : Labels} {c : Code}
    (h : f.emit comments functions frame l = .ok (c, m)) (hl : l.Tidy) (hlaid : f.LaidIn frame)
    (hname : Text.isTidy f.ident.name = true) (hbody : f.body.Everywhere Expr.Tidy) :
    c.isTidy = true ∧ m.Tidy := by
  have hloops : frame.loops = [] := List.head?_eq_none_iff.1 hlaid.currentLoop?_eq
  rw [← hlaid.function_eq] at hname
  rw [Function.emit] at h
  split at h
  · cases h
  · obtain ⟨stores, hs, h₁⟩ := Emit.bind_lift_eq_ok h
    obtain ⟨body, k, hb, h₂⟩ := Emit.bind_eq_ok h₁
    obtain ⟨rfl, rfl⟩ := Emit.pure_eq_ok h₂
    obtain ⟨hb, hk⟩ := Expr.isTidy_emit hb hl hbody (by rw [hloops]; rfl)
    exact ⟨by simp +decide [Instr.isTidy, isTidy_remark, Instr.operands, hname,
      isTidy_storeParams hs, hb], hk⟩

theorem isTidy_emitFunctions {comments : Bool} {functions : List String} {fs : List Function}
    {frames : List Frame} (hlaid : List.Forall₂ Function.LaidIn fs frames) {l m : Labels} {c : Code}
    (h : emitFunctions comments functions (fs.zip frames) l = .ok (c, m)) (hl : l.Tidy)
    (hnames : ∀ f ∈ fs, Text.isTidy f.ident.name = true)
    (hbodies : ∀ f ∈ fs, f.body.Everywhere Expr.Tidy) : c.isTidy = true := by
  induction hlaid generalizing l m c with
  | nil =>
    obtain ⟨rfl, -⟩ := Emit.pure_eq_ok h
    rfl
  | cons hf _ ih =>
    obtain ⟨hname, hnames⟩ := List.forall_mem_cons.1 hnames
    obtain ⟨hbody, hbodies⟩ := List.forall_mem_cons.1 hbodies
    rw [List.zip_cons_cons, emitFunctions] at h
    obtain ⟨first, k, hfirst, h₁⟩ := Emit.bind_eq_ok h
    obtain ⟨others, k', hothers, h₂⟩ := Emit.bind_eq_ok h₁
    obtain ⟨rfl, -⟩ := Emit.pure_eq_ok h₂
    obtain ⟨hfirst, hk⟩ := Function.isTidy_emit hfirst hl hf hname hbody
    simp [hfirst, ih hothers hk hnames hbodies]

/-! ## Code without comments -/

/-- A piece of code without its comments. -/
def Code.plain : Code → Code
  | instrs is => .instrs (Instr.plain is)
  | seq first second => .seq first.plain second.plain

@[simp] theorem Code.plain_instrs (is : List Instr) :
    (Code.instrs is).plain = .instrs (Instr.plain is) := rfl

@[simp] theorem Code.plain_append (a b : Code) : (a ++ b).plain = a.plain ++ b.plain := rfl

theorem Code.toList_plain (c : Code) : c.plain.toList = Instr.plain c.toList := by
  induction c with
  | instrs is => simp
  | seq first second ih₁ ih₂ =>
    show (first.plain ++ second.plain).toList = Instr.plain (first ++ second).toList
    rw [Code.toList_append, Code.toList_append, Instr.plain_append, ih₁, ih₂]

/-- The same surroundings, where no comments are wanted. -/
def Surroundings.silent (env : Surroundings) : Surroundings := { env with comments := false }

@[simp] theorem Surroundings.silent_comments (env : Surroundings) : env.silent.comments = false := rfl

@[simp] theorem Surroundings.silent_frame (env : Surroundings) : env.silent.frame = env.frame := rfl

@[simp] theorem Surroundings.silent_functions (env : Surroundings) :
    env.silent.functions = env.functions := rfl

@[simp] theorem remark_false (text : String) : remark false text = [] := rfl

theorem Emit.bind_lift_congr {α β : Type} {x : Except GenError α} {f g : α → Emit β}
    (h : ∀ a, x = .ok a → f a = g a) : (liftM x : Emit α) >>= f = liftM x >>= g := by
  cases x with
  | error e => rfl
  | ok a => exact h a rfl

mutual

/-- Where no comments are wanted, the code is the same without its comments, or the error is the
same. -/
theorem Expr.emit_silent (env : Surroundings) (e : Expr) :
    e.emit env.silent = Code.plain <$> e.emit env := by
  cases e with
  | literal n text constant =>
    simp only [Expr.emit, map_bind]
    refine Emit.bind_lift_congr fun is his => ?_
    simp [plain_literalCode his]
  | var n ident =>
    simp [Expr.emit, Instr.plain_cons, Instr.isComment]
  | call n callee arguments =>
    simp only [Expr.emit, Surroundings.silent_functions]
    split
    · rfl
    · rw [emitArguments_silent, bind_map_left, map_bind]
      refine bind_congr fun args => ?_
      rw [map_bind]
      refine Emit.bind_lift_congr fun pops hpops => ?_
      simp [plain_popArguments hpops, Instr.plain_cons, Instr.isComment]
  | block n body result =>
    have hlast := emitOpt_silent env (remark env.comments "implicit return expression") result
    rw [Instr.plain_remark] at hlast
    simp [Expr.emit, emitAll_silent, hlast]
  | bind n ident type value | assign n ident value =>
    simp [Expr.emit, Expr.emit_silent, Instr.plain_cons, Instr.isComment]
  | binary n op left right =>
    simp [Expr.emit, Expr.emit_silent, op.plain_code, Instr.plain_cons, Instr.isComment]
  | unary n op operand =>
    simp [Expr.emit, Expr.emit_silent, op.plain_code]
  | group n inner =>
    rw [Expr.emit, Expr.emit, Expr.emit_silent]
  | branch n condition onTrue onFalse =>
    have hlast := emitOpt_silent env [] onFalse
    rw [Instr.plain_nil] at hlast
    simp [Expr.emit, Expr.emit_silent, hlast, Instr.plain_cons, Instr.isComment]
  | ret n value =>
    simp [Expr.emit, Expr.emit_silent, Instr.plain_cons, Instr.isComment]
  | loop n condition body =>
    -- The end of the loop is pushed in both surroundings.
    have hinside (x : String) :
        (⟨env.frame.pushLoop x, env.functions, false⟩ : Surroundings) = (env.inLoop x).silent := rfl
    simp [Expr.emit, hinside, Expr.emit_silent, Surroundings.inLoop, Instr.plain_cons,
      Instr.isComment]
  | brk n =>
    simp only [Expr.emit, Surroundings.silent_frame]
    cases env.frame.currentLoop? with
    | none => rfl
    | some endLabel => simp [Instr.plain_cons, Instr.isComment]

theorem emitAll_silent (env : Surroundings) (es : List Expr) :
    emitAll env.silent es = Code.plain <$> emitAll env es := by
  cases es with
  | nil => rfl
  | cons e es => simp [emitAll, Expr.emit_silent env e, emitAll_silent env es]

theorem emitArguments_silent (env : Surroundings) (es : List Expr) :
    emitArguments env.silent es = Code.plain <$> emitArguments env es := by
  cases es with
  | nil => rfl
  | cons e es =>
    simp [emitArguments, Expr.emit_silent env e, emitArguments_silent env es, Instr.plain_cons,
      Instr.isComment]

theorem emitOpt_silent (env : Surroundings) (heading : List Instr) (e : Option Expr) :
    emitOpt env.silent (Instr.plain heading) e = Code.plain <$> emitOpt env heading e := by
  cases e with
  | none => rfl
  | some e => simp [emitOpt, Expr.emit_silent env e]

end

theorem Function.emit_silent (comments : Bool) (functions : List String) (frame : Frame)
    (f : Function) :
    f.emit false functions frame = Code.plain <$> f.emit comments functions frame := by
  have hbody := Expr.emit_silent ⟨frame, functions, comments⟩ f.body
  rw [Surroundings.silent] at hbody
  simp only [Function.emit]
  split
  · rfl
  · rw [hbody, map_bind]
    refine Emit.bind_lift_congr fun stores hstores => ?_
    simp [plain_storeParams hstores, Instr.plain_cons, Instr.isComment]

theorem emitFunctions_silent (comments : Bool) (functions : List String)
    (fs : List (Function × Frame)) :
    emitFunctions false functions fs = Code.plain <$> emitFunctions comments functions fs := by
  induction fs with
  | nil => rfl
  | cons f fs ih => simp [emitFunctions, f.1.emit_silent comments, ih]

theorem header_silent (options : GenOptions) :
    header { options with comments := false } = Instr.plain (header options) := by
  simp [header, Instr.plain_cons, Instr.isComment]

/-- Assembly without comments is assembly with the comments left out. -/
theorem PlacedFunctions.assemble_silent (placed : PlacedFunctions) (options : GenOptions) :
    placed.assemble { options with comments := false } =
      (placed.assemble options).map fun r => (⟨Instr.plain r.1.code, r.1.data⟩, r.2) := by
  simp only [assemble, header_silent, emitFunctions_silent options.comments, StateT.run_map]
  cases (emitFunctions options.comments (placed.functions.map (·.ident.name))
      (placed.functions.zip placed.frames)).run {} with
  | error e => rfl
  | ok r =>
    cases placed.constants.dataLines with
    | error e => rfl
    | ok data =>
      have hcode : Instr.plain (header options) ++ r.1.plain.toList =
          Instr.plain (header options ++ r.1.toList) := by
        rw [Code.toList_plain, Instr.plain_append]
      exact congrArg (fun code => Except.ok (Assembly.mk code data, r.2)) hcode

/-! ## Programs that were read from a text -/

theorem isTidy_of_tokenize {file source : String} {ts : List Token}
    (h : tokenize file source = .ok ts) : ∀ t ∈ ts, Text.isTidy t.kind.text = true := by
  have hstart : (Cursor.start file source).location = .behind file [] := rfl
  have hlexed := Cursor.tokens_lexed hstart
  rw [show (Cursor.start file source).tokens = .ok ts from h] at hlexed
  obtain ⟨read, rfl, hread⟩ := hlexed
  intro t ht
  rcases List.mem_append.1 ht with ht | ht
  · obtain ⟨rest, hfits⟩ := hread.fits t ht
    exact hfits.isTidy
  · rw [List.mem_singleton.1 ht]
    exact (by decide : Text.isTidy TokenKind.endOfFile.text = true)

/-- A call is one to a function with a tidy name. -/
def Expr.CallsTidy : Expr → Prop
  | .call _ callee _ => Text.isTidy callee.name = true
  | _ => True

theorem Expr.callsTidy_strip (k : Keep) (e : Expr) : (e.strip k).CallsTidy ↔ e.CallsTidy := by
  cases e <;> exact Iff.rfl

/-- The names of functions and calls are tokens of the text. -/
theorem names_of_parse {file source : String} {ts : List Token} {p : Program}
    (hts : tokenize file source = .ok ts) (hp : parse ts = .ok p) :
    ∀ f ∈ p.functions, Text.isTidy f.ident.name = true ∧ f.body.Everywhere Expr.CallsTidy := by
  intro f hf
  -- A name that is printed was read, and tokens are tidy.
  have hname : ∀ name, .token (.identifier name) ∈ f.print → Text.isTidy name = true := by
    intro name hmem
    obtain ⟨t, ht, hkind⟩ := exists_token_of_print hts hp hf hmem
    have htidy := isTidy_of_tokenize hts t ht
    rwa [hkind] at htidy
  refine ⟨hname _ (by simp [Function.print, Ident.print]), fun x hx => ?_⟩
  cases x with
  | call n callee arguments =>
    have hprint := (Expr.print_inside hx).trans f.print_body_infix
    exact hname _ (hprint.subset (by simp [Expr.print, Ident.print]))
  | _ => trivial

theorem Program.tidy_placed {file source : String} {ts : List Token} {p : Program}
    (hts : tokenize file source = .ok ts) (hp : parse ts = .ok p)
    (hlaid : (placeFunctions {} p.analyze.program.functions).StringsLaid) :
    ∀ f ∈ (placeFunctions {} p.analyze.program.functions).functions,
      Text.isTidy f.ident.name = true ∧ f.body.Everywhere Expr.Tidy := by
  have hread := names_of_parse hts hp
  -- Neither analysis nor placement changes the names of a tree.
  have hcalls := everywhere_of_strip_eq (Expr.callsTidy_strip .nothing) p.bare_placed
    fun f hf => (hread f hf).2
  intro f hf
  constructor
  · have hname : f.ident.name ∈ p.functions.map (·.ident.name) :=
      names_of_bare_eq p.bare_placed ▸ List.mem_map_of_mem hf
    obtain ⟨g, hg, hgf⟩ := List.mem_map.1 hname
    exact hgf ▸ (hread g hg).1
  · intro x hx
    cases x with
    | call n callee arguments => exact hcalls f hf _ hx
    | literal n text constant =>
      rintro hty label rfl
      -- Placement gives each string a label with a number, and nothing from the text.
      have hmem : .literal n text (some label) ∈
          stringNodes (placeFunctions {} p.analyze.program.functions).functions :=
        List.mem_flatMap.2 ⟨f, hf, List.mem_filter.2 ⟨Expr.mem_nodes.2 hx, decide_eq_true hty⟩⟩
      rw [hlaid.stringNodes_eq] at hmem
      obtain ⟨y, -, hy⟩ := List.mem_map.1 hmem
      cases hy
      exact LabelSupply.isTidy_label (s := Constants.labels) (by decide) (by decide) y.2
    | _ => trivial

/-- The data of a program that was read from a text is tidy and has no comments. -/
theorem isTidy_data {file source : String} {ts : List Token} {p : Program}
    (hts : tokenize file source = .ok ts) (hp : parse ts = .ok p) {options : GenOptions}
    {assembly : Assembly} {labels : Labels}
    (hlaid : (placeFunctions {} p.analyze.program.functions).StringsLaid)
    (h : (placeFunctions {} p.analyze.program.functions).assemble options =
      .ok (assembly, labels)) :
    assembly.data.all Instr.isTidy = true ∧ Instr.plain assembly.data = assembly.data := by
  rw [hlaid.data_eq h, strings_of_bare_eq p.bare_placed, ← strings_of_parse hts hp]
  refine ⟨?_, List.filter_eq_self.2 fun i hi => ?_⟩
  swap
  · rcases List.mem_cons.1 hi with rfl | hi
    · rfl
    · obtain ⟨x, -, hi⟩ := List.mem_flatMap.1 hi
      simp only [List.mem_cons, List.not_mem_nil, or_false] at hi
      rcases hi with rfl | rfl <;> rfl
  rw [List.all_cons, List.all_flatMap, Bool.and_eq_true, List.all_eq_true]
  refine ⟨by decide, fun x hx => ?_⟩
  have htoken := isTidy_of_tokenize hts x.1
    (List.mem_filter.1 (List.fst_mem_of_mem_zipIdx hx)).1
  have hlabel : Text.isTidy (".constant_" ++ x.2.repr) = true :=
    LabelSupply.isTidy_label (s := Constants.labels) (by decide) (by decide) x.2
  simp [Instr.isTidy, htoken, hlabel]

theorem isTidy_header {options : GenOptions} (h : '\n' ∉ options.entryPoint.toList) :
    (header options).all Instr.isTidy = true := by
  have hglobl : Text.isTidy (".globl " ++ options.entryPoint) = true := by
    rw [Text.isTidy_iff, String.toList_append, List.head?_append_of_ne_nil _ (by decide)]
    refine ⟨?_, by decide⟩
    rw [List.mem_append, not_or]
    exact ⟨by decide, h⟩
  simp +decide [header, Instr.isTidy, isTidy_remark, hglobl]

/-! ## The result -/

/-- Two outcomes of making assembly are the same error, or two assemblies that took the same labels:
the lines of the first one that do not begin with a number sign are the text of the second one,
where no line does. -/
inductive DifferInComments :
    Except GenError (Assembly × Labels) → Except GenError (Assembly × Labels) → Prop
  | error (e : GenError) : DifferInComments (.error e) (.error e)
  | ok {a b : Assembly} {labels : Labels} (hdeleted : Text.withoutComments a.text = b.text)
    (hnone : ∀ line ∈ Text.linesOf b.text.toList, Text.isCommentLine line = false) :
    DifferInComments (.ok (a, labels)) (.ok (b, labels))

theorem DifferInComments.plain {code data : List Instr} (hcode : code.all Instr.isTidy = true)
    (hdata : data.all Instr.isTidy = true) (hplain : Instr.plain data = data) (labels : Labels) :
    DifferInComments (.ok (⟨code, data⟩, labels)) (.ok (⟨Instr.plain code, data⟩, labels)) := by
  refine .ok ?_ fun line hline => ?_
  · rw [Assembly.withoutComments_text hcode hdata, hplain]
  · rw [Assembly.linesOf_text (Instr.isTidy_plain hcode) hdata, List.mem_append,
      List.mem_cons] at hline
    rcases hline with hline | rfl | hline
    · exact Instr.not_isCommentLine hcode line hline
    · rfl
    · exact Instr.not_isCommentLine hdata line (by rwa [hplain])

/-- Comments are decoration: whatever analysis reports, making the assembly of a text with comments
and without them fails in the same way, or gives two texts of which the second one is what is left
of the first one without its comment lines. What is left behind is the same. -/
theorem Program.generate_comments {p : Program} (hread : p.Written) {options : GenOptions}
    (hentry : '\n' ∉ options.entryPoint.toList) :
    let commented := p.analyze.program.generate { options with comments := true }
    let plain := p.analyze.program.generate { options with comments := false }
    DifferInComments commented.result plain.result ∧ commented.program = plain.program ∧
      commented.frames = plain.frames ∧ commented.unfinished = plain.unfinished ∧
      commented.constants = plain.constants := by
  obtain ⟨file, source, ts, hts, hp⟩ := hread
  intro commented plain
  -- Comments only count when code is made, behind the checks and the placement.
  have hchecks : p.analyze.program.checkFunctions { options with comments := true } =
      p.analyze.program.checkFunctions { options with comments := false } := rfl
  simp only [commented, plain, Program.generate, hchecks]
  cases p.analyze.program.checkFunctions { options with comments := false } with
  | error e => exact ⟨.error e, rfl, rfl, rfl, rfl⟩
  | ok =>
    cases hstopped : (placeFunctions {} p.analyze.program.functions).stopped with
    | some s => exact ⟨.error s.2, rfl, rfl, rfl, rfl⟩
    | none =>
      refine ⟨?_, rfl, rfl, rfl, rfl⟩
      have hlaid := Program.stringsLaid hstopped
      have htidy := Program.tidy_placed hts hp hlaid
      rw [PlacedFunctions.assemble_silent _ { options with comments := true }]
      cases hon : (placeFunctions {} p.analyze.program.functions).assemble
          { options with comments := true } with
      | error e => exact .error e
      | ok r =>
        obtain ⟨code, hrun, hcode, -⟩ := PlacedFunctions.assemble_eq_ok hon
        obtain ⟨hdata, hplain⟩ := isTidy_data hts hp hlaid hon
        refine .plain ?_ hdata hplain r.2
        rw [hcode, List.all_append, Bool.and_eq_true]
        refine ⟨isTidy_header hentry, ?_⟩
        exact isTidy_emitFunctions hlaid.laid hrun Labels.tidy_start (fun f hf => (htidy f hf).1)
          fun f hf => (htidy f hf).2

/-- A text that analysis complains about and that gets code all the same, with a string and a loop. -/
def decoratedText : String :=
  "extrn int puts(string s) int main() " ++
    braced ("while false " ++ braced "puts(\"# on\");" ++ "; 1 + true")

theorem Program.generate_comments_text :
    ∃ p, Program.ofText? "main" decoratedText = some p ∧ p.analyze.report ≠ [] ∧
      '\n' ∉ "# main".toList ∧
      ((p.analyze.program.generate ⟨"# main", false, true⟩).result.toOption.any fun r =>
        r.1.code.any Instr.isComment) = true ∧
      DifferInComments (p.analyze.program.generate ⟨"# main", false, true⟩).result
        (p.analyze.program.generate ⟨"# main", false, false⟩).result := by
  have hcheck : ((Program.ofText? "main" decoratedText).any fun p =>
      !p.analyze.report.isEmpty &&
        (p.analyze.program.generate ⟨"# main", false, true⟩).result.toOption.any fun r =>
          r.1.code.any Instr.isComment) = true := by
    decide +kernel
  obtain ⟨p, hp, hq⟩ := (Option.any_eq_true ..).1 hcheck
  obtain ⟨hreport, hcomments⟩ := Bool.and_eq_true_iff.1 hq
  have hentry : '\n' ∉ "# main".toList := by decide
  obtain ⟨hdiffer, -⟩ := @Program.generate_comments p (Program.written_of_ofText? hp)
    ⟨"# main", false, true⟩ hentry
  exact ⟨p, hp, by simpa using hreport, hentry, hcomments, hdiffer⟩

end Ilang
