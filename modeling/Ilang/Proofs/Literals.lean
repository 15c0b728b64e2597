import Ilang.Proofs.Decoration
/-!
# The types and values of literals

Every literal of a text has a type, and its text says which one (`Literal.classified_of_fits`). An
integer is written into the code as the number that its digits stand for, without the zeros that it
may begin with (`Literal.emitted_of_isInteger`). So analysis never finds a literal without a type in
a program that was read from a text (`literals_typed`).
-/
namespace Ilang

open Lexeme (IsDigits IsWord StringBody EndsBefore)

/-! ## Digits -/

namespace Text

/-- The number that a row of digits stands for. -/
abbrev decimal (ds : List Char) : Nat := Nat.ofDigitChars 10 ds 0

theorem natural?_of_isDigits {ds : List Char} (h : IsDigits ds) :
    natural? ds = some (decimal ds) := by
  unfold natural?
  rw [if_neg (by simpa using h.1), if_pos (List.all_eq_true.2 h.2)]
  rfl

theorem natural?_eq_none {ds : List Char} {c : Char} (hc : c ∈ ds) (hdigit : c.isDigit = false) :
    natural? ds = none := by
  unfold natural?
  have hall : ds.all Char.isDigit = false := List.all_eq_false.2 ⟨c, hc, by simp [hdigit]⟩
  simp [hall]

/-- A text without a sign is read digit by digit. -/
theorem int64?_unsigned {c : Char} {cs : List Char} (hplus : c ≠ '+') (hminus : c ≠ '-') :
    int64? (String.ofList (c :: cs)) =
      (Option.map (fun n : Nat => (n : Int)) (natural? (c :: cs))).filter
        fun n => int64Min ≤ n && n ≤ int64Max := by
  unfold int64?
  rw [String.toList_ofList]
  split
  · rename_i heq
    exact absurd (List.cons.inj heq).1 hminus
  · rename_i heq
    exact absurd (List.cons.inj heq).1 hplus
  · cases natural? (c :: cs) <;> rfl

theorem ne_sign_of_isDigit {c : Char} (h : c.isDigit = true) : c ≠ '+' ∧ c ≠ '-' := by
  refine ⟨?_, ?_⟩ <;> · rintro rfl; exact absurd h (by decide)

/-- Digits write an integer if it fits. -/
theorem int64?_of_isDigits {ds : List Char} (h : IsDigits ds) :
    int64? (String.ofList ds) =
      if decimal ds ≤ 9223372036854775807 then some (decimal ds : Int) else none := by
  have hvalue := natural?_of_isDigits h
  obtain ⟨c, cs, rfl⟩ := List.exists_cons_of_ne_nil h.1
  obtain ⟨hplus, hminus⟩ := ne_sign_of_isDigit (h.2 c List.mem_cons_self)
  rw [int64?_unsigned hplus hminus, hvalue, Option.map_some, Option.filter_some]
  refine if_congr ?_ rfl rfl
  rw [Bool.and_eq_true, decide_eq_true_iff, decide_eq_true_iff]
  unfold int64Min int64Max
  omega

/-- What begins as a number does and has more than digits in it writes no integer. -/
theorem int64?_eq_none {c d : Char} {cs : List Char} (hplus : c ≠ '+') (hminus : c ≠ '-')
    (hd : d ∈ c :: cs) (hdigit : d.isDigit = false) : int64? (String.ofList (c :: cs)) = none := by
  rw [int64?_unsigned hplus hminus, natural?_eq_none hd hdigit]
  rfl

theorem withoutSign_of_isDigit {c : Char} (h : c.isDigit = true) (cs : List Char) :
    withoutSign (c :: cs) = c :: cs := by
  obtain ⟨hplus, hminus⟩ := ne_sign_of_isDigit h
  unfold withoutSign
  split
  · rename_i heq
    exact absurd (List.cons.inj heq).1 hplus
  · rename_i heq
    exact absurd (List.cons.inj heq).1 hminus
  · rfl

theorem isUnsignedDecimal_of_isDigits {ds : List Char} (h : IsDigits ds) :
    isUnsignedDecimal ds = true := by
  have hnone : EndsBefore Char.isDigit [] := by simp [EndsBefore]
  have htake := Lexeme.takeWhile_append h.2 hnone
  have hdrop := Lexeme.dropWhile_append h.2 hnone
  rw [List.append_nil] at htake hdrop
  simp [isUnsignedDecimal, htake, hdrop, h.1, isExponent]

theorem isUnsignedDecimal_fraction {ds fs : List Char} (hds : IsDigits ds) (hfs : IsDigits fs) :
    isUnsignedDecimal (ds ++ '.' :: fs) = true := by
  have hpoint : EndsBefore Char.isDigit ('.' :: fs) := by
    rintro c ⟨⟩
    decide
  have hnone : EndsBefore Char.isDigit [] := by simp [EndsBefore]
  have hdrop := Lexeme.dropWhile_append hfs.2 hnone
  rw [List.append_nil] at hdrop
  simp [isUnsignedDecimal, Lexeme.takeWhile_append hds.2 hpoint,
    Lexeme.dropWhile_append hds.2 hpoint, hdrop, hds.1, isExponent]

/-- A decimal number has no zero in front unless it is zero. -/
theorem toDigits_leading {n : Nat} (h : (Nat.toDigits 10 n).head? = some '0') :
    Nat.toDigits 10 n = ['0'] := by
  induction n using Nat.strongRecOn with
  | ind n ih =>
    rcases Nat.lt_or_ge n 10 with hn | hn
    · rw [Nat.toDigits_of_lt_base hn] at h ⊢
      exact congrArg (· :: []) (Option.some.inj h)
    · -- The front of the digits is that of a number which is not zero.
      rw [Nat.toDigits_of_base_le (by decide) hn, List.head?_append_of_ne_nil _ Nat.toDigits_ne_nil]
        at h
      have hzero := congrArg decimal (ih (n / 10) (by omega) h)
      rw [decimal, Nat.ofDigitChars_ten_toDigits] at hzero
      exact absurd hzero (by have : decimal ['0'] = 0 := rfl; omega)

end Text

/-! ## What the text of a literal says -/

namespace Literal

/-- Digits, with a fraction or without. -/
def IsNumber (text : String) : Prop :=
  IsDigits text.toList ∨ ∃ ds fs, IsDigits ds ∧ IsDigits fs ∧ text.toList = ds ++ '.' :: fs

/-- Digits that stand for a number below `2 ^ 63`. -/
def IsInteger (text : String) : Prop :=
  IsDigits text.toList ∧ Text.decimal text.toList ≤ 9223372036854775807

/-- The text of a literal says of which type it is. -/
structure Classified (text : String) : Prop where
  defined : (type? text).isSome
  unit : type? text = some .unit ↔ text = "unit"
  bool : type? text = some .bool ↔ text = "true" ∨ text = "false"
  string : type? text = some .string ↔ text.toList.head? = some '"'
  int : type? text = some .int ↔ IsInteger text
  float : type? text = some .float ↔ IsNumber text ∧ ¬ IsInteger text

theorem type?_eq_unit {text : String} : type? text = some .unit ↔ text = "unit" := by
  unfold type?
  split
  · simp [*]
  · repeat' split
    all_goals simp [*]

theorem type?_eq_bool {text : String} :
    type? text = some .bool ↔ text = "true" ∨ text = "false" := by
  unfold type?
  split
  · rename_i h
    subst h
    decide
  · split
    · rename_i h
      simpa using h
    · rename_i h
      rw [Bool.or_eq_true, decide_eq_true_eq, decide_eq_true_eq] at h
      repeat' split
      all_goals simp [h]

/-- A number is no word and is not quoted. -/
theorem type?_of_head {text : String} {c : Char} (hc : c.isDigit = true)
    (h : text.toList.head? = some c) : type? text =
      if (Text.int64? text).isSome then some .int
      else if Text.isDecimal text then some .float else none := by
  have hne : ∀ w : String, (w.toList.head?.any Char.isDigit) = false → text ≠ w := by
    rintro _ hw rfl
    rw [h] at hw
    exact absurd hc (by simpa using hw)
  have hquote : text.toList.head? ≠ some '"' := by
    rintro heq
    rw [h] at heq
    cases heq
    exact absurd hc (by decide)
  unfold type?
  rw [if_neg (hne "unit" (by decide)), if_neg, if_neg hquote]
  simp [hne "true" (by decide), hne "false" (by decide)]

/-- A number begins with a digit. -/
theorem IsNumber.head {text : String} (h : IsNumber text) :
    ∃ c, c.isDigit = true ∧ text.toList.head? = some c := by
  have hdigits : ∀ ds rest : List Char, IsDigits ds →
      ∃ c, c.isDigit = true ∧ (ds ++ rest).head? = some c := by
    intro ds rest hds
    obtain ⟨c, cs, rfl⟩ := List.exists_cons_of_ne_nil hds.1
    exact ⟨c, hds.2 c List.mem_cons_self, rfl⟩
  rcases h with hds | ⟨ds, fs, hds, -, htext⟩
  · simpa using hdigits _ [] hds
  · rw [htext]
    exact hdigits ds _ hds

theorem IsNumber.isDecimal {text : String} (h : IsNumber text) : Text.isDecimal text = true := by
  obtain ⟨c, hc, hhead⟩ := h.head
  obtain ⟨cs, hcs⟩ := List.head?_eq_some_iff.1 hhead
  have hunsigned : Text.isUnsignedDecimal text.toList = true := by
    rcases h with hds | ⟨ds, fs, hds, hfs, htext⟩
    · exact Text.isUnsignedDecimal_of_isDigits hds
    · rw [htext]
      exact Text.isUnsignedDecimal_fraction hds hfs
  rw [hcs] at hunsigned
  simp [Text.isDecimal, hcs, Text.withoutSign_of_isDigit hc, hunsigned]

/-- A number is read as an integer if and only if it is one. -/
theorem IsNumber.int64? {text : String} (h : IsNumber text) :
    (Text.int64? text).isSome ↔ IsInteger text := by
  rcases h with hds | ⟨ds, fs, hds, -, htext⟩
  · have hvalue := Text.int64?_of_isDigits hds
    rw [String.ofList_toList] at hvalue
    rw [hvalue]
    split
    · rename_i hle
      exact iff_of_true rfl ⟨hds, hle⟩
    · rename_i hgt
      exact iff_of_false (by simp) fun hint => hgt hint.2
  · obtain ⟨c, cs, rfl⟩ := List.exists_cons_of_ne_nil hds.1
    obtain ⟨hplus, hminus⟩ := Text.ne_sign_of_isDigit (hds.2 c List.mem_cons_self)
    have hpoint : '.' ∈ text.toList := by simp [htext]
    have hnone : Text.int64? (String.ofList (c :: (cs ++ '.' :: fs))) = none :=
      Text.int64?_eq_none hplus hminus (d := '.') (by simp) (by decide)
    rw [← List.cons_append, ← htext, String.ofList_toList] at hnone
    rw [hnone]
    exact iff_of_false (by simp) fun hint => absurd (hint.1.2 _ hpoint) (by decide)

theorem IsNumber.classified {text : String} (h : IsNumber text) : Classified text := by
  obtain ⟨c, hc, hhead⟩ := h.head
  have htype := type?_of_head hc hhead
  rw [h.isDecimal, if_pos rfl] at htype
  have hint := h.int64?
  refine ⟨?_, type?_eq_unit, type?_eq_bool, ?_, ?_, ?_⟩
  · rw [htype]
    split <;> rfl
  · exact type?_eq_string.trans decide_eq_true_iff
  · rw [htype, ← hint]
    split <;> simp [*]
  · rw [htype, ← hint]
    split <;> simp [*]

/-- What begins with something else than a digit is no number. -/
theorem not_isNumber {text : String} (h : (text.toList.head?.any Char.isDigit) = false) :
    ¬ IsNumber text := by
  intro hnumber
  obtain ⟨c, hc, hhead⟩ := hnumber.head
  rw [hhead] at h
  exact absurd hc (by simpa using h)

/-- A literal of another type than a number is none. -/
theorem classified_of_type? {text : String} {ty : Ty} (h : type? text = some ty)
    (hint : ty ≠ .int) (hfloat : ty ≠ .float)
    (hnumber : (text.toList.head?.any Char.isDigit) = false) : Classified text where
  defined := h ▸ rfl
  unit := type?_eq_unit
  bool := type?_eq_bool
  string := type?_eq_string.trans decide_eq_true_iff
  int := iff_of_false (by simp [h, hint]) fun hi => not_isNumber hnumber (.inl hi.1)
  float := iff_of_false (by simp [h, hfloat]) fun hf => not_isNumber hnumber hf.1

/-- What a literal in a text looks like. -/
theorem cases_of_fits {text : String} {rest : List Char} (h : Lexeme.Fits (.literal text) rest) :
    text ∈ TokenKind.literalWords ∨ IsNumber text ∨
      ∃ body, text.toList = '"' :: (body ++ ['"']) ∧ StringBody body := by
  generalize hkind : TokenKind.literal text = kind at h
  cases h with
  | keyword hk => exact absurd (hkind ▸ hk) (by simp [TokenKind.keywords])
  | symbol hk => exact absurd (hkind ▸ hk) (by simp [TokenKind.symbols])
  | identifier => cases hkind
  | literalWord hw =>
    cases hkind
    exact .inl hw
  | whole hds =>
    cases hkind
    exact .inr (.inl (.inl (by rwa [String.toList_ofList])))
  | @fraction ds fs _ hds hfs =>
    cases hkind
    exact .inr (.inl (.inr ⟨ds, fs, hds, hfs, String.toList_ofList⟩))
  | @string body _ hbody =>
    cases hkind
    exact .inr (.inr ⟨body, String.toList_ofList, hbody⟩)

/-- Whatever stands in a text as a literal has a type. -/
theorem classified_of_fits {text : String} {rest : List Char}
    (h : Lexeme.Fits (.literal text) rest) : Classified text := by
  rcases cases_of_fits h with hword | hnumber | ⟨body, htext, -⟩
  · have hwords : ∀ w ∈ TokenKind.literalWords, (w.toList.head?.any Char.isDigit) = false ∧
        (type? w = some .unit ∨ type? w = some .bool) := by decide
    obtain ⟨hhead, hty | hty⟩ := hwords _ hword
    · exact classified_of_type? hty (by decide) (by decide) hhead
    · exact classified_of_type? hty (by decide) (by decide) hhead
  · exact hnumber.classified
  · have hhead : text.toList.head? = some '"' := by rw [htext, List.head?_cons]
    refine classified_of_type? (type?_eq_string.2 (decide_eq_true hhead)) (by decide) (by decide) ?_
    rw [hhead]
    decide

/-- A literal that begins with a quote ends with one that nothing escapes, on the same line. -/
theorem quoted_of_fits {text : String} {rest : List Char} (h : Lexeme.Fits (.literal text) rest)
    (hquote : text.toList.head? = some '"') :
    ∃ body, text.toList = '"' :: (body ++ ['"']) ∧ StringBody body ∧ '\n' ∉ text.toList := by
  rcases cases_of_fits h with hword | hnumber | ⟨body, htext, hbody⟩
  · have hwords : ∀ w ∈ TokenKind.literalWords, w.toList.head? ≠ some '"' := by decide
    exact absurd hquote (hwords _ hword)
  · refine absurd hnumber (not_isNumber ?_)
    rw [hquote]
    decide
  · exact ⟨body, htext, hbody, by simp [htext, hbody.newline_not_mem]⟩

/-! ## What becomes of an integer -/

/-- A row of digits without a zero in front, unless it is the only one. -/
def IsCanonical (ds : List Char) : Prop := IsDigits ds ∧ (ds.head? = some '0' → ds = ['0'])

theorem isCanonical_toDigits (n : Nat) : IsCanonical (Nat.toDigits 10 n) :=
  ⟨⟨Nat.toDigits_ne_nil, fun _ => Nat.isDigit_of_mem_toDigits (by decide) (by decide)⟩,
    Text.toDigits_leading⟩

/-- A literal is typed, placed and emitted as an instruction that loads a number, which is written
in its shortest form. -/
def EmittedAs (text : String) (value : Nat) : Prop :=
  ∀ (n : Node) (constant : Option String) (table : DeclTable) (s : Layout) (env : Surroundings)
    (labels : Labels), ∃ i : Instr, ∃ ds : List Char,
      (((Expr.literal n text constant).resolveTypes table).value.place s).value.emit env labels =
        .ok (.instrs (remark env.comments "literal expression" ++ [i]), labels) ∧
      i = .mov (.imm value) Reg.rax ∧
      i.text = "mov $" ++ String.ofList ds ++ ", %rax" ∧ IsCanonical ds ∧ Text.decimal ds = value

theorem emitted_of_isInteger {text : String} (h : IsInteger text) :
    EmittedAs text (Text.decimal text.toList) := by
  intro n constant table s env labels
  have hnumber : IsNumber text := .inl h.1
  have htype : type? text = some .int := hnumber.classified.int.2 h
  have hvalue := Text.int64?_of_isDigits h.1
  rw [String.ofList_toList, if_pos h.2] at hvalue
  refine ⟨_, Nat.toDigits 10 (Text.decimal text.toList), ?_, rfl, ?_, isCanonical_toDigits _,
    Nat.ofDigitChars_ten_toDigits⟩
  · simp [Expr.resolveTypes, htype, Expr.place, Expr.emit, literalCode, hvalue]
    rfl
  · have hparts : ∀ d : String,
        "mov " ++ ("$" ++ d) ++ ", " ++ "%rax" = "mov $" ++ d ++ ", %rax" := by
      intro d
      apply String.toList_injective
      simp
    rw [← Nat.toString_eq_ofList_toDigits]
    exact hparts _

/-- The text of a literal says of which type it is, where it ends and which number it stands for. -/
structure Understood (text : String) : Prop extends Classified text where
  closed : text.toList.head? = some '"' →
    ∃ body, text.toList = '"' :: (body ++ ['"']) ∧ StringBody body ∧ '\n' ∉ text.toList
  emitted : type? text = some .int → EmittedAs text (Text.decimal text.toList)

theorem understood_of_fits {text : String} {rest : List Char}
    (h : Lexeme.Fits (.literal text) rest) : Understood text where
  toClassified := classified_of_fits h
  closed := quoted_of_fits h
  emitted hint := emitted_of_isInteger ((classified_of_fits h).int.1 hint)

end Literal

/-! ## What has no type -/

/-- What type resolution reports at a node itself. -/
def Expr.untyped (table : DeclTable) : Expr → Report
  | .literal n text _ =>
    if (Literal.type? text).isSome then [] else [(Problem.untypedLiteral text).located n.location]
  | .var _ ident => table.reportUntyped ident
  | .call _ callee _ => table.reportUntyped callee
  | .bind _ _ type _ => type.report
  | _ => []

theorem mem_resolveTypesAll {table : DeclTable} {es : List Expr} {d : Diagnostic}
    (h : d ∈ (resolveTypesAll table es).report) :
    ∃ e ∈ es, d ∈ (e.resolveTypes table).report := by
  induction es with
  | nil => cases h
  | cons e es ih =>
    rcases List.mem_append.1 h with h | h
    · exact ⟨e, List.mem_cons_self, h⟩
    · obtain ⟨c, hc, hd⟩ := ih h
      exact ⟨c, List.mem_cons_of_mem _ hc, hd⟩

theorem mem_resolveTypesOpt {table : DeclTable} {e : Option Expr} {d : Diagnostic}
    (h : d ∈ (resolveTypesOpt table e).report) :
    ∃ c ∈ e.toList, d ∈ (c.resolveTypes table).report := by
  cases e with
  | none => cases h
  | some e => exact ⟨e, by simp, h⟩

/-- Type resolution reports something at a node or at one below it. -/
theorem Expr.mem_resolveTypes {table : DeclTable} {e : Expr} {d : Diagnostic}
    (h : d ∈ (e.resolveTypes table).report) :
    d ∈ e.untyped table ∨ ∃ c ∈ e.children, d ∈ (c.resolveTypes table).report := by
  cases e with
  | literal n text constant =>
    left
    unfold Expr.resolveTypes at h
    unfold Expr.untyped
    split at h <;> simp_all
  | var | brk => exact .inl h
  | call n callee arguments =>
    rcases List.mem_append.1 h with h | h
    · exact .inr (mem_resolveTypesAll h)
    · exact .inl h
  | block n body result =>
    right
    rcases List.mem_append.1 h with h | h
    · obtain ⟨c, hc, hd⟩ := mem_resolveTypesAll h
      exact ⟨c, List.mem_append_left _ hc, hd⟩
    · obtain ⟨c, hc, hd⟩ := mem_resolveTypesOpt h
      exact ⟨c, List.mem_append_right _ hc, hd⟩
  | bind n ident type value =>
    rcases List.mem_append.1 h with h | h
    · exact .inl h
    · exact .inr ⟨value, List.mem_singleton_self _, h⟩
  | assign | unary | group | ret => exact .inr ⟨_, List.mem_singleton_self _, h⟩
  | binary | loop =>
    right
    rcases List.mem_append.1 h with h | h
    · exact ⟨_, List.mem_cons_self, h⟩
    · exact ⟨_, List.mem_cons_of_mem _ List.mem_cons_self, h⟩
  | branch n condition onTrue onFalse =>
    right
    rcases List.mem_append.1 h with h | h
    · rcases List.mem_append.1 h with h | h
      · exact ⟨_, List.mem_cons_self, h⟩
      · exact ⟨_, List.mem_cons_of_mem _ List.mem_cons_self, h⟩
    · obtain ⟨c, hc, hd⟩ := mem_resolveTypesOpt h
      exact ⟨c, List.mem_cons_of_mem _ (List.mem_cons_of_mem _ hc), hd⟩

/-- Everything that type resolution reports in a tree is reported at some node of it. -/
theorem Expr.exists_untyped {table : DeclTable} {d : Diagnostic} {e : Expr}
    (h : d ∈ (e.resolveTypes table).report) : ∃ x : Expr, x.Inside e ∧ d ∈ x.untyped table := by
  induction e using Expr.induction_children with
  | h e ih =>
    rcases Expr.mem_resolveTypes h with h | ⟨c, hc, h⟩
    · exact ⟨e, .here, h⟩
    · obtain ⟨x, hx, hd⟩ := ih c hc h
      exact ⟨x, .child hc hx, hd⟩

/-- A literal has a type, and what is used is a word. -/
def Expr.Legible : Expr → Prop
  | .literal _ text _ => (Literal.type? text).isSome
  | .var _ ident | .call _ ident _ => IsWord ident.name.toList
  | _ => True

theorem Expr.legible_strip (k : Keep) (e : Expr) : (e.strip k).Legible ↔ e.Legible := by
  cases e <;> exact Iff.rfl

/-- A diagnostic about a literal that has no type. -/
def Diagnostic.IsUntypedLiteral (d : Diagnostic) : Prop :=
  d.kind = .unresolvedType ∧ ∃ text, d.message = (Problem.untypedLiteral text).message

/-- A word has no blank in it, so a message about a name does not read as one about a literal. -/
theorem Problem.untypedName_message_ne {name : String} (h : IsWord name.toList) (text : String) :
    (untypedName name).message ≠ (untypedLiteral text).message := by
  intro hmessage
  have htext : "cannot resolve type of " ++ name = "cannot resolve type of literal " ++ text :=
    hmessage
  have hchars : "cannot resolve type of ".toList ++ name.toList =
      "cannot resolve type of ".toList ++ ("literal ".toList ++ text.toList) := by
    simpa using congrArg String.toList htext
  have hblank : ' ' ∈ name.toList := by simp [List.append_cancel_left hchars]
  exact absurd (h.all _ hblank) (by decide)

theorem Problem.unknownType_message_ne (name text : String) :
    (unknownType name).message ≠ (untypedLiteral text).message := by
  intro hmessage
  have hhead : ("unknown type " ++ name).toList.head? =
      ("cannot resolve type of literal " ++ text).toList.head? :=
    congrArg (·.toList.head?) hmessage
  simp at hhead

theorem DeclTable.not_isUntypedLiteral {table : DeclTable} {i : Ident} (hi : IsWord i.name.toList)
    {d : Diagnostic} (h : d ∈ table.reportUntyped i) : ¬ d.IsUntypedLiteral := by
  unfold DeclTable.reportUntyped at h
  split at h
  · cases h
  · rintro ⟨-, text, htext⟩
    rw [List.mem_singleton.1 h] at htext
    exact Problem.untypedName_message_ne hi text htext

theorem TypeRef.not_isUntypedLiteral {type : TypeRef} {d : Diagnostic} (h : d ∈ type.report) :
    ¬ d.IsUntypedLiteral := by
  unfold TypeRef.report at h
  split at h
  · cases h
  · rintro ⟨-, text, htext⟩
    rw [List.mem_singleton.1 h] at htext
    exact Problem.unknownType_message_ne type.name text htext

/-- No literal is reported in a tree whose literals have types. -/
theorem Expr.not_isUntypedLiteral {table : DeclTable} {e : Expr} (he : e.Everywhere Expr.Legible)
    {d : Diagnostic} (h : d ∈ (e.resolveTypes table).report) : ¬ d.IsUntypedLiteral := by
  obtain ⟨x, hx, hd⟩ := Expr.exists_untyped h
  have hlegible := he x hx
  cases x with
  | literal n text constant =>
    have hty : (Literal.type? text).isSome = true := hlegible
    rw [Expr.untyped, if_pos hty] at hd
    cases hd
  | var n ident => exact DeclTable.not_isUntypedLiteral hlegible hd
  | call n callee arguments => exact DeclTable.not_isUntypedLiteral hlegible hd
  | bind n ident type value => exact TypeRef.not_isUntypedLiteral hd
  | _ => cases hd

theorem reportHeader_not_isUntypedLiteral {returns : TypeRef} {params : List Param} {d : Diagnostic}
    (h : d ∈ reportHeader returns params) : ¬ d.IsUntypedLiteral := by
  rcases List.mem_append.1 h with h | h
  · exact TypeRef.not_isUntypedLiteral h
  · obtain ⟨p, -, h⟩ := List.mem_flatMap.1 h
    exact TypeRef.not_isUntypedLiteral h

theorem Program.types_not_isUntypedLiteral {p : Program}
    (h : ∀ f ∈ p.functions, f.body.Everywhere Expr.Legible) :
    ∀ d ∈ p.analyze.types, ¬ d.IsUntypedLiteral := by
  have hnamed := everywhere_of_strip_eq (Expr.legible_strip _) p.strip_resolveNames h
  intro d hd
  rcases List.mem_append.1 hd with hd | hd
  · obtain ⟨e, -, hd⟩ := List.mem_flatMap.1 hd
    exact reportHeader_not_isUntypedLiteral hd
  · obtain ⟨t, ht, hd⟩ := List.mem_flatMap.1 hd
    obtain ⟨f, hf, rfl⟩ := List.mem_map.1 ht
    rcases List.mem_append.1 hd with hd | hd
    · exact reportHeader_not_isUntypedLiteral hd
    · exact Expr.not_isUntypedLiteral (hnamed f hf) hd

/-! ## The other passes -/

namespace Report

@[simp] theorem countOf_nil (kind : DiagnosticKind) : countOf [] kind = 0 := rfl

@[simp] theorem countOf_append (r s : Report) (kind : DiagnosticKind) :
    countOf (r ++ s) kind = countOf r kind + countOf s kind := List.countP_append

@[simp] theorem countOf_located (q : Problem) (l : Location) (kind : DiagnosticKind) :
    countOf [q.located l] kind = if q.kind = kind then 1 else 0 := by
  simp [countOf, Problem.located, List.countP_cons]

@[simp] theorem countOf_ite (c : Prop) [Decidable c] (r s : Report) (kind : DiagnosticKind) :
    countOf (if c then r else s) kind = if c then countOf r kind else countOf s kind :=
  apply_ite (countOf · kind) c r s

theorem countOf_flatMap {α : Type} {as : List α} {r : α → Report} {kind : DiagnosticKind}
    (h : ∀ a ∈ as, countOf (r a) kind = 0) : countOf (as.flatMap r) kind = 0 := by
  induction as with
  | nil => rfl
  | cons a as ih =>
    rw [List.forall_mem_cons] at h
    rw [List.flatMap_cons, countOf_append, h.1, ih h.2]

theorem not_mem_of_countOf {r : Report} {kind : DiagnosticKind} (h : r.countOf kind = 0)
    {d : Diagnostic} (hd : d ∈ r) : d.kind ≠ kind := by
  have := List.countP_eq_zero.1 h d hd
  simpa using this

end Report

section
variable (s : Names)

@[simp] theorem Names.countOf_declare (i : Ident) (kind : DeclKind) (ty : Ty)
    (signature : Option Signature) :
    (s.declare i kind ty signature).report.countOf .unresolvedType = 0 := by
  unfold Names.declare
  dsimp only
  split <;> simp [Problem.kind]

@[simp] theorem Names.countOf_refer (i : Ident) :
    (s.refer i).report.countOf .unresolvedType = 0 := by
  unfold Names.refer
  simp [Problem.kind]

end

mutual

/-- Name resolution reports no types. -/
theorem Expr.countOf_resolveNames (s : Names) (e : Expr) :
    (e.resolveNames s).report.countOf .unresolvedType = 0 := by
  cases e <;>
    simp [Expr.resolveNames, Expr.countOf_resolveNames, countOf_resolveNamesAll,
      countOf_resolveNamesOpt]

theorem countOf_resolveNamesAll (s : Names) (es : List Expr) :
    (resolveNamesAll s es).report.countOf .unresolvedType = 0 := by
  cases es <;> simp [resolveNamesAll, Expr.countOf_resolveNames, countOf_resolveNamesAll]

theorem countOf_resolveNamesOpt (s : Names) (e : Option Expr) :
    (resolveNamesOpt s e).report.countOf .unresolvedType = 0 := by
  cases e <;> simp [resolveNamesOpt, Expr.countOf_resolveNames]

end

theorem countOf_resolveEach {α : Type} {resolve : Names → α → Resolved α}
    (h : ∀ s a, (resolve s a).report.countOf .unresolvedType = 0) (s : Names) (as : List α) :
    (resolveEach resolve s as).report.countOf .unresolvedType = 0 := by
  induction as generalizing s with
  | nil => rfl
  | cons a as ih => simp [resolveEach, h, ih]

theorem Program.countOf_names (p : Program) : p.analyze.names.countOf .unresolvedType = 0 := by
  have hparam (s : Names) (q : Param) : (q.resolveNames s).report.countOf .unresolvedType = 0 :=
    s.countOf_declare q.ident _ _ _
  have hexternal (s : Names) (e : External) :
      (e.resolveNames s).report.countOf .unresolvedType = 0 := by
    simp [External.resolveNames, countOf_resolveEach hparam]
  have hdeclare (s : Names) (f : Function) :
      (f.declareName s).report.countOf .unresolvedType = 0 := by
    simp [Function.declareName]
  have hinside (s : Names) (f : Function) :
      (f.resolveInside s).report.countOf .unresolvedType = 0 := by
    simp [Function.resolveInside, countOf_resolveEach hparam, Expr.countOf_resolveNames]
  simp [Program.analyze, Program.resolveNames, countOf_resolveEach hexternal,
    countOf_resolveEach hdeclare, countOf_resolveEach hinside]

section
variable (table : DeclTable)

@[simp] theorem DeclTable.countOf_checkValue (i : Ident) :
    (table.checkValue i).countOf .unresolvedType = 0 := by
  unfold DeclTable.checkValue
  repeat' split
  all_goals simp [Problem.kind]

theorem DeclTable.countOf_missingArguments (name : String) (l : Location) (position : Nat)
    (ts : List Ty) : (missingArguments name l position ts).countOf .unresolvedType = 0 := by
  induction ts generalizing position with
  | nil => rfl
  | cons t ts ih =>
    rw [missingArguments, ← List.singleton_append, Report.countOf_append, ih]
    simp [Problem.kind]

theorem DeclTable.countOf_checkArguments (name : String) (l : Location) (variadic : Bool)
    (position : Nat) (es : List Expr) (ts : List Ty) :
    (checkArguments name l variadic position es ts).countOf .unresolvedType = 0 := by
  fun_induction checkArguments name l variadic position es ts with
  | case1 => exact countOf_missingArguments ..
  | case2 position a as t ts ih => simp [ih, Problem.kind]
  | case3 position a as ih => simp [ih, Problem.kind]

@[simp] theorem DeclTable.countOf_checkCall (callee : Ident) (arguments : List Expr)
    (l : Location) : (table.checkCall callee arguments l).countOf .unresolvedType = 0 := by
  unfold DeclTable.checkCall
  split
  · rfl
  · split
    · simp [Problem.kind]
    · simp [countOf_checkArguments, Problem.kind]

end

@[simp] theorem countOf_checkCondition (construct : Conditional) (e : Expr) :
    (checkCondition construct e).countOf .unresolvedType = 0 := by
  simp [checkCondition, Problem.kind]

mutual

/-- The type rules report no types that are not there. -/
theorem Expr.countOf_check (table : DeclTable) (returns : Ty) (depth : Nat) (e : Expr) :
    (e.check table returns depth).countOf .unresolvedType = 0 := by
  cases e with
  | branch n condition onTrue onFalse =>
    cases onFalse <;>
      simp [Expr.check, Expr.countOf_check, checkOpt, Problem.kind]
  | assign n target value =>
    simp only [Expr.check, Report.countOf_append, Expr.countOf_check,
      DeclTable.countOf_checkValue]
    split <;> simp [Problem.kind]
  | _ =>
    simp [Expr.check, Expr.countOf_check, countOf_checkAll, countOf_checkOpt,
      Problem.kind]

theorem countOf_checkAll (table : DeclTable) (returns : Ty) (depth : Nat) (es : List Expr) :
    (checkAll table returns depth es).countOf .unresolvedType = 0 := by
  cases es <;> simp [checkAll, Expr.countOf_check, countOf_checkAll]

theorem countOf_checkOpt (table : DeclTable) (returns : Ty) (depth : Nat) (e : Option Expr) :
    (checkOpt table returns depth e).countOf .unresolvedType = 0 := by
  cases e <;> simp [checkOpt, Expr.countOf_check]

end

theorem Program.countOf_checks (p : Program) : p.analyze.checks.countOf .unresolvedType = 0 := by
  refine Report.countOf_flatMap fun f _ => ?_
  simp [Function.check, Expr.countOf_check, Problem.kind]

/-! ## Programs that were read from a text -/

/-- What one reading gives fits, also if a later one fails. -/
theorem Cursor.fits_of_next {c : Cursor} {t : Token} (h : c.next.1 = .ok t)
    (hend : t.kind ≠ .endOfFile) : ∃ rest, Lexeme.Fits t.kind rest := by
  unfold next readHere at h
  cases hfront : Lexeme.front c.skip.rest with
  | token kind rest =>
    rw [hfront] at h
    cases h
    exact ⟨rest, (Lexeme.front_eq_token_iff.1 hfront).1⟩
  | brokenString | stray => rw [hfront] at h; cases h
  | nothing =>
    rw [hfront] at h
    cases h
    exact absurd rfl hend

theorem fits_of_tokenize {file source : String} {ts : List Token}
    (h : tokenize file source = .ok ts) :
    ∀ t ∈ ts, t.kind ≠ .endOfFile → ∃ rest, Lexeme.Fits t.kind rest := by
  obtain ⟨read, rfl, hread⟩ := lexed_of_tokenize h
  intro t ht hkind
  rcases List.mem_append.1 ht with ht | ht
  · exact hread.fits t ht
  · exact absurd (congrArg Token.kind (List.mem_singleton.1 ht)) hkind

/-- An identifier is a word. -/
theorem Lexeme.Fits.isWord {name : String} {rest : List Char}
    (h : Lexeme.Fits (.identifier name) rest) : IsWord name.toList := by
  generalize hkind : TokenKind.identifier name = kind at h
  cases h with
  | keyword hk => exact absurd (hkind ▸ hk) (by simp [TokenKind.keywords])
  | symbol hk => exact absurd (hkind ▸ hk) (by simp [TokenKind.symbols])
  | identifier hw => exact TokenKind.identifier.inj hkind ▸ hw
  | _ => cases hkind

theorem legible_of_parse {file source : String} {ts : List Token} {p : Program}
    (hts : tokenize file source = .ok ts) (hp : parse ts = .ok p) :
    ∀ f ∈ p.functions, f.body.Everywhere Expr.Legible := by
  intro f hf x hx
  have hfits : ∀ kind, .token kind ∈ x.print → kind ≠ .endOfFile →
      ∃ rest, Lexeme.Fits kind rest := by
    intro kind hkind hend
    have hprint := (Expr.print_inside hx).trans f.print_body_infix
    obtain ⟨t, ht, rfl⟩ := exists_token_of_print hts hp hf (hprint.subset hkind)
    exact fits_of_tokenize hts t ht hend
  have hword : ∀ name, .token (.identifier name) ∈ x.print → IsWord name.toList := by
    intro name hname
    obtain ⟨rest, hrest⟩ := hfits _ hname (by simp)
    exact hrest.isWord
  cases x with
  | literal n text constant =>
    obtain ⟨rest, hrest⟩ := hfits (.literal text) (by simp [Expr.print]) (by simp)
    exact (Literal.classified_of_fits hrest).defined
  | var n ident => exact hword ident.name (by simp [Expr.print, Ident.print])
  | call n callee arguments => exact hword callee.name (by simp [Expr.print, Ident.print])
  | _ => trivial

/-- Whatever is read as a literal has the type that its text shows, wherever it is read and whether
or not the text behind it can be read: a string ends with the first quote that nothing escapes, and
an integer is emitted as the number that its digits stand for. So analysis reports no literal of a
program that is read from a text. -/
theorem literals_typed :
    (∀ (c : Cursor) (t : Token) (text : String), c.next.1 = .ok t → t.kind = .literal text →
      Literal.Understood text) ∧
    ∀ (file source : String) (ts : List Token), tokenize file source = .ok ts →
      (∀ t ∈ ts, ∀ text, t.kind = .literal text → Literal.Understood text) ∧
      ∀ p, parse ts = .ok p → ∀ d ∈ p.analyze.report, ¬ d.IsUntypedLiteral := by
  refine ⟨fun c t text hnext hkind => ?_, fun file source ts h => ⟨fun t ht text hkind => ?_, ?_⟩⟩
  · obtain ⟨rest, hfits⟩ := Cursor.fits_of_next hnext (by simp [hkind])
    exact Literal.understood_of_fits (hkind ▸ hfits)
  · obtain ⟨rest, hfits⟩ := fits_of_tokenize h t ht (by simp [hkind])
    exact Literal.understood_of_fits (hkind ▸ hfits)
  · rintro p hp d hd ⟨hkind, hmessage⟩
    have hlegible := legible_of_parse h hp
    rcases List.mem_append.1 hd with hd | hd
    · rcases List.mem_append.1 hd with hd | hd
      · exact Report.not_mem_of_countOf p.countOf_names hd hkind
      · exact Program.types_not_isUntypedLiteral hlegible d hd ⟨hkind, hmessage⟩
    · exact Report.not_mem_of_countOf p.countOf_checks hd hkind

/-- The greatest integer behind zeros, the number after it, a fraction, and a string with a quote and
a comment in it. -/
def numeralsText : String :=
  "int main() " ++ braced ("let a: float = 9223372036854775808; let b: float = 01.50; " ++
    "let c: string = \"\\\"//\"; 0009223372036854775807")

theorem literals_typed_numerals :
    ∃ ts p, tokenize "main" numeralsText = .ok ts ∧ parse ts = .ok p ∧
      (∀ text ∈ ["9223372036854775808", "01.50", "\"\\\"//\"", "0009223372036854775807"],
        Literal.Understood text) ∧
      Literal.EmittedAs "0009223372036854775807" 9223372036854775807 ∧
      ∀ d ∈ p.analyze.report, ¬ d.IsUntypedLiteral := by
  have htexts : ((tokenize "main" numeralsText).toOption.any fun ts =>
      (["9223372036854775808", "01.50", "\"\\\"//\"", "0009223372036854775807"].all fun text =>
        (ts.map Token.kind).contains (.literal text)) && (parse ts).toOption.isSome) = true := by
    decide +kernel
  obtain ⟨ts, hts, hq⟩ := (Option.any_eq_true ..).1 htexts
  obtain ⟨hliterals, hp⟩ := Bool.and_eq_true_iff.1 hq
  obtain ⟨p, hp⟩ := Option.isSome_iff_exists.1 hp
  obtain ⟨htokens, hreport⟩ := literals_typed.2 _ _ _ (eq_ok_of_toOption hts)
  have htoken : ∀ text ∈ ["9223372036854775808", "01.50", "\"\\\"//\"", "0009223372036854775807"],
      ∃ t ∈ ts, t.kind = .literal text := by
    intro text htext
    exact List.mem_map.1 (List.contains_iff_mem.1 (List.all_eq_true.1 hliterals text htext))
  refine ⟨ts, p, eq_ok_of_toOption hts, eq_ok_of_toOption hp, fun text htext => ?_, ?_,
    hreport p (eq_ok_of_toOption hp)⟩
  · obtain ⟨t, ht, hkind⟩ := htoken text htext
    exact htokens t ht text hkind
  · obtain ⟨t, ht, hkind⟩ := htoken "0009223372036854775807" (by simp)
    exact (htokens t ht _ hkind).emitted (by decide +kernel)

end Ilang
