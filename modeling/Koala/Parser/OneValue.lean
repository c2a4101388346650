import Koala.Parser.Accepted
import Koala.Parser.Append

open koala.typedesc

namespace koala.parser

set_option linter.style.nameCheck false

/-- The depth of the operand stack behind an instruction, counted from where the
code starts. There is none below the operands of an operator. -/
def Inst.depth (inst : Inst) (depth : Nat) : Option Nat :=
  match inst.op with
  | .LOAD_CONST | .LOAD => some (depth + 1)
  | .ADD | .SUB | .MUL | .DIV | .MOD | .GT | .GE | .LT | .LE | .EQ | .NEQ =>
    if 2 ≤ depth then some (depth - 1) else none
  | _ => none

def depth_of : List Inst → Nat → Option Nat
  | [], depth => some depth
  | inst :: insts, depth => do
    let depth ← inst.depth depth
    depth_of insts depth

/-- The instructions of the current unit. -/
def ParserState.insts (ps : ParserState) : Option (List Inst) := do
  let u ← ps.u
  let b ← u.block
  some b.insts

/-- The state is inside a function, and the code of the current scope goes to a
block. -/
structure InFunction (ps : ParserState) (u : ParserUnit) (b : CodeBlock) : Prop where
  unit : ps.u = some u
  scope : u.scope = .SCOPE_FUNCTION ∨ u.scope = .SCOPE_BLOCK ∨ u.scope = .SCOPE_CLOSURE
  block : u.block = some b

/-- A name of a variable or a parameter, declared in the current scope or, when
it is not, in a scope of a function above. -/
def LocalName (ps : ParserState) (u : ParserUnit) (name : CString) : Prop :=
  (∃ sym, ps.get u name = .ok (some sym) ∧ sym.kind = .SYM_VAR) ∨
    (ps.get u name = .ok none ∧ ∃ sym scope, find_up ps name ps.ustack = .ok (some (sym, scope)) ∧
      sym.kind = .SYM_VAR ∧ scope ≠ .SCOPE_MODULE ∧ scope ≠ .SCOPE_CLASS)

/-- The expressions over literals, local variables and binary operators. -/
inductive LocalExpr (ps : ParserState) (u : ParserUnit) : Expr → Prop where
  | CONST (value : ConstValue) (pos : Position) : LocalExpr ps u (.CONST value pos)
  | ID {name : CString} (pos : Position) (hname : LocalName ps u name) :
    LocalExpr ps u (.ID name pos)
  | BINARY {lexp rexp : Expr} (op : BinaryOpKind) (pos : Position)
    (hleft : LocalExpr ps u lexp) (hright : LocalExpr ps u rexp) :
    LocalExpr ps u (.BINARY op lexp rexp pos)

/-- Sums and differences of literals are folded. -/
def folds : Expr → Bool
  | .CONST .. => true
  | .BINARY op lexp rexp _ =>
    folds lexp && folds rexp && (op = .BINARY_ADD || op = .BINARY_SUB)
  | _ => false

/-- An expression that gives code: a literal, a name of the current scope, or an
expression that is folded. -/
def GivesCode (ps : ParserState) (u : ParserUnit) : Expr → Prop
  | .ID name _ => ∃ sym, ps.get u name = .ok (some sym) ∧ sym.desc.isSome = true
  | exp => folds exp = true

section value

variable [Build] [Arith]

/-- The code of an expression leaves its value on the operand stack. -/
def OneValue (ps : ParserState) (exp : Expr) : Prop :=
  ∃ info ps' old code, parser_visit_expr exp .EXPR_LOAD ps = .ok (info, ps') ∧
    ps.insts = some old ∧ ps'.insts = some (old ++ code) ∧ depth_of code 0 = some 1

end value

section parsed

variable {ps ps' : ParserState} {u : ParserUnit} {b : CodeBlock}

/-- What reports errors and reports none changes nothing. -/
theorem Reported.eq_of_errors (h : Reported ps ps') (herrors : ps'.errors = ps.errors) :
    ps' = ps := by
  obtain ⟨es, rfl⟩ := h
  have hnil : es = [] := List.append_right_eq_self.mp herrors
  rw [hnil, ParserState.append_nil]

theorem Reported.errors_le (h : Reported ps ps') : ps.errors.length ≤ ps'.errors.length := by
  obtain ⟨es, rfl⟩ := h
  rw [ParserState.append, List.length_append]
  exact Nat.le_add_right _ _

/-- Between two equal states no error is reported. -/
theorem Reported.squeeze {ps₁ : ParserState} (h : Reported ps ps₁) (h' : Reported ps₁ ps) :
    ps₁ = ps := by
  obtain ⟨es, rfl⟩ := h
  obtain ⟨es', heq⟩ := h'
  rw [ParserState.append_append] at heq
  have herrors : ps.errors ++ (es ++ es') = ps.errors := (congrArg ParserState.errors heq).symm
  have hnil : es = [] := (List.append_eq_nil_iff.mp (List.append_right_eq_self.mp herrors)).1
  rw [hnil, ParserState.append_nil]

theorem LocalName.parse {name : CString} {pos : Position} {info : ExprInfo}
    (hu : ps.u = some u) (hname : LocalName ps u name)
    (h : Parse_Ident_Expr ps name pos = .ok (info, ps')) :
    ∃ sym, sym.kind = .SYM_VAR ∧
      ((ps.get u name = .ok (some sym) ∧
          info = ⟨sym.desc, some sym, none, some (.CURRENT_SCOPE, u.scope)⟩) ∨
        (ps.get u name = .ok none ∧
          ∃ scope, info = ⟨sym.desc, some sym, none, some (.UP_SCOPE, scope)⟩)) := by
  unfold Parse_Ident_Expr at h
  rw [hu] at h
  change (ps.get u name >>= _) = _ at h
  rcases hname with ⟨sym, hget, hkind⟩ | ⟨hget, sym, scope, hup, hkind, -⟩
  · rw [hget, ok_bind] at h
    cases h
    exact ⟨sym, hkind, Or.inl ⟨hget, rfl⟩⟩
  · rw [hget, ok_bind] at h
    dsimp only at h
    rw [hup, ok_bind] at h
    cases h
    exact ⟨sym, hkind, Or.inr ⟨hget, scope, rfl⟩⟩

theorem folds_desc {exp : Expr} (h : folds exp = true) :
    ∃ value : ConstValue, exp.desc = some (.base value.kind) := by
  induction exp using folds.induct with
  | case1 value pos => exact ⟨value, rfl⟩
  | case2 op lexp rexp pos ihl _ =>
    rw [folds, Bool.and_eq_true, Bool.and_eq_true] at h
    exact ihl h.1.1
  | case3 exp hconst hbinary =>
    rw [folds] at h
    · cases h
    · exact hconst
    · exact hbinary

section folding

variable [Build] [Arith]

/-- What the operands of the types of literals are computed to. -/
theorem optimize_binary_isSome (value : ConstValue) {op : BinaryOpKind}
    {lval rval : Option ConstValue} {pos : Position} :
    Post (fun r => r.1.isSome = (op = .BINARY_ADD || op = .BINARY_SUB))
      (__optimize_binary_expr op (some (.base value.kind)) lval rval pos ps) := by
  have hmul : Post (fun r => r.1.isSome = false) (optimize_int_nothing rval ps) :=
    Post.bind fun _ _ => Post.ok rfl
  have hadd : Post (fun r => r.1.isSome = true) (__optimize_int_add lval rval pos ps) := by
    unfold __optimize_int_add
    cases rval with
    | none => exact Post.bind fun _ _ => Post.ok rfl
    | some v =>
      cases v with
      | BASE_STRING str =>
        dsimp only
        split <;> exact Post.ok rfl
      | _ => exact Post.ok rfl
  have hsub : Post (fun r => r.1.isSome = true) (__optimize_int_sub lval rval ps) := by
    unfold __optimize_int_sub
    cases rval with
    | none => exact Post.bind fun _ _ => Post.error
    | some v =>
      cases v with
      | BASE_INT v => exact Post.ok rfl
      | _ => exact Post.error
  have hfail : ∀ {P : Option ConstValue × ParserState → Prop},
      Post P (assert False >>= fun _ => (.error .bounds : Res (Option ConstValue × ParserState))) :=
    Post.bind fun _ _ => Post.error
  cases op with
  | BINARY_ADD => cases value <;> exact hadd
  | BINARY_SUB => cases value <;> exact hsub
  | BINARY_MULT => cases value <;> exact hmul
  | BINARY_DIV => cases value <;> exact hmul
  | _ => cases value <;> exact hfail

theorem parse_binary_isSome {op : BinaryOpKind} {lexp rexp : Expr} {li ri : ExprInfo}
    (hleft : Expr_Is_Const lexp li = folds lexp) (hright : Expr_Is_Const rexp ri = folds rexp) :
    Post (fun r => r.1.val.isSome =
        (folds lexp && folds rexp && (op = .BINARY_ADD || op = .BINARY_SUB)))
      (parse_binary op lexp.desc lexp rexp li ri ps) := by
  refine Post.bind fun _ _ => ?_
  dsimp only
  rw [hleft, hright]
  cases hfolds : folds lexp && folds rexp with
  | false => exact Post.ok rfl
  | true =>
    obtain ⟨value, hdesc⟩ := folds_desc (Bool.and_eq_true_iff.mp hfolds).1
    rw [hdesc]
    refine Post.bind fun lval _ => Post.bind fun rval _ => Post.bind fun r hr => Post.ok ?_
    exact optimize_binary_isSome value r hr

/-- An expression over locals is constant when it is folded. -/
theorem LocalExpr.isConst {exp : Expr} (h : LocalExpr ps u exp) (hu : ps.u = some u)
    (hnum : ps.errnum ≤ MAX_ERRORS) {info : ExprInfo}
    (hparse : Parse_Expression exp ps = .ok (info, ps)) : Expr_Is_Const exp info = folds exp := by
  induction h generalizing info with
  | CONST value pos => rfl
  | ID pos hname =>
    rw [Parse_Expression.eq_def] at hparse
    dsimp only at hparse
    rw [if_neg (by omega)] at hparse
    obtain ⟨sym, hkind, hinfo⟩ := hname.parse hu hparse
    have hsym : info.sym = some sym := by
      rcases hinfo with ⟨-, rfl⟩ | ⟨-, scope, rfl⟩ <;> rfl
    rw [Expr_Is_Const, hsym, folds, Option.any_some, hkind]
    · rfl
    · exact fun _ _ h => nomatch h
    · exact fun _ _ _ _ h => nomatch h
  | @BINARY lexp rexp op pos hl hr ihl ihr =>
    rw [Parse_Expression.eq_def] at hparse
    dsimp only at hparse
    rw [if_neg (by omega)] at hparse
    obtain ⟨⟨li, ps₁⟩, hleft, hparse⟩ := bind_eq_ok_iff.mp hparse
    obtain ⟨_, -, hparse⟩ := bind_eq_ok_iff.mp hparse
    obtain ⟨⟨ri, ps₂⟩, hright, hparse⟩ := bind_eq_ok_iff.mp hparse
    have hreported := Parse_Expression_reported lexp ps _ hleft
    have hreported₁ := Parse_Expression_reported rexp ps₁ _ hright
    have hreported₂ := parse_binary_reported _ hparse
    have h₁ : ps₁ = ps := hreported.squeeze (hreported₁.trans hreported₂)
    have h₂ : ps₂ = ps := (hreported.trans hreported₁).squeeze hreported₂
    subst h₁
    subst h₂
    have hval := parse_binary_isSome (ihl hleft) (ihr hright) _ hparse
    rw [Expr_Is_Const, folds]
    exact hval

end folding

section code

theorem InFunction.insts (h : InFunction ps u b) : ps.insts = some b.insts := by
  rw [ParserState.insts, h.unit]
  change (do let b ← u.block; some b.insts) = _
  rw [h.block]
  rfl

variable [Build]

/-- The code of a variable of the current scope. -/
theorem InFunction.code_current (h : InFunction ps u b) {sym : Symbol} {desc : TypeDesc}
    {scope : ScopeKind} (hkind : sym.kind = .SYM_VAR) (hnum : ps.errnum ≤ MAX_ERRORS)
    {name : CString} {pos : Position} :
    ∃ index, Code_Expression (.ID name pos)
        ⟨some desc, some sym, none, some (.CURRENT_SCOPE, scope)⟩ .EXPR_LOAD none ps =
      ps.emit fun b => CODE_LOAD b index := by
  obtain ⟨name', sdesc, file, spos, data⟩ := sym
  cases data with
  | SYM_VAR index value =>
    refine ⟨index, ?_⟩
    have hcode : code_current_function_block_closure
        ⟨name', sdesc, file, spos, .SYM_VAR index value⟩ (some desc) .EXPR_LOAD none ps =
        ps.emit fun b => CODE_LOAD b index := by
      rw [code_current_function_block_closure, assert_of rfl]
      cases desc <;> rfl
    rw [Code_Expression, if_neg (by omega), Code_Ident_Expr, assert_of ⟨rfl, rfl⟩, h.unit]
    rcases h.scope with hscope | hscope | hscope
    all_goals
      simp only [ok_bind, deref, hscope]
      exact hcode
  | _ => cases hkind

/-- A variable of a scope above gives no code. -/
theorem InFunction.code_up (h : InFunction ps u b) {info : ExprInfo} {scope : ScopeKind}
    (hwhere : info.where = some (.UP_SCOPE, scope)) :
    Post (fun ps' => ps' = ps) (Code_Ident_Expr info .EXPR_LOAD none ps) := by
  refine Post.bind fun _ _ => Post.bind fun u' hu' => ?_
  rw [h.unit] at hu'
  cases hu'
  rw [hwhere]
  refine Post.bind fun sym _ => ?_
  rcases h.scope with hscope | hscope | hscope
  all_goals
    rw [hscope]
    exact Post.ok rfl

/-- Nor does a variable without a type. -/
theorem InFunction.code_untyped (h : InFunction ps u b) {info : ExprInfo} {scope : ScopeKind}
    (hwhere : info.where = some (.CURRENT_SCOPE, scope)) (hdesc : info.desc = none) :
    Post (fun ps' => ps' = ps) (Code_Ident_Expr info .EXPR_LOAD none ps) := by
  refine Post.bind fun _ _ => Post.bind fun u' hu' => ?_
  rw [h.unit] at hu'
  cases hu'
  rw [hwhere]
  refine Post.bind fun sym _ => ?_
  have hcode : Post (fun ps' => ps' = ps)
      (code_current_function_block_closure sym info.desc .EXPR_LOAD none ps) := by
    rw [hdesc]
    exact Post.bind fun _ _ => Post.error
  rcases h.scope with hscope | hscope | hscope
  all_goals
    rw [hscope]
    exact hcode

variable [Arith] {exp : Expr} {info : ExprInfo}

theorem visit_of_parse {ctx : ExprCtx} (hparse : Parse_Expression exp ps = .ok (info, ps)) :
    parser_visit_expr exp ctx ps = (do
      let ps' ← Code_Expression exp info ctx none ps
      .ok (info, ps')) := by
  rw [parser_visit_expr, hparse]
  rfl

/-- One instruction that pushes a value. -/
theorem InFunction.oneValue (h : InFunction ps u b)
    (hparse : Parse_Expression exp ps = .ok (info, ps)) {op : OpCode} {val : Option ConstValue}
    (hop : op = .LOAD_CONST ∨ op = .LOAD)
    (hcode : Code_Expression exp info .EXPR_LOAD none ps = ps.emit fun b => Inst_Append b op val) :
    OneValue ps exp := by
  let ps' : ParserState := { ps with u := some { u with block := some (Inst_Append b op val) } }
  have hemit : ps.emit (fun b => Inst_Append b op val) = .ok ps' := by
    rw [ParserState.emit, h.unit]
    change (deref u.block >>= _) = _
    rw [h.block]
    rfl
  refine ⟨info, ps', b.insts, [⟨op, val, 0⟩], ?_, h.insts, rfl, ?_⟩
  · rw [visit_of_parse hparse, hcode, hemit]
    rfl
  · rcases hop with rfl | rfl <;> rfl

/-- Without code there is no value. -/
theorem not_oneValue (hparse : Parse_Expression exp ps = .ok (info, ps))
    (hcode : Post (fun ps' => ps' = ps) (Code_Expression exp info .EXPR_LOAD none ps)) :
    ¬ OneValue ps exp := by
  rintro ⟨info', ps', old, code, hvisit, hold, hnew, hdepth⟩
  rw [visit_of_parse hparse] at hvisit
  obtain ⟨ps₁, hps₁, heq⟩ := bind_eq_ok_iff.mp hvisit
  cases heq
  rw [hcode ps' hps₁, hold] at hnew
  have hnil : code = [] := List.append_right_eq_self.mp (Option.some.inj hnew).symm
  rw [hnil] at hdepth
  cases hdepth

/-- An expression over locals that is parsed without an error leaves one value
on the operand stack exactly when it gives code. -/
theorem oneValue_iff {ps ps' : ParserState} {u : ParserUnit} {b : CodeBlock}
    (hfunction : InFunction ps u b) (hlocal : LocalExpr ps u exp)
    (hparse : Parse_Expression exp ps = .ok (info, ps')) (herrors : ps'.errors = ps.errors) :
    OneValue ps exp ↔ ps.errnum ≤ MAX_ERRORS ∧ GivesCode ps u exp := by
  have hsame : ps' = ps := (Parse_Expression_reported exp ps _ hparse).eq_of_errors herrors
  subst hsame
  by_cases hnum : ps'.errnum ≤ MAX_ERRORS
  · rw [and_iff_right hnum]
    have hconst := hlocal.isConst hfunction.unit hnum hparse
    cases hlocal with
    | CONST value pos =>
      refine ⟨fun _ => rfl, fun _ => ?_⟩
      have hcode : Code_Expression (.CONST value pos) info .EXPR_LOAD none ps' =
          ps'.emit fun b => Inst_Append b .LOAD_CONST (some value) := by
        rw [Code_Expression, if_neg (by omega), code_const_expr, assert_of rfl]
        rfl
      exact hfunction.oneValue hparse (Or.inl rfl) hcode
    | @ID name pos hname =>
      have hident : Parse_Ident_Expr ps' name pos = .ok (info, ps') := by
        rw [Parse_Expression.eq_def] at hparse
        dsimp only at hparse
        rwa [if_neg (by omega)] at hparse
      obtain ⟨sym, hkind, ⟨hget, rfl⟩ | ⟨hget, scope, rfl⟩⟩ := hname.parse hfunction.unit hident
      · cases hdesc : sym.desc with
        | none =>
          refine ⟨fun h => absurd h (not_oneValue hparse ?_), ?_⟩
          · rw [Code_Expression, if_neg (by omega)]
            exact hfunction.code_untyped rfl hdesc
          · rintro ⟨sym', hget', hsome⟩
            rw [hget] at hget'
            cases hget'
            rw [hdesc] at hsome
            cases hsome
        | some desc =>
          rw [hdesc] at hparse
          obtain ⟨index, hcode⟩ := hfunction.code_current hkind hnum
          refine ⟨fun _ => ⟨sym, hget, ?_⟩, fun _ => ?_⟩
          · rw [hdesc, Option.isSome_some]
          · exact hfunction.oneValue hparse (Or.inr rfl) hcode
      · refine ⟨fun h => absurd h (not_oneValue hparse ?_), ?_⟩
        · rw [Code_Expression, if_neg (by omega)]
          exact hfunction.code_up rfl
        · rintro ⟨sym', hget', -⟩
          rw [hget] at hget'
          cases hget'
    | @BINARY lexp rexp op pos hl hr =>
      rw [Expr_Is_Const] at hconst
      rw [GivesCode, ← hconst]
      · cases hval : info.val with
        | none =>
          refine ⟨fun h => absurd h (not_oneValue hparse ?_), fun h => absurd h (by decide)⟩
          rw [Code_Expression, if_neg (by omega), Code_Binary_Expr, hval]
          exact Post.ok rfl
        | some value =>
          have hcode : Code_Expression (.BINARY op lexp rexp pos) info .EXPR_LOAD none ps' =
              ps'.emit fun b => Inst_Append b .LOAD_CONST (some value) := by
            rw [Code_Expression, if_neg (by omega), Code_Binary_Expr, hval]
            dsimp only
            rw [code_const_expr, assert_of rfl]
            rfl
          exact ⟨fun _ => rfl, fun _ => hfunction.oneValue hparse (Or.inl rfl) hcode⟩
      · exact fun _ _ h => nomatch h
  · refine ⟨fun h => absurd h (not_oneValue hparse ?_), fun h => absurd h.1 hnum⟩
    rw [Code_Expression.eq_def, if_pos (by omega)]
    exact Post.ok rfl

end code

end parsed

section examples

/-- The scope of a function with an integer parameter. -/
def function_a : ParserUnit where
  scope := .SCOPE_FUNCTION
  sym := some ⟨.pkg, name_f.name⟩
  stbl := some (.own ⟨[Symbol_New name_a.name (some (.base .BASE_INT)) (.SYM_VAR 1 none)], 2⟩)
  block := some CodeBlock_New
  jmps := 0

/-- A parser in that function. -/
def parser_in_function : ParserState where
  filename := name_f.name
  imports := ⟨STable_New, [], []⟩
  pkg := STable_New
  extstbl := STable_New
  extdots := []
  symbols := []
  stmts := []
  u := some function_a
  ustack := []
  depth := 1
  errors := []

theorem parser_in_function_spec : InFunction parser_in_function function_a CodeBlock_New :=
  ⟨rfl, Or.inl rfl, rfl⟩

theorem localName_a : LocalName parser_in_function function_a name_a.name :=
  Or.inl ⟨_, rfl, rfl⟩

theorem oneValue_iff_parameter :
    OneValue parser_in_function (.ID name_a.name name_a.pos) ↔
      parser_in_function.errnum ≤ MAX_ERRORS ∧
        GivesCode parser_in_function function_a (.ID name_a.name name_a.pos) :=
  oneValue_iff parser_in_function_spec (.ID name_a.pos localName_a) rfl rfl

/-- The sum of the parameter and one is parsed without an error and gives no
code. -/
theorem not_oneValue_sum :
    ∃ exp info, LocalExpr parser_in_function function_a exp ∧
      Parse_Expression exp parser_in_function = .ok (info, parser_in_function) ∧
      ¬ OneValue parser_in_function exp := by
  refine ⟨.BINARY .BINARY_ADD (.ID name_a.name name_a.pos) (.CONST (.BASE_INT 1) name_a.pos)
    name_a.pos, _, .BINARY _ _ (.ID _ localName_a) (.CONST _ _), rfl, ?_⟩
  exact not_oneValue rfl (Post.ok rfl)

end examples

end koala.parser
