import Koala.Parser.Scopes
import Koala.Parser.OneValue

open koala.typedesc

namespace koala.parser

set_option linter.style.nameCheck false

/-- The value that is saved for a constant of the package. -/
def const_value (pkg : STable Symbol) (name : CString) : Option ConstValue :=
  match STable_Get pkg name with
  | none => none
  | some sym =>
    match sym.data with
    | .SYM_CONST _ value => value
    | _ => none

/-- What the code of a module puts on the operand stack: the module itself and
values. -/
inductive Operand where
  | self
  | value (val : ConstValue)

/-- The operand stack behind an instruction. A constant is a field of its module
with the value that is saved for it. -/
def Inst.load (pkg : STable Symbol) (inst : Inst) (stack : List Operand) :
    Option (List Operand) :=
  match inst.op, inst.arg, stack with
  | .LOAD_CONST, some val, stack => some (.value val :: stack)
  | .LOAD_0, _, stack => some (.self :: stack)
  | .LOAD_FIELD, some (.BASE_STRING name), .self :: stack => do
    let val ← const_value pkg name
    some (.value val :: stack)
  | _, _, _ => none

def load_all (pkg : STable Symbol) : List Inst → List Operand → Option (List Operand)
  | [], stack => some stack
  | inst :: insts, stack => do
    let stack ← inst.load pkg stack
    load_all pkg insts stack

/-- The value that code loads. -/
def loaded_value (pkg : STable Symbol) (code : List Inst) : Option ConstValue :=
  match load_all pkg code [] with
  | some [.value val] => some val
  | _ => none

/-- The parser is at the top level of a module. What `import` brings in has its
own name. -/
structure AtTopLevel (ps : ParserState) (b : CodeBlock) : Prop where
  unit : ps.u = some (module_unit b)
  ustack : ps.ustack = []
  dots : ∀ ref ∈ ps.extdots, ref.2.name = ref.1

/-- The value that the code of an initialiser loads is saved in the symbol of
the constant. -/
def SavesConst [Arith] (ps : ParserState) (id : Ident) (exp : Expr) : Prop :=
  ∃ info ps₁ old code val, parser_visit_expr exp .EXPR_LOAD ps = .ok (info, ps₁) ∧
    ps.insts = some old ∧ ps₁.insts = some (old ++ code) ∧ loaded_value ps.pkg code = some val ∧
    ∀ desc, ∃ sym ps₂ ps₃, update_add_variable id desc ps₁ = .ok (some sym, ps₂) ∧
      __save_const_to_symbol sym.name exp info ps₂ = .ok ps₃ ∧
      const_value ps₃.pkg id.name = some val

/-- A literal, or a constant of the package whose value is saved. -/
def HasValue (ps : ParserState) : Expr → Prop
  | .CONST .. => True
  | .ID name _ => ∃ sym, STable_Get ps.pkg name = some sym ∧ sym.desc.isSome = true ∧
      (const_value ps.pkg name).isSome = true
  | _ => False

section table

variable {pkg : STable Symbol} {name : CString} {sym : Symbol}

theorem Symbol.setValue_name (value : Option ConstValue) (sym : Symbol) :
    (sym.setValue value).name = sym.name := by
  unfold Symbol.setValue
  split <;> rfl

theorem const_value_of_get {index : Nat} {value : Option ConstValue}
    (hget : STable_Get pkg name = some sym) (hdata : sym.data = .SYM_CONST index value) :
    const_value pkg name = value := by
  rw [const_value, hget]
  dsimp only
  rw [hdata]

/-- A constant has the value that was written last. -/
theorem const_value_setValue (hget : STable_Get pkg name = some sym)
    (hkind : sym.kind = .SYM_CONST) (value : Option ConstValue) :
    const_value (pkg.update name (Symbol.setValue value)) name = value := by
  obtain ⟨sname, desc, file, pos, data⟩ := sym
  cases data with
  | SYM_CONST index old =>
    have hget' : STable_Get (pkg.update name (Symbol.setValue value)) name =
        some ⟨sname, desc, file, pos, .SYM_CONST index value⟩ := by
      rw [STable_Get_update (Symbol.setValue_name value), hget]
      simp only [Option.map_some, if_true]
      rfl
    exact const_value_of_get hget' rfl
  | _ => cases hkind

end table

section save

variable {ps ps' : ParserState} {b : CodeBlock} {id : Ident} {sym : Symbol}

/-- The symbol of a constant at the top level is the one that was declared. -/
theorem update_add_const (hu : ps.u = some (module_unit b))
    (hget : STable_Get ps.pkg id.name = some sym) (hkind : sym.kind = .SYM_CONST)
    (desc : Option TypeDesc) :
    ∃ sym' pkg, update_add_variable id desc ps = .ok (some sym', { ps with pkg }) ∧
      sym'.name = id.name ∧ STable_Get pkg id.name = some sym' ∧ sym'.kind = .SYM_CONST := by
  have hname := STable_Get_name hget
  have hupdate : update_add_variable id desc ps = update_variable (module_unit b) id desc ps := by
    rw [update_add_variable, hu]
    rfl
  have hsome : (some sym).isSome = true := rfl
  have hderef : deref (some sym) = .ok sym := rfl
  rw [hupdate, update_variable, get_module_unit, hget, ok_bind, assert_of hsome, ok_bind, hderef,
    ok_bind, assert_of (Or.inl hkind), ok_bind]
  cases hdesc : sym.desc with
  | some d => exact ⟨sym, ps.pkg, rfl, hname, hget, hkind⟩
  | none =>
    rw [updateUnitSym_module_unit]
    refine ⟨{ sym with desc }, _, rfl, hname, ?_, hkind⟩
    have hnames : ∀ s : Symbol, ({ s with desc } : Symbol).name = s.name := fun _ => rfl
    rw [STable_Get_update hnames, hget]
    simp only [Option.map_some, if_true]

theorem deref_unit (hu : ps.u = some (module_unit b)) : deref ps.u = .ok (module_unit b) := by
  rw [hu]
  rfl

theorem save_literal (hu : ps.u = some (module_unit b)) (name : CString) {value : ConstValue}
    {pos : Position} {info : ExprInfo} :
    __save_const_to_symbol name (.CONST value pos) info ps =
      .ok { ps with pkg := ps.pkg.update name (Symbol.setValue (some value)) } := by
  rw [__save_const_to_symbol, deref_unit hu]
  rfl

theorem save_const (hu : ps.u = some (module_unit b)) (name : CString) {other : CString}
    {pos : Position} {info : ExprInfo} (hsym : info.sym = some sym) {index : Nat}
    {value : Option ConstValue} (hdata : sym.data = .SYM_CONST index value) :
    __save_const_to_symbol name (.ID other pos) info ps =
      .ok { ps with pkg := ps.pkg.update name (Symbol.setValue value) } := by
  have hkind : info.sym.any (fun sym => sym.kind = .SYM_CONST) = true := by
    rw [hsym, Option.any_some, Symbol.kind, hdata]
    rfl
  rw [__save_const_to_symbol, deref_unit hu]
  change (assert _ >>= _) = _
  rw [assert_of hkind, ok_bind, hsym]
  change (sym.value >>= _) = _
  rw [Symbol.value, hdata]
  rfl

/-- No branch saves the value of a binary expression. -/
theorem save_binary {name : CString} {op : BinaryOpKind} {lexp rexp : Expr} {pos : Position}
    {info : ExprInfo} : __save_const_to_symbol name (.BINARY op lexp rexp pos) info ps ≠ .ok ps' := by
  intro hsave
  obtain ⟨u, -, hsave⟩ := bind_eq_ok_iff.mp hsave
  obtain ⟨_, hfalse, -⟩ := bind_eq_ok_iff.mp hsave
  exact assert_eq_ok_iff.mp hfalse

end save

section ident

variable {ps : ParserState} {b : CodeBlock} {name : CString} {pos : Position} {info : ExprInfo}

/-- What an identifier at the top level is found as. -/
theorem AtTopLevel.parse_ident (h : AtTopLevel ps b)
    (hparse : Parse_Ident_Expr ps name pos = .ok (info, ps)) (hsym : info.sym ≠ none) :
    ∃ sym, sym.name = name ∧
      info = ⟨sym.desc, some sym, none, some (.CURRENT_SCOPE, .SCOPE_MODULE)⟩ ∧
      (STable_Get ps.pkg name = some sym ∨ STable_Get ps.pkg name = none) := by
  unfold Parse_Ident_Expr at hparse
  rw [deref_unit h.unit, ok_bind, get_module_unit, ok_bind] at hparse
  cases hget : STable_Get ps.pkg name with
  | some sym =>
    rw [hget] at hparse
    cases hparse
    exact ⟨sym, STable_Get_name hget, rfl, Or.inl rfl⟩
  | none =>
    rw [hget, h.ustack] at hparse
    dsimp only at hparse
    rw [find_up, ok_bind] at hparse
    dsimp only at hparse
    split at hparse
    · next sym hext =>
      cases hparse
      exact ⟨sym, STable_Get_name hext, rfl, Or.inr rfl⟩
    · split at hparse
      · next other sym hdot =>
        cases hparse
        have hfound := List.find?_some hdot
        have hother : other = name := by simpa using hfound
        have hname := h.dots _ (List.mem_of_find?_eq_some hdot)
        exact ⟨sym, hname.trans hother, rfl, Or.inr rfl⟩
      · have hinfo := (Prod.mk.inj (Except.ok.inj hparse)).1
        rw [← hinfo] at hsym
        exact absurd rfl hsym

/-- The code that loads a constant at the top level. -/
theorem AtTopLevel.code_const (h : AtTopLevel ps b) {sym : Symbol} (hkind : sym.kind = .SYM_CONST)
    (desc : TypeDesc) (hnum : ps.errnum ≤ MAX_ERRORS) :
    Code_Expression (.ID name pos) ⟨some desc, some sym, none, some (.CURRENT_SCOPE, .SCOPE_MODULE)⟩
        .EXPR_LOAD none ps = ps.emit fun b => CODE_LOAD_FIELD b sym.name := by
  have hcode : code_current_module_class sym (some desc) .EXPR_LOAD none ps =
      ps.emit fun b => CODE_LOAD_FIELD b sym.name := by
    unfold code_current_module_class
    rw [assert_of rfl, ok_bind, if_pos (Or.inl hkind)]
    cases desc <;> rfl
  rw [Code_Expression, if_neg (by omega), Code_Ident_Expr, assert_of ⟨rfl, rfl⟩, ok_bind,
    deref_unit h.unit, ok_bind]
  exact hcode

/-- A constant without a type fails an assertion. -/
theorem code_untyped (h : info.desc = none) :
    Code_Ident_Expr info .EXPR_LOAD none ps = .error .assertion := by
  have hfails : assert (info.desc.isSome = true ∧ info.sym.isSome = true) =
      .error .assertion := by
    rw [h]
    rfl
  rw [Code_Ident_Expr, hfails]
  rfl

theorem CODE_LOAD_FIELD_eq {name : CString} (b : CodeBlock) : CODE_LOAD_FIELD b name =
    b.append [⟨.LOAD_0, none, 0⟩, ⟨.LOAD_FIELD, some (.BASE_STRING name), 0⟩] := by
  rw [CODE_LOAD_FIELD, Inst_Append_NoArg, Inst_Append, Inst_Append, CodeBlock.append,
    List.append_assoc]
  rfl

theorem AtTopLevel.emit (h : AtTopLevel ps b) {f : CodeBlock → CodeBlock} {code : List Inst}
    (hf : ∀ b, f b = b.append code) :
    ∃ ps₁, ps.emit f = .ok ps₁ ∧ ps₁ = { ps with u := some (module_unit (b.append code)) } := by
  refine ⟨_, ?_, rfl⟩
  rw [ParserState.emit, deref_unit h.unit]
  change Except.ok _ = _
  rw [hf]

end ident

section loaded

variable {ps : ParserState} {b : CodeBlock} {exp : Expr} {info : ExprInfo}

theorem errnum_of_loaded {ps₁ : ParserState} {old code : List Inst} {val : ConstValue}
    (hcode : Code_Expression exp info .EXPR_LOAD none ps = .ok ps₁) (hold : ps.insts = some old)
    (hnew : ps₁.insts = some (old ++ code)) (hload : loaded_value ps.pkg code = some val) :
    ps.errnum ≤ MAX_ERRORS := by
  by_contra hnum
  rw [Code_Expression.eq_def, if_pos (by omega)] at hcode
  cases hcode
  rw [hold] at hnew
  rw [List.append_right_eq_self.mp (Option.some.inj hnew).symm] at hload
  cases hload

/-- A constant that is loaded by its code has a value. -/
theorem AtTopLevel.hasValue (h : AtTopLevel ps b) {name : CString} {pos : Position}
    (hnum : ps.errnum ≤ MAX_ERRORS) (hident : Parse_Ident_Expr ps name pos = .ok (info, ps))
    (hconst : Expr_Is_Const (.ID name pos) info = true) {ps₁ : ParserState} {old code : List Inst}
    {val : ConstValue} (hcode : Code_Expression (.ID name pos) info .EXPR_LOAD none ps = .ok ps₁)
    (hold : ps.insts = some old) (hnew : ps₁.insts = some (old ++ code))
    (hload : loaded_value ps.pkg code = some val) : HasValue ps (.ID name pos) := by
  have hsym : info.sym ≠ none := by
    intro hnone
    rw [Expr_Is_Const, hnone] at hconst
    cases hconst
  obtain ⟨sym, hname, rfl, hfound⟩ := h.parse_ident hident hsym
  have hkind : sym.kind = .SYM_CONST := of_decide_eq_true hconst
  cases hdesc : sym.desc with
  | none =>
    rw [Code_Expression, if_neg (by omega), code_untyped hdesc] at hcode
    cases hcode
  | some desc =>
    rw [hdesc, h.code_const hkind desc hnum] at hcode
    obtain ⟨ps₂, hemit, hps₂⟩ := h.emit (f := fun b => CODE_LOAD_FIELD b sym.name)
      CODE_LOAD_FIELD_eq
    rw [hemit] at hcode
    cases hcode
    rw [ParserState.insts, h.unit] at hold
    cases hold
    rw [hps₂] at hnew
    have hcodes := List.append_cancel_left (Option.some.inj hnew)
    rw [← hcodes] at hload
    have hvalue : (const_value ps.pkg sym.name).isSome = true := by
      cases hval : const_value ps.pkg sym.name with
      | some v => rfl
      | none =>
        simp [loaded_value, load_all, Inst.load, hval] at hload
    rw [hname] at hvalue
    rcases hfound with hfound | hfound
    · exact ⟨sym, hfound, by rw [hdesc]; rfl, hvalue⟩
    · rw [const_value, hfound] at hvalue
      cases hvalue

end loaded

section saves

variable [Arith] {ps : ParserState} {b : CodeBlock} {id : Ident} {sym : Symbol} {exp : Expr}
  {info : ExprInfo}

/-- What is loaded by code that is emitted at the top level is saved when the
symbol gets it. -/
theorem AtTopLevel.saves (h : AtTopLevel ps b) (hget : STable_Get ps.pkg id.name = some sym)
    (hkind : sym.kind = .SYM_CONST) (hparse : Parse_Expression exp ps = .ok (info, ps))
    {f : CodeBlock → CodeBlock} {code : List Inst} {val : ConstValue}
    (hcode : Code_Expression exp info .EXPR_LOAD none ps = ps.emit f)
    (hf : ∀ b, f b = b.append code) (hload : loaded_value ps.pkg code = some val)
    (hsave : ∀ ps₂ b₂ name, ps₂.u = some (module_unit b₂) →
      __save_const_to_symbol name exp info ps₂ =
        .ok { ps₂ with pkg := ps₂.pkg.update name (Symbol.setValue (some val)) }) :
    SavesConst ps id exp := by
  obtain ⟨ps₁, hemit, hps₁⟩ := h.emit hf
  refine ⟨info, ps₁, b.insts, code, val, ?_, ?_, ?_, hload, fun desc => ?_⟩
  · rw [visit_of_parse hparse, hcode, hemit]
    rfl
  · rw [ParserState.insts, h.unit]
    rfl
  · rw [hps₁]
    rfl
  · have hunit : ps₁.u = some (module_unit (b.append code)) := by rw [hps₁]
    have hpkg : ps₁.pkg = ps.pkg := by rw [hps₁]
    rw [← hpkg] at hget
    obtain ⟨sym', pkg, hupdate, hname, hget', hkind'⟩ := update_add_const hunit hget hkind desc
    refine ⟨sym', _, _, hupdate, hsave _ _ _ hunit, ?_⟩
    rw [hname]
    exact const_value_setValue hget' hkind' (some val)

/-- The code that loads a constant is saved with its value. -/
theorem AtTopLevel.saves_ident (h : AtTopLevel ps b) {name : CString} {pos : Position}
    (hget : STable_Get ps.pkg id.name = some sym) (hkind : sym.kind = .SYM_CONST)
    (hparse : Parse_Expression (.ID name pos) ps = .ok (info, ps)) (hnum : ps.errnum ≤ MAX_ERRORS)
    (hident : Parse_Ident_Expr ps name pos = .ok (info, ps)) {other : Symbol}
    (hother : STable_Get ps.pkg name = some other) (hdesc : other.desc.isSome = true)
    (hsome : (const_value ps.pkg name).isSome = true) : SavesConst ps id (.ID name pos) := by
  obtain ⟨val, hval⟩ := Option.isSome_iff_exists.mp hsome
  obtain ⟨desc, hdesc⟩ := Option.isSome_iff_exists.mp hdesc
  obtain ⟨index, hdata⟩ : ∃ index, other.data = .SYM_CONST index (some val) := by
    rw [const_value, hother] at hval
    dsimp only at hval
    split at hval
    · next index value hdata => exact ⟨index, hval ▸ hdata⟩
    · cases hval
  have hotherkind : other.kind = .SYM_CONST := by rw [Symbol.kind, hdata]; rfl
  have hname := STable_Get_name hother
  unfold Parse_Ident_Expr at hident
  rw [deref_unit h.unit, ok_bind, get_module_unit, ok_bind, hother] at hident
  cases hident
  rw [hdesc] at hparse
  have hload : loaded_value ps.pkg
      [⟨.LOAD_0, none, 0⟩, ⟨.LOAD_FIELD, some (.BASE_STRING other.name), 0⟩] = some val := by
    simp [loaded_value, load_all, Inst.load, hname, hval]
  refine h.saves hget hkind hparse (h.code_const hotherkind desc hnum) CODE_LOAD_FIELD_eq hload
    fun ps₂ b₂ name' hu => ?_
  exact save_const hu name' rfl hdata

/-- For every constant declaration whose initialiser is parsed without an error
and is constant: the value that the code of the initialiser loads is saved in
the symbol exactly when it is a literal or a constant whose value is saved. -/
theorem savesConst_iff {ps' : ParserState} (htop : AtTopLevel ps b)
    (hget : STable_Get ps.pkg id.name = some sym) (hkind : sym.kind = .SYM_CONST)
    (hparse : Parse_Expression exp ps = .ok (info, ps')) (herrors : ps'.errors = ps.errors)
    (hconst : Expr_Is_Const exp info = true) :
    SavesConst ps id exp ↔ ps.errnum ≤ MAX_ERRORS ∧ HasValue ps exp := by
  have hsame : ps' = ps := (Parse_Expression_reported exp ps _ hparse).eq_of_errors herrors
  subst hsame
  constructor
  · rintro ⟨info', ps₁, old, code, val, hvisit, hold, hnew, hload, hsave⟩
    rw [visit_of_parse hparse] at hvisit
    obtain ⟨ps₂, hcode, heq⟩ := bind_eq_ok_iff.mp hvisit
    cases heq
    have hnum := errnum_of_loaded hcode hold hnew hload
    refine ⟨hnum, ?_⟩
    cases exp with
    | CONST value pos => trivial
    | ID name pos =>
      have hident : Parse_Ident_Expr ps' name pos = .ok (info, ps') := by
        rw [Parse_Expression.eq_def] at hparse
        dsimp only at hparse
        rwa [if_neg (by omega)] at hparse
      exact htop.hasValue hnum hident hconst hcode hold hnew hload
    | BINARY op lexp rexp pos =>
      obtain ⟨sym', ps₃, ps₄, -, hsaved, -⟩ := hsave none
      exact absurd hsaved save_binary
    | UNARY op e pos =>
      rw [Parse_Expression.eq_def] at hparse
      dsimp only at hparse
      rw [if_neg (by omega)] at hparse
      cases hparse
      cases hconst
    | HEAD | ATTRIBUTE | CALL => cases hconst
  · rintro ⟨hnum, hvalue⟩
    cases exp with
    | CONST value pos =>
      have hcode : Code_Expression (.CONST value pos) info .EXPR_LOAD none ps' =
          ps'.emit fun b => Inst_Append b .LOAD_CONST (some value) := by
        rw [Code_Expression, if_neg (by omega), code_const_expr, assert_of rfl]
        rfl
      have hload : loaded_value ps'.pkg [⟨.LOAD_CONST, some value, 0⟩] = some value := rfl
      exact htop.saves hget hkind hparse hcode (fun _ => rfl) hload
        fun ps₂ b₂ name hu => save_literal hu name
    | ID name pos =>
      obtain ⟨other, hother, hdesc, hsome⟩ := hvalue
      have hident : Parse_Ident_Expr ps' name pos = .ok (info, ps') := by
        rw [Parse_Expression.eq_def] at hparse
        dsimp only at hparse
        rwa [if_neg (by omega)] at hparse
      exact htop.saves_ident hget hkind hparse hnum hident hother hdesc hsome
    | HEAD | UNARY | BINARY | ATTRIBUTE | CALL => exact hvalue.elim

end saves

section examples

/-- A module that declares the constants `a`, whose value is saved, and `b`. -/
def parser_of_module : ParserState where
  filename := name_f.name
  imports := ⟨STable_New, [], []⟩
  pkg := ⟨[Symbol_New name_a.name (some (.base .BASE_INT)) (.SYM_CONST 1 (some (.BASE_INT 3))),
    Symbol_New name_b.name none (.SYM_CONST 2 none)], 3⟩
  extstbl := STable_New
  extdots := []
  symbols := []
  stmts := []
  u := some (module_unit CodeBlock_New)
  ustack := []
  depth := 1
  errors := []

theorem parser_of_module_spec : AtTopLevel parser_of_module CodeBlock_New :=
  ⟨rfl, rfl, fun _ href => nomatch href⟩

theorem savesConst_iff_constant :
    SavesConst parser_of_module name_b (.ID name_a.name name_a.pos) ↔
      parser_of_module.errnum ≤ MAX_ERRORS ∧
        HasValue parser_of_module (.ID name_a.name name_a.pos) :=
  savesConst_iff parser_of_module_spec rfl rfl rfl rfl rfl

/-- A folded sum is constant, but saving it fails an assertion. -/
theorem not_savesConst_sum :
    ∃ exp info, Parse_Expression exp parser_of_module = .ok (info, parser_of_module) ∧
      Expr_Is_Const exp info = true ∧ ¬ SavesConst parser_of_module name_b exp := by
  refine ⟨.BINARY .BINARY_ADD (.CONST (.BASE_INT 1) name_a.pos) (.CONST (.BASE_INT 2) name_a.pos)
    name_a.pos, _, rfl, rfl, ?_⟩
  rintro ⟨info, ps₁, old, code, val, -, -, -, -, hsave⟩
  obtain ⟨sym, ps₂, ps₃, -, hsaved, -⟩ := hsave none
  exact save_binary hsaved

end examples

end koala.parser
