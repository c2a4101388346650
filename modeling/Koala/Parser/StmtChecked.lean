import Koala.Parser.Visited

open koala.typedesc

namespace koala.parser

set_option linter.style.nameCheck false

section locals

variable {ref : SymRef} {outer : List ParserUnit} {n idx : Nat} {ps ps' : ParserState} {id : Ident}
  {desc : Option TypeDesc}

theorem append_locvar_finishes {sym : Option SymRef} {var : LocVar} (hsym : sym = some ref)
    (hdeclared : Declared ps ref) : Finishes (append_locvar ps sym var) := by
  obtain ⟨func, arg, ret, hget, hkind, -⟩ := hdeclared
  refine finishes_deref_iff.mpr ⟨ref, hsym, finishes_bind_iff.mpr ⟨func, hget, ?_⟩⟩
  rw [if_pos hkind]
  exact .ok _

theorem parse_block_variable_finishes (id : Ident) {ustack : List ParserUnit}
    (hopen : ∀ uu ∈ ustack, uu.Open ps) (depth i : Nat) :
    Finishes (parse_block_variable ps id depth i ustack) := by
  induction ustack generalizing depth i with
  | nil => exact .ok _
  | cons uu ustack ih =>
    rw [List.forall_mem_cons] at hopen
    rw [parse_block_variable, hopen.1.get, ok_bind]
    split
    · exact .ok _
    · exact .ite (fun _ => .ok _) fun _ => ih hopen.2 _ _

theorem add_function_variable_finishes {u : ParserUnit} (hf : u.IsFunction ref idx) (hdeclared : Declared ps ref) :
    Finishes (add_function_variable u id desc ps) := by
  obtain ⟨stbl, hstbl, -⟩ := hf.own
  unfold add_function_variable
  rw [own_addSym hstbl, ok_bind]
  split
  · exact .ok _
  · next ps₁ h =>
    obtain ⟨stbl', hadd, rfl⟩ := Option.map_eq_some_iff.mp h
    rw [unit_symbol_own rfl rfl (STable_Add_Var_get hadd), ok_bind]
    refine Finishes.bind (.ok _) fun index _ => ?_
    refine (append_locvar_finishes hf.sym ?_).bind fun ps₂ _ => .ok _
    exact (Keeps.of_pkg rfl).declared ref hdeclared

theorem add_block_variable_finishes {u : ParserUnit} (hu : ps.u = some u)
    (hin : Inside ref outer idx (n + 1) ps) (hopen : AllOpen ps) (hdeclared : Declared ps ref) :
    Finishes (add_block_variable u id desc ps) := by
  cases hin with
  | @block _ _ f blocks hu' hstack hblock hblocks hf =>
    cases hu.symm.trans hu'
    obtain ⟨stbl, hstbl⟩ := hblock.own
    have hnumber := parse_block_variable_finishes id (fun uu huu => hopen.above huu) ps.depth 0
    refine hnumber.bind fun r hr => ?_
    rcases parse_block_variable_post id ps.depth 0 ps.ustack r hr with
      ⟨hnone, -⟩ | ⟨pre, f', post, hpre, hsome, hps, hnot, hf'⟩
    · obtain ⟨i, ps₁⟩ := r
      cases hnone
      exact .ok _
    obtain ⟨i, ps₁⟩ := r
    cases hsome
    subst hps
    obtain ⟨rfl, rfl, rfl⟩ := first_numbers (hpre.symm.trans hstack) hnot hf' hblocks (.inl hf.scope)
    dsimp only
    rw [own_addSym hstbl, ok_bind]
    split
    · exact .ok _
    next ps₂ h =>
    obtain ⟨stbl', hadd, rfl⟩ := Option.map_eq_some_iff.mp h
    obtain ⟨fstbl, hfstbl, -⟩ := hf.own
    have hget : ps₁.ustack[0 + pre.length]? = some f' := by
      rw [hstack, Nat.zero_add, List.getElem?_append_right (Nat.le_refl _), Nat.sub_self]
      rfl
    have hnext : ∀ ps₂ : ParserState, ps₂.ustack = ps₁.ustack → ∃ uu', next_index ps₂ (0 + pre.length) =
        .ok (fstbl.varindex, f', { ps₂ with ustack := ps₂.ustack.set (0 + pre.length) uu' }) := by
      intro ps₂ hsame
      unfold next_index
      rw [hsame, hget, deref_eq_ok_iff.mpr rfl, ok_bind, hfstbl]
      exact ⟨_, rfl⟩
    obtain ⟨uu', hnext⟩ := hnext { ps₁ with u := some { u with stbl := some (.own stbl') } } rfl
    rw [hnext, ok_bind]
    dsimp only
    rw [deref_eq_ok_iff.mpr rfl, ok_bind, own_updateUnitSym rfl, ok_bind]
    have hkeeps : Keeps ps₁ { ps₁ with
        u := some { u with
          stbl := some (.own (stbl'.update id.name (Symbol.setIndex fstbl.varindex))) }
        ustack := ps₁.ustack.set (0 + pre.length) uu' } := .of_pkg rfl
    refine (append_locvar_finishes hf.sym (hkeeps.declared _ hdeclared)).bind fun ps₃ happend => ?_
    obtain ⟨ref', func, -, -, -, rfl⟩ := append_locvar_ok happend
    have hfound : STable_Get (stbl'.update id.name (Symbol.setIndex fstbl.varindex)) id.name =
        some (Symbol_New id.name desc (.SYM_VAR fstbl.varindex none)) := by
      rw [STable_Get_update setIndex_name, STable_Add_Var_get hadd]
      exact congrArg some (if_pos rfl)
    rw [unit_symbol_own ((updateSym_u ..).trans rfl) rfl hfound]
    exact .ok _

theorem update_add_variable_function {u : ParserUnit} (hu : ps.u = some u)
    (hscope : u.scope = .SCOPE_FUNCTION) :
    update_add_variable id desc ps = add_function_variable u id desc ps := by
  unfold update_add_variable
  rw [hu, deref_eq_ok_iff.mpr rfl, ok_bind, hscope]

theorem update_add_variable_block {u : ParserUnit} (hu : ps.u = some u)
    (hscope : u.scope = .SCOPE_BLOCK) :
    update_add_variable id desc ps = add_block_variable u id desc ps := by
  unfold update_add_variable
  rw [hu, deref_eq_ok_iff.mpr rfl, ok_bind, hscope]

/-- A local variable is added, or an error is reported. -/
theorem InBody.update_add_variable (hin : InBody ref outer n ps) (id : Ident)
    (desc : Option TypeDesc) : ∃ var ps', koala.parser.update_add_variable id desc ps = .ok (var, ps') ∧
      InBody ref outer n ps' ∧ ∀ sym, var = some sym → sym.kind = .SYM_VAR := by
  have hsteps := update_add_variable_steps hin.within id desc
  obtain ⟨idx, hinside⟩ := hin.within
  have hfinishes : Finishes (koala.parser.update_add_variable id desc ps) ∧
      Post (fun r => ∀ sym, r.1 = some sym → sym.kind = .SYM_VAR)
        (koala.parser.update_add_variable id desc ps) := by
    cases hinside with
    | @function _ u hu hstack hf =>
      obtain ⟨stbl, hstbl, -⟩ := hf.own
      rw [update_add_variable_function hu hf.scope]
      refine ⟨add_function_variable_finishes hf hin.declared, ?_⟩
      refine (add_function_variable_post hstbl).mono fun r hr sym hsym => ?_
      rcases hr with rfl | ⟨_, _, _, -, -, -, -, rfl⟩
      · cases hsym
      · cases hsym
        rfl
    | @block _ u f blocks hu hstack hblock hblocks hf =>
      obtain ⟨stbl, hstbl⟩ := hblock.own
      rw [update_add_variable_block hu hblock.scope]
      refine ⟨add_block_variable_finishes hu (.block hu hstack hblock hblocks hf) hin.units
        hin.declared, ?_⟩
      refine (add_block_variable_post hstbl).mono fun r hr sym hsym => ?_
      rcases hr with ⟨hnone, -⟩ | ⟨_, _, _, _, _, _, _, -, -, -, -, -, -, -, -, rfl⟩
      · rw [hnone] at hsym
        cases hsym
      · cases hsym
        rfl
  obtain ⟨⟨r, hr⟩, hkind⟩ := hfinishes
  exact ⟨r.1, r.2, hr, (hsteps r hr).inBody hin, hkind r hr⟩

end locals

end koala.parser

open koala.typedesc

namespace koala.parser

set_option linter.style.nameCheck false

/-- The statements of a function: declarations of variables, assignments,
expressions, returns and blocks. -/
inductive CoveredStmt : Stmt → Prop
  | VAR {exp : Option Expr} (id : Ident) (type : Option TypeDesc)
    (hexp : ∀ e, exp = some e → Covered e) : CoveredStmt (.VAR id type exp false)
  | VARLIST {exp : Expr} (ids : List Ident) (type : Option TypeDesc) (hexp : Covered exp) :
    CoveredStmt (.VARLIST ids type exp false)
  | ASSIGN {left right : Expr} (op : AssignOpKind) (hleft : Covered left) (hright : Covered right) :
    CoveredStmt (.ASSIGN op left right)
  | ASSIGNLIST {left : List Expr} {right : Expr} (hleft : ∀ e ∈ left, Covered e)
    (hright : Covered right) : CoveredStmt (.ASSIGNLIST left right)
  | EXPR {exp : Expr} (hexp : Covered exp) : CoveredStmt (.EXPR exp)
  | RETURN {exps : List Expr} (pos : Position) (hexps : ∀ e ∈ exps, Covered e) :
    CoveredStmt (.RETURN pos exps)
  | LIST {vec : List Stmt} (block : Bool) (hvec : ∀ s ∈ vec, CoveredStmt s) :
    CoveredStmt (.LIST block vec)

/-- The identifiers of the expressions of a statement; the statements in it have
their own. -/
def Stmt.idents : Stmt → List Ident
  | .VAR _ _ (some exp) _ => exp.idents
  | .VARLIST _ _ exp _ => exp.idents
  | .ASSIGN _ left right => left.idents ++ right.idents
  | .ASSIGNLIST left right => Expr.identsAll left ++ right.idents
  | .EXPR exp => exp.idents
  | .RETURN _ exps => Expr.identsAll exps
  | _ => []

/-- A list of variables or of expressions gets the results of a call. -/
def Stmt.IsMulti : Stmt → Prop
  | .VARLIST .. => True
  | .ASSIGNLIST .. => True
  | _ => False

section conditions

/-- The type of a call is that of a function. -/
def HasResults (exp : Expr) (info : ExprInfo) : Prop :=
  exp.Is_Call = true → ∀ desc, info.desc = some desc → ∃ arg ret, desc = .proto arg ret

variable [Arith]

/-- Values that are visited one after the other. -/
def Values : List Expr → ParserState → Prop
  | [], _ => True
  | e :: exps, ps =>
    Value .EXPR_LOAD e ps ∧ ∀ info ps₁, parser_visit_expr e .EXPR_LOAD ps = .ok (info, ps₁) →
      Values exps ps₁

/-- Targets that are visited one after the other, while the results have their
types. -/
def Targets : List Expr → List TypeDesc → ParserState → Prop
  | [], _, _ => True
  | e :: left, descs, ps =>
    Value .EXPR_STORE e ps ∧ ∀ info ps₁, parser_visit_expr e .EXPR_STORE ps = .ok (info, ps₁) →
      __type_is_compatible info.desc descs.head? = true → Targets left descs.tail ps₁

/-- What a statement meets in the state it is parsed in. -/
def Stmt.Meets : Stmt → ParserState → Prop
  | .VAR _ _ (some exp) _, ps =>
    Value .EXPR_LOAD exp ps ∧ ∀ info ps₁,
      parser_visit_expr exp .EXPR_LOAD ps = .ok (info, ps₁) → HasResults exp info
  | .VARLIST _ _ exp _, ps =>
    exp.Is_Call = true → Value .EXPR_LOAD exp ps ∧ ∀ info ps₁,
      parser_visit_expr exp .EXPR_LOAD ps = .ok (info, ps₁) → HasResults exp info
  | .ASSIGN op left right, ps =>
    op = .OP_ASSIGN ∧ Value .EXPR_LOAD right ps ∧ ∀ info ps₁,
      parser_visit_expr right .EXPR_LOAD ps = .ok (info, ps₁) → Value .EXPR_STORE left ps₁
  | .ASSIGNLIST left right, ps =>
    right.Is_Call = true → Value .EXPR_LOAD right ps ∧ ∀ info ps₁,
      parser_visit_expr right .EXPR_LOAD ps = .ok (info, ps₁) →
        ∃ arg ret, info.desc = some (.proto arg ret) ∧
          (ret.length = left.length → Targets left ret ps₁)
  | .EXPR exp, ps => Value .EXPR_LOAD exp ps
  | .RETURN _ exps, ps =>
    Values exps ps ∧ ∀ infos ps₁, visit_exprs exps ps = .ok (infos, ps₁) →
      ∀ func arg ret, function_symbol ps = .ok func → func.desc = some (.proto arg ret) →
        FitsTypes ret infos
  | _, _ => True

end conditions

section statements

variable {ref : SymRef} {outer : List ParserUnit} {n : Nat} {ps ps' : ParserState}
  {exp : Expr} {info : ExprInfo}

theorem InBody.code_variable (hin : InBody ref outer n ps) {sym : Symbol}
    (hkind : sym.kind = .SYM_VAR) : Finishes (koala.parser.code_variable sym ps) := by
  obtain ⟨u, hu, -⟩ := hin.within.unit
  refine finishes_deref_iff.mpr ⟨u, hu, ?_⟩
  refine .ite (fun _ => hin.emit_finishes _) fun _ => ?_
  obtain ⟨name, desc, file, pos, data⟩ := sym
  cases data with
  | SYM_VAR index value => exact hin.emit_finishes _
  | _ => cases hkind

theorem single_result_finishes_iff {desc : TypeDesc} :
    Finishes (single_result desc) ↔ ∃ arg ret, desc = .proto arg ret := by
  unfold single_result
  rw [finishes_bind_iff]
  constructor
  · rintro ⟨proto, hproto, -⟩
    exact ⟨proto.arg, proto.ret, toProto_eq_ok_iff.mp hproto⟩
  · rintro ⟨arg, ret, rfl⟩
    refine ⟨⟨arg, ret⟩, rfl, ?_⟩
    dsimp only
    split <;> exact .ok _

theorem finishes_bind_of_all {α β : Type} {x : Res α} {f : α → Res β} (h : ∀ a, Finishes (f a)) :
    Finishes (x >>= f) ↔ Finishes x := by
  rw [finishes_bind_iff]
  exact exists_congr fun a => and_iff_left (h a)

theorem check_initializer_finishes_iff {type : Option TypeDesc} :
    Finishes (check_initializer type exp info false ps) ↔ HasResults exp info := by
  unfold check_initializer HasResults
  cases hdesc : info.desc with
  | none => exact iff_of_true (.ok _) (by simp)
  | some desc =>
    dsimp only
    rw [Bool.false_and, if_neg Bool.false_ne_true]
    refine (finishes_bind_of_all fun rdesc => ?_).trans ?_
    · cases rdesc with
      | none => exact .ok _
      | some rdesc =>
        cases type with
        | none => exact .ok _
        | some type => exact .ite (fun _ => .ok _) fun _ => .ok _
    cases exp.Is_Call with
    | false => exact iff_of_true (.ok _) (by simp)
    | true =>
      rw [if_pos rfl, single_result_finishes_iff]
      constructor
      · intro h _ desc' heq
        cases heq
        exact h
      · intro h
        exact h rfl desc rfl

theorem declare_results_finishes (hin : InBody ref outer n ps) (ids : List Ident)
    (descs : List TypeDesc) : Finishes (declare_results ids descs ps) := by
  induction ids generalizing descs ps with
  | nil => exact .ok _
  | cons id ids ih =>
    obtain ⟨var, ps₁, hadd, hin₁, -⟩ := hin.update_add_variable id descs.head?
    rw [declare_results, hadd, ok_bind]
    cases var with
    | none => exact .ok _
    | some sym => exact ih hin₁ descs.tail

theorem check_assign_finishes {rexp : Expr} (ldesc rdesc : Option TypeDesc) :
    Finishes (check_assign rexp ldesc rdesc ps) := by
  unfold check_assign
  cases rdesc with
  | none => exact .ok _
  | some desc =>
    refine Finishes.bind (.ite (fun hkind => ?_) fun _ => .ok _) fun rdesc _ => ?_
    · cases desc with
      | proto arg ret => exact single_result_finishes_iff.mpr ⟨arg, ret, rfl⟩
      | _ => cases hkind
    · cases rdesc with
      | none => exact .ok _
      | some rdesc => exact .ite (fun _ => .ok _) fun _ => .ok _

/-- The function that a return statement is in. -/
theorem InBody.function_symbol (hin : InBody ref outer n ps) :
    ∃ func arg ret, koala.parser.function_symbol ps = .ok func ∧
      func.desc = some (.proto arg ret) := by
  obtain ⟨func, arg, ret, hget, hkind, hdesc⟩ := hin.declared
  refine ⟨func, arg, ret, ?_, hdesc⟩
  have hsymbol : ∀ f : ParserUnit, f.sym = some ref → (do
      assert (f.sym.isSome = true)
      let ref ← deref f.sym
      let sym ← ps.getSym ref
      assert (sym.kind = .SYM_FUNC)
      .ok sym) = (.ok func : Res Symbol) := by
    intro f hsym
    rw [hsym, assert_of Option.isSome_some, ok_bind, deref_eq_ok_iff.mpr rfl, ok_bind, hget,
      ok_bind, assert_of hkind, ok_bind]
  unfold koala.parser.function_symbol
  obtain ⟨idx, hinside⟩ := hin.within
  cases hinside with
  | @function _ f hu hstack hf =>
    rw [hu, deref_eq_ok_iff.mpr rfl, ok_bind, if_pos hf.scope, ok_bind]
    exact hsymbol f hf.sym
  | @block _ u f blocks hu hstack hblock hblocks hf =>
    have hnot : u.scope ≠ .SCOPE_FUNCTION := fun h => nomatch h.symm.trans hblock.scope
    have hfind : ps.ustack.find? (fun uu => uu.scope = .SCOPE_FUNCTION) = some f := by
      have hnone : blocks.find? (fun uu => uu.scope = .SCOPE_FUNCTION) = none := by
        refine List.find?_eq_none.mpr fun b hb => ?_
        rw [(hblocks b hb).scope]
        decide
      rw [hstack, List.find?_append, hnone, Option.none_or, List.find?_cons, hf.scope]
      rfl
    rw [hu, deref_eq_ok_iff.mpr rfl, ok_bind, if_neg hnot, hfind, ok_bind]
    exact hsymbol f hf.sym

variable [Arith]

theorem InBody.visited (hin : InBody ref outer n ps) {ctx : ExprCtx}
    (hvisit : parser_visit_expr exp ctx ps = .ok (info, ps')) : InBody ref outer n ps' :=
  (Steps.coded (parser_visit_expr_coded _ hvisit)).inBody hin

theorem parse_variable_finishes_iff (hin : InBody ref outer n ps) (hcovered : Covered exp)
    {id : Ident} {type : Option TypeDesc} :
    Finishes (parse_variable id type (some exp) false ps) ↔
      Value .EXPR_LOAD exp ps ∧ ∀ info ps₁, parser_visit_expr exp .EXPR_LOAD ps = .ok (info, ps₁) →
        HasResults exp info := by
  rw [← parser_visit_expr_finishes_iff hcovered hin]
  unfold parse_variable
  rw [finishes_bind_iff]
  constructor
  · rintro ⟨r, hr, h⟩
    refine ⟨⟨r, hr⟩, fun info ps₁ heq => ?_⟩
    cases hr.symm.trans heq
    obtain ⟨d, hd, -⟩ := finishes_bind_iff.mp h
    exact check_initializer_finishes_iff.mp ⟨d, hd⟩
  · rintro ⟨⟨r, hr⟩, h⟩
    have hin₁ : InBody ref outer n r.2 := hin.visited hr
    refine ⟨r, hr, (check_initializer_finishes_iff.mpr (h r.1 r.2 hr)).bind fun d hd => ?_⟩
    have hin₂ := (Steps.coded (check_initializer_reported d hd).coded).inBody hin₁
    obtain ⟨desc, ps₂⟩ := d
    cases desc with
    | none => exact .ok _
    | some desc =>
      obtain ⟨var, ps₃, hadd, hin₃, hkind⟩ := hin₂.update_add_variable id (some desc)
      dsimp only at hadd ⊢
      rw [hadd, ok_bind]
      cases var with
      | none => exact .ok _
      | some sym =>
        dsimp only
        rw [if_neg Bool.false_ne_true, ok_bind]
        exact hin₃.code_variable (hkind sym rfl)

theorem parse_uninitialised (hin : InBody ref outer n ps) (id : Ident) (type : Option TypeDesc) :
    Finishes (parse_variable id type none false ps) := by
  obtain ⟨var, ps₁, hadd, -, -⟩ := hin.update_add_variable id type
  unfold parse_variable
  rw [hadd, ok_bind]
  dsimp only
  rw [Bool.and_false, if_neg Bool.false_ne_true]
  exact .ok _

theorem visit_exprs_finishes_iff {exps : List Expr} (hcovered : ∀ e ∈ exps, Covered e)
    (hin : InBody ref outer n ps) : Finishes (visit_exprs exps ps) ↔ Values exps ps := by
  induction exps generalizing ps with
  | nil => exact iff_of_true (.ok _) trivial
  | cons e exps ih =>
    rw [List.forall_mem_cons] at hcovered
    rw [visit_exprs, Values, ← parser_visit_expr_finishes_iff hcovered.1 hin, finishes_bind_iff]
    constructor
    · rintro ⟨r, hr, h⟩
      refine ⟨⟨r, hr⟩, fun info ps₁ heq => ?_⟩
      cases hr.symm.trans heq
      obtain ⟨rest, hrest, -⟩ := finishes_bind_iff.mp h
      exact (ih hcovered.2 (hin.visited hr)).mp ⟨rest, hrest⟩
    · rintro ⟨⟨r, hr⟩, h⟩
      refine ⟨r, hr, ((ih hcovered.2 (hin.visited hr)).mpr (h r.1 r.2 hr)).bind fun rest _ => .ok _⟩

theorem parse_assign_finishes_iff {op : AssignOpKind} {left right : Expr} (hleft : Covered left)
    (hright : Covered right) (hin : InBody ref outer n ps) :
    Finishes (parse_assign_stmt op left right ps) ↔ (Stmt.ASSIGN op left right).Meets ps := by
  rw [Stmt.Meets]
  unfold parse_assign_stmt
  by_cases hop : op = .OP_ASSIGN
  · rw [if_pos hop, and_iff_right hop, ← parser_visit_expr_finishes_iff hright hin,
      finishes_bind_iff]
    constructor
    · rintro ⟨r, hr, h⟩
      refine ⟨⟨r, hr⟩, fun info ps₁ heq => ?_⟩
      cases hr.symm.trans heq
      obtain ⟨l, hl, -⟩ := finishes_bind_iff.mp h
      exact (parser_visit_expr_finishes_iff hleft (hin.visited hr)).mp ⟨l, hl⟩
    · rintro ⟨⟨r, hr⟩, h⟩
      have hstore := (parser_visit_expr_finishes_iff hleft (hin.visited hr)).mpr (h r.1 r.2 hr)
      exact ⟨r, hr, hstore.bind fun l _ => check_assign_finishes _ _⟩
  · rw [if_neg hop, finishes_assert_iff]
    exact iff_of_false (fun h => h.1) fun h => hop h.1

theorem assign_results_finishes_iff {rexp : Expr} {left : List Expr}
    (hcovered : ∀ e ∈ left, Covered e) (descs : List TypeDesc) (hin : InBody ref outer n ps) :
    Finishes (assign_results rexp left descs ps) ↔ Targets left descs ps := by
  induction left generalizing descs ps with
  | nil => exact iff_of_true (.ok _) trivial
  | cons e left ih =>
    rw [List.forall_mem_cons] at hcovered
    rw [assign_results, Targets, ← parser_visit_expr_finishes_iff hcovered.1 hin, finishes_bind_iff]
    constructor
    · rintro ⟨r, hr, h⟩
      refine ⟨⟨r, hr⟩, fun info ps₁ heq hcompatible => ?_⟩
      cases hr.symm.trans heq
      dsimp only at h
      rw [if_pos hcompatible] at h
      exact (ih hcovered.2 descs.tail (hin.visited hr)).mp h
    · rintro ⟨⟨r, hr⟩, h⟩
      refine ⟨r, hr, .ite (fun hcompatible => ?_) fun _ => .ok _⟩
      exact (ih hcovered.2 descs.tail (hin.visited hr)).mpr (h r.1 r.2 hr hcompatible)

theorem parse_assignlist_finishes_iff {left : List Expr} {right : Expr}
    (hleft : ∀ e ∈ left, Covered e) (hright : Covered right) (hin : InBody ref outer n ps) :
    Finishes (parse_assignlist_stmt left right ps) ↔ (Stmt.ASSIGNLIST left right).Meets ps := by
  rw [Stmt.Meets]
  unfold parse_assignlist_stmt
  cases hcall : right.Is_Call with
  | false => exact iff_of_true (.ok _) fun h => nomatch h
  | true =>
    dsimp only
    rw [if_neg (by decide), forall_prop_of_true rfl, ← parser_visit_expr_finishes_iff hright hin,
      finishes_bind_iff]
    constructor
    · rintro ⟨r, hr, h⟩
      refine ⟨⟨r, hr⟩, fun info ps₁ heq => ?_⟩
      cases hr.symm.trans heq
      obtain ⟨-, h⟩ := finishes_assert_iff.mp h
      obtain ⟨desc, hdesc, h⟩ := finishes_deref_iff.mp h
      obtain ⟨proto, hproto, hassign⟩ := finishes_bind_iff.mp h
      rw [toProto_eq_ok_iff.mp hproto] at hdesc
      refine ⟨proto.arg, proto.ret, hdesc, fun hlen => ?_⟩
      rw [if_neg (not_not.mpr hlen)] at hassign
      exact (assign_results_finishes_iff hleft proto.ret (hin.visited hr)).mp hassign
    · rintro ⟨⟨r, hr⟩, h⟩
      obtain ⟨arg, ret, hdesc, htargets⟩ := h r.1 r.2 hr
      refine ⟨r, hr, ?_⟩
      rw [hdesc]
      refine finishes_assert_iff.mpr ⟨rfl, ?_⟩
      have hproto : toProto (.proto arg ret) = .ok ⟨arg, ret⟩ := rfl
      rw [deref_eq_ok_iff.mpr rfl, ok_bind, hproto, ok_bind]
      refine .ite (fun _ => .ok _) fun hlen => ?_
      exact (assign_results_finishes_iff hleft ret (hin.visited hr)).mpr (htargets (not_not.mp hlen))

theorem parse_varlistdecl_finishes_iff (hcovered : Covered exp) (hin : InBody ref outer n ps)
    {ids : List Ident} {type : Option TypeDesc} :
    Finishes (parse_varlistdecl_stmt ids type exp false ps) ↔
      (Stmt.VARLIST ids type exp false).Meets ps := by
  rw [Stmt.Meets]
  unfold parse_varlistdecl_stmt
  rw [assert_of rfl, ok_bind]
  cases hcall : exp.Is_Call with
  | false => exact iff_of_true (.ok _) fun h => nomatch h
  | true =>
    dsimp only
    rw [if_neg (by decide), forall_prop_of_true rfl, ← parser_visit_expr_finishes_iff hcovered hin,
      finishes_bind_iff]
    constructor
    · rintro ⟨r, hr, h⟩
      refine ⟨⟨r, hr⟩, fun info ps₁ heq _ desc hdesc => ?_⟩
      cases hr.symm.trans heq
      dsimp only at h
      rw [hdesc] at h
      obtain ⟨proto, hproto, -⟩ := finishes_bind_iff.mp h
      exact ⟨proto.arg, proto.ret, toProto_eq_ok_iff.mp hproto⟩
    · rintro ⟨⟨r, hr⟩, h⟩
      obtain ⟨info, ps₁⟩ := r
      refine ⟨(info, ps₁), hr, ?_⟩
      have hin₁ : InBody ref outer n ps₁ := hin.visited hr
      cases hdesc : info.desc with
      | none => exact .ok _
      | some desc =>
        obtain ⟨arg, ret, rfl⟩ := h info ps₁ hr hcall desc hdesc
        have hproto : toProto (.proto arg ret) = .ok ⟨arg, ret⟩ := rfl
        dsimp only
        rw [hproto, ok_bind]
        refine .ite (fun _ => .ok _) fun _ => .ite (fun _ => .ok _) fun _ => ?_
        obtain ⟨u, hu, -, hscope⟩ := hin₁.within.unit
        refine finishes_deref_iff.mpr ⟨u, hu, finishes_assert_iff.mpr ⟨?_, ?_⟩⟩
        · rcases hscope with hscope | hscope
          · rw [hscope]
            decide
          · rw [hscope]
            decide
        · exact declare_results_finishes hin₁ ids ret

theorem InBody.visited_all (hin : InBody ref outer n ps) {exps : List Expr}
    {infos : List ExprInfo} (hvisit : visit_exprs exps ps = .ok (infos, ps')) :
    InBody ref outer n ps' :=
  (Steps.coded (visit_exprs_coded exps ps _ hvisit)).inBody hin

theorem parse_return_finishes_iff {exps : List Expr} (hcovered : ∀ e ∈ exps, Covered e)
    (hin : InBody ref outer n ps) {pos : Position} :
    Finishes (parse_return_stmt pos exps ps) ↔ (Stmt.RETURN pos exps).Meets ps := by
  obtain ⟨func, arg, ret, hfunc, hdesc⟩ := hin.function_symbol
  have hproto : toProto (.proto arg ret) = .ok ⟨arg, ret⟩ := rfl
  have hcheck : ∀ infos, check_returns (.proto arg ret) infos = __check_expr_types ret infos := by
    intro infos
    unfold check_returns
    rw [hproto, ok_bind]
  rw [Stmt.Meets, ← visit_exprs_finishes_iff hcovered hin]
  unfold parse_return_stmt
  rw [hfunc, ok_bind, finishes_bind_iff]
  constructor
  · rintro ⟨r, hr, h⟩
    refine ⟨⟨r, hr⟩, fun infos ps₁ heq func' arg' ret' hfunc' hdesc' => ?_⟩
    cases hr.symm.trans heq
    cases hfunc'
    cases hdesc.symm.trans hdesc'
    dsimp only at h
    rw [hdesc, deref_eq_ok_iff.mpr rfl, ok_bind, hcheck] at h
    obtain ⟨matched, hmatched, -⟩ := finishes_bind_iff.mp h
    exact __check_expr_types_finishes_iff.mp ⟨matched, hmatched⟩
  · rintro ⟨⟨r, hr⟩, h⟩
    refine ⟨r, hr, ?_⟩
    dsimp only
    rw [hdesc, deref_eq_ok_iff.mpr rfl, ok_bind, hcheck]
    have hfits := h r.1 r.2 hr func arg ret rfl hdesc
    refine (__check_expr_types_finishes_iff.mpr hfits).bind fun matched _ => ?_
    exact .ite (fun _ => (hin.visited_all hr).emit_finishes _) fun _ => .ok _

end statements

end koala.parser
