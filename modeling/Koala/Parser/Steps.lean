import Koala.Parser.Append
import Koala.Parser.Statement

open koala.typedesc

namespace koala.parser

set_option linter.style.nameCheck false

section emits

variable {ps : ParserState}

theorem emit_post {f : CodeBlock → CodeBlock} {insts : List Inst}
    (hf : ∀ b, f b = b.append insts) (hinsts : ∀ i ∈ insts, i.op ≠ .RETURN) :
    Post (Coded ps) (ps.emit f) := fun _ h => ⟨insts, [], hinsts, emit_append hf h⟩

theorem emit_inst_post {op : OpCode} {val : Option ConstValue} (hop : op ≠ .RETURN) :
    Post (Coded ps) (ps.emit fun b => Inst_Append b op val) :=
  emit_post (fun _ => rfl) fun i hi => by
    obtain rfl := List.mem_singleton.mp hi
    exact hop

theorem emit_load_0_post {inst : Inst} {f : CodeBlock → CodeBlock} (hop : inst.op ≠ .RETURN)
    (hf : ∀ b, f b = (b.append [⟨.LOAD_0, none, 0⟩]).append [inst]) :
    Post (Coded ps) (ps.emit f) :=
  emit_post (fun b => (hf b).trans (b.append_append _ _)) fun i hi => by
    rcases List.mem_cons.mp hi with rfl | hi
    · exact OpCode.noConfusion
    · obtain rfl := List.mem_singleton.mp hi
      exact hop

theorem CODE_LOAD_post {index : Nat} : Post (Coded ps) (ps.emit fun b => CODE_LOAD b index) :=
  emit_inst_post OpCode.noConfusion

theorem CODE_STORE_post {index : Nat} : Post (Coded ps) (ps.emit fun b => CODE_STORE b index) :=
  emit_inst_post OpCode.noConfusion

theorem CODE_LOAD_FIELD_post {name : CString} :
    Post (Coded ps) (ps.emit fun b => CODE_LOAD_FIELD b name) :=
  emit_load_0_post OpCode.noConfusion fun _ => rfl

theorem CODE_STORE_FIELD_post {name : CString} :
    Post (Coded ps) (ps.emit fun b => CODE_STORE_FIELD b name) :=
  emit_load_0_post OpCode.noConfusion fun _ => rfl

theorem CODE_CALL_post {name : CString} {argc : Nat} :
    Post (Coded ps) (ps.emit fun b => CODE_CALL b name argc) :=
  emit_load_0_post OpCode.noConfusion fun _ => rfl

end emits

section code

variable [Build] {ps : ParserState}

theorem code_const_expr_coded {ctx : ExprCtx} {value : ConstValue} :
    Post (Coded ps) (code_const_expr ctx value ps) :=
  Post.bind fun _ _ => emit_inst_post OpCode.noConfusion

theorem code_current_module_class_coded {sym : Symbol} {desc : Option TypeDesc} {ctx : ExprCtx}
    {right : Option Expr} : Post (Coded ps) (code_current_module_class sym desc ctx right ps) := by
  refine Post.bind fun _ _ => Post.ite (fun _ => ?_) fun _ => ?_
  · refine Post.bind fun desc _ => ?_
    split
    · exact CODE_CALL_post
    · exact CODE_LOAD_FIELD_post
  · refine Post.bind fun _ _ => ?_
    split
    · exact CODE_CALL_post
    · exact CODE_LOAD_FIELD_post

theorem code_current_function_block_closure_coded {sym : Symbol} {desc : Option TypeDesc}
    {ctx : ExprCtx} {right : Option Expr} :
    Post (Coded ps) (code_current_function_block_closure sym desc ctx right ps) := by
  refine Post.bind fun _ _ => Post.bind fun desc _ => ?_
  split
  · exact Post.bind fun _ _ => CODE_CALL_post
  · refine Post.bind fun index _ => ?_
    split
    · exact CODE_LOAD_post
    · exact CODE_STORE_post

theorem code_up_class_coded {sym : Symbol} {desc : Option TypeDesc} {ctx : ExprCtx}
    {scope : ScopeKind} : Post (Coded ps) (code_up_class sym desc ctx scope ps) := by
  refine Post.bind fun _ _ => Post.bind fun _ _ => Post.ite (fun _ => ?_) fun _ => ?_
  · exact Post.bind fun _ _ => Post.ok (.refl ps)
  · exact Post.bind fun _ _ => Post.ok (.refl ps)

theorem Code_Ident_Expr_coded {info : ExprInfo} {ctx : ExprCtx} {right : Option Expr} :
    Post (Coded ps) (Code_Ident_Expr info ctx right ps) := by
  refine Post.bind fun _ _ => Post.bind fun u _ => ?_
  split
  · refine Post.bind fun sym _ => ?_
    split
    · exact code_current_module_class_coded
    · exact code_current_module_class_coded
    · exact code_current_function_block_closure_coded
    · exact code_current_function_block_closure_coded
    · exact code_current_function_block_closure_coded
  · refine Post.bind fun sym _ => ?_
    split
    · exact Post.ok (.refl ps)
    · exact code_up_class_coded
    · exact Post.ok (.refl ps)
    · exact Post.ok (.refl ps)
    · exact Post.ok (.refl ps)
  · exact Post.bind fun _ _ => Post.ok (.refl ps)

theorem Code_Binary_Expr_coded {info : ExprInfo} : Post (Coded ps) (Code_Binary_Expr info ps) := by
  unfold Code_Binary_Expr
  split
  · exact Post.ok (.refl ps)
  · exact code_const_expr_coded

theorem Code_Expression_coded {exp : Expr} {info : ExprInfo} {ctx : ExprCtx}
    {right : Option Expr} : Post (Coded ps) (Code_Expression exp info ctx right ps) := by
  unfold Code_Expression
  refine Post.ite (fun _ => Post.ok (.refl ps)) fun _ => ?_
  cases exp with
  | HEAD kind pos => exact Post.ok (.refl ps)
  | CONST value pos => exact code_const_expr_coded
  | ID name pos => exact Code_Ident_Expr_coded
  | UNARY op exp pos => exact Post.ok (.refl ps)
  | BINARY op lexp rexp pos => exact Code_Binary_Expr_coded
  | ATTRIBUTE id left pos => exact Post.ok (.refl ps)
  | CALL args left pos => exact Post.ok (.refl ps)

variable [Arith]

/-- An expression gives code without a `RETURN` to the current unit. -/
theorem parser_visit_expr_coded {exp : Expr} {ctx : ExprCtx} :
    Post (fun r => Coded ps r.2) (parser_visit_expr exp ctx ps) := by
  refine Post.bind fun r hr => Post.bind fun ps₂ hcode => Post.ok ?_
  have hparse := Parse_Expression_reported exp ps r hr
  exact hparse.coded.trans (Code_Expression_coded ps₂ hcode)

/-- A call that is no part of another expression gives no code. -/
theorem parser_visit_call_reported {exp : Expr} {ctx : ExprCtx} (hcall : exp.Is_Call = true) :
    Post (fun r => Reported ps r.2) (parser_visit_expr exp ctx ps) := by
  cases exp with
  | CALL args left pos =>
    refine Post.bind fun r hr => Post.bind fun ps₂ hcode => Post.ok ?_
    have hparse := Parse_Expression_reported _ ps r hr
    unfold Code_Expression at hcode
    split at hcode
    · cases hcode
      exact hparse
    · cases hcode
      exact hparse
  | _ => cases hcall

theorem visit_exprs_coded (exps : List Expr) (ps : ParserState) :
    Post (fun r => Coded ps r.2) (visit_exprs exps ps) := by
  induction exps generalizing ps with
  | nil => exact Post.ok (.refl ps)
  | cons e exps ih =>
    refine Post.bind fun r hr => Post.bind fun rs hrs => Post.ok ?_
    exact (parser_visit_expr_coded r hr).trans (ih r.2 rs hrs)

end code

section units

def ParserUnit.Own (u : ParserUnit) : Prop := ∃ stbl, u.stbl = some (.own stbl)

/-- Whether the variables of blocks are numbered in this unit. -/
def ParserUnit.Numbers (u : ParserUnit) : Prop :=
  u.scope = .SCOPE_FUNCTION ∨ u.scope = .SCOPE_CLOSURE

end units

/-- A return statement ends its code. -/
def CodeBlock.return (b : CodeBlock) : CodeBlock := { Inst_Append_NoArg b .RETURN with ret := true }

/-- What the statements of a function do. -/
inductive Steps [Build] : ParserState → ParserState → Prop
  | refl (ps : ParserState) : Steps ps ps
  | trans {ps ps₁ ps' : ParserState} (first : Steps ps ps₁) (rest : Steps ps₁ ps') : Steps ps ps'
  | coded {ps ps' : ParserState} (hcode : Coded ps ps') : Steps ps ps'
  | returned {ps : ParserState} {u : ParserUnit} {b : CodeBlock} (hu : ps.u = some u)
      (hblock : u.block = some b) : Steps ps { ps with u := some { u with block := some b.return } }
  | valued {ps : ParserState} {u : ParserUnit} {stbl : STable Symbol} (name : CString)
      (value : Option ConstValue) (hu : ps.u = some u) (hstbl : u.stbl = some (.own stbl)) :
      Steps ps { ps with u := some { u with
        stbl := some (.own (stbl.update name (Symbol.setValue value))) } }
  | declared {ps : ParserState} {u : ParserUnit} {stbl stbl' : STable Symbol} {ref : SymRef}
      {func : Symbol} (id : Ident) (desc : Option TypeDesc) (hu : ps.u = some u)
      (hscope : u.scope = .SCOPE_FUNCTION) (hstbl : u.stbl = some (.own stbl))
      (hadd : STable_Add_Var stbl id.name desc = some stbl') (hsym : u.sym = some ref)
      (hget : ps.getSym ref = .ok func) (hkind : func.kind = .SYM_FUNC) :
      Steps ps (ParserState.updateSym { ps with u := some { u with stbl := some (.own stbl') } } ref
        (Symbol.addLocvar ⟨id.name, desc, stbl.varindex⟩))
  | declared_block {ps : ParserState} {u f : ParserUnit} {stbl stbl' fstbl : STable Symbol}
      {pre post : List ParserUnit} {ref : SymRef} {func : Symbol} (id : Ident)
      (desc : Option TypeDesc) (hu : ps.u = some u) (hscope : u.scope = .SCOPE_BLOCK)
      (hstbl : u.stbl = some (.own stbl)) (hstack : ps.ustack = pre ++ f :: post)
      (hpre : ∀ uu ∈ pre, ¬ uu.Numbers) (hf : f.Numbers) (hfstbl : f.stbl = some (.own fstbl))
      (hadd : STable_Add_Var stbl id.name desc = some stbl') (hsym : f.sym = some ref)
      (hget : ps.getSym ref = .ok func) (hkind : func.kind = .SYM_FUNC) :
      Steps ps (ParserState.updateSym { ps with
        u := some { u with
          stbl := some (.own (stbl'.update id.name (Symbol.setIndex fstbl.varindex))) }
        ustack := pre ++
          { f with stbl := some (.own { fstbl with varindex := fstbl.varindex + 1 }) } :: post } ref
        (Symbol.addLocvar ⟨id.name, desc, fstbl.varindex⟩))
  | block {ps ps₁ ps₂ ps' : ParserState} (henter : enter_block ps = .ok ps₁)
      (hsteps : Steps ps₁ ps₂) (hexit : Parser_Exit_Scope ps₂ = .ok ps') : Steps ps ps'

section lookup

variable {ps : ParserState}

theorem own_addSym {u : ParserUnit} {stbl : STable Symbol}
    {add : STable Symbol → Option (STable Symbol)} (hstbl : u.stbl = some (.own stbl)) :
    ps.addSym u add = .ok ((add stbl).map fun stbl' =>
      { ps with u := some { u with stbl := some (.own stbl') } }) := by
  have htable : ps.unitTable (.own stbl) = some stbl := rfl
  cases hadd : add stbl <;>
    simp only [ParserState.addSym, hstbl, deref, ok_bind, htable, hadd] <;> rfl

theorem own_updateUnitSym {u : ParserUnit} {stbl : STable Symbol} {name : CString}
    {f : Symbol → Symbol} (hstbl : u.stbl = some (.own stbl)) :
    ps.updateUnitSym u name f =
      .ok { ps with u := some { u with stbl := some (.own (stbl.update name f)) } } := by
  unfold ParserState.updateUnitSym
  rw [hstbl]
  rfl

theorem STable.addVar_eq_some_iff {stbl stbl' : STable Symbol} {name : CString}
    {desc : Option TypeDesc} {data : Nat → SymData Symbol} :
    stbl.addVar name desc data = some stbl' ↔ STable_Get stbl name = none ∧
      stbl' = ⟨stbl.symbols ++ [Symbol_New name desc (data stbl.varindex)], stbl.varindex + 1⟩ := by
  unfold STable.addVar
  rw [Option.bind_eq_bind, Option.bind_eq_some_iff]
  constructor
  · rintro ⟨stbl₁, hinsert, h⟩
    obtain ⟨hget, rfl⟩ := STable.insert_eq_some_iff.mp hinsert
    cases h
    exact ⟨hget, rfl⟩
  · rintro ⟨hget, rfl⟩
    exact ⟨_, STable.insert_eq_some_iff.mpr ⟨hget, rfl⟩, rfl⟩

/-- The variable that was just added is found. -/
theorem STable_Add_Var_get {stbl stbl' : STable Symbol} {name : CString} {desc : Option TypeDesc}
    (hadd : STable_Add_Var stbl name desc = some stbl') :
    STable_Get stbl' name = some (Symbol_New name desc (.SYM_VAR stbl.varindex none)) := by
  obtain ⟨hget, rfl⟩ := STable.addVar_eq_some_iff.mp hadd
  have happend : STable_Get (stbl.append (Symbol_New name desc (.SYM_VAR stbl.varindex none))) name = _ :=
    STable_Get_append name
  rw [hget, Option.none_or] at happend
  exact happend.trans (if_pos rfl)

theorem setIndex_name {index : Nat} (sym : Symbol) : (sym.setIndex index).name = sym.name := by
  unfold Symbol.setIndex
  split <;> rfl

theorem append_locvar_ok {ps' : ParserState} {sym : Option SymRef} {var : LocVar}
    (h : append_locvar ps sym var = .ok ps') : ∃ ref func, sym = some ref ∧
      ps.getSym ref = .ok func ∧ func.kind = .SYM_FUNC ∧
      ps' = ps.updateSym ref (Symbol.addLocvar var) := by
  obtain ⟨ref, hsym, h⟩ := bind_eq_ok_iff.mp h
  obtain ⟨func, hget, h⟩ := bind_eq_ok_iff.mp h
  split at h
  · next hkind =>
    cases h
    exact ⟨ref, func, deref_eq_ok_iff.mp hsym, hget, hkind, rfl⟩
  · cases h

/-- Where the variable of a block is numbered. -/
theorem parse_block_variable_post (id : Ident) (depth i : Nat) (ustack : List ParserUnit) :
    Post (fun r => (r.1 = none ∧ Reported ps r.2) ∨
      ∃ pre f post, ustack = pre ++ f :: post ∧ r.1 = some (i + pre.length) ∧ r.2 = ps ∧
        (∀ uu ∈ pre, ¬ uu.Numbers) ∧ f.Numbers)
      (parse_block_variable ps id depth i ustack) := by
  induction ustack generalizing depth i with
  | nil => exact Post.ok (.inl ⟨rfl, .refl ps⟩)
  | cons uu ustack ih =>
    refine Post.bind fun found _ => ?_
    split
    · exact Post.ok (.inl ⟨rfl, .error ps _ _⟩)
    refine Post.ite (fun hscope => ?_) fun hscope => ?_
    · exact Post.ok (.inr ⟨[], uu, ustack, rfl, rfl, rfl, List.forall_mem_nil _, hscope⟩)
    · refine (ih (depth - 1) (i + 1)).mono fun r hr => hr.imp_right ?_
      rintro ⟨pre, f, post, rfl, hr, hps, hpre, hf⟩
      refine ⟨uu :: pre, f, post, rfl, ?_, hps, List.forall_mem_cons.mpr ⟨hscope, hpre⟩, hf⟩
      rw [hr, List.length_cons, Nat.add_assoc, Nat.add_comm 1]

theorem unit_symbol_own {stbl : STable Symbol} {name : CString} {sym : Symbol}
    {u : ParserUnit} (hu : ps.u = some u) (hstbl : u.stbl = some (.own stbl))
    (hget : STable_Get stbl name = some sym) : unit_symbol ps name = .ok sym := by
  unfold unit_symbol
  rw [hu]
  change (ps.get u name >>= deref) = _
  have hfound : ps.get u name = .ok (STable_Get stbl name) := by
    unfold ParserState.get
    rw [hstbl]
    rfl
  rw [hfound, hget]
  rfl

end lookup

section declarations

variable {ps : ParserState} {u : ParserUnit} {id : Ident} {desc : Option TypeDesc}

/-- A variable of a function is a duplicate, or it is added and listed. -/
theorem add_function_variable_post {stbl : STable Symbol} (hstbl : u.stbl = some (.own stbl)) :
    Post (fun r => r = (none, Syntax_Error ps id.pos (.duplicated id.name)) ∨
      ∃ stbl' ref func, STable_Add_Var stbl id.name desc = some stbl' ∧ u.sym = some ref ∧
        ps.getSym ref = .ok func ∧ func.kind = .SYM_FUNC ∧
        r = (some (Symbol_New id.name desc (.SYM_VAR stbl.varindex none)),
          ParserState.updateSym { ps with u := some { u with stbl := some (.own stbl') } } ref
            (Symbol.addLocvar ⟨id.name, desc, stbl.varindex⟩)))
      (add_function_variable u id desc ps) := by
  unfold add_function_variable
  rw [own_addSym hstbl, ok_bind]
  split
  · exact Post.ok (.inl rfl)
  · next ps₁ h =>
    obtain ⟨stbl', hadd, rfl⟩ := Option.map_eq_some_iff.mp h
    refine Post.bind fun sym hsym => Post.bind fun index hindex => Post.bind fun ps₂ happend => ?_
    rw [unit_symbol_own rfl rfl (STable_Add_Var_get hadd)] at hsym
    cases hsym
    cases hindex
    obtain ⟨ref, func, hsym, hget, hkind, rfl⟩ := append_locvar_ok happend
    exact Post.ok (.inr ⟨stbl', ref, func, hadd, hsym, hget, hkind, rfl⟩)

/-- A variable of a block is reported as declared already, or it is added with
the next index of the function and listed there. -/
theorem add_block_variable_post {stbl : STable Symbol} (hstbl : u.stbl = some (.own stbl)) :
    Post (fun r => (r.1 = none ∧ Reported ps r.2) ∨
      ∃ stbl' pre f post fstbl ref func, STable_Add_Var stbl id.name desc = some stbl' ∧
        ps.ustack = pre ++ f :: post ∧ (∀ uu ∈ pre, ¬ uu.Numbers) ∧ f.Numbers ∧
        f.stbl = some (.own fstbl) ∧ f.sym = some ref ∧ ps.getSym ref = .ok func ∧
        func.kind = .SYM_FUNC ∧
        r = (some (Symbol_New id.name desc (.SYM_VAR fstbl.varindex none)),
          ParserState.updateSym { ps with
            u := some { u with
              stbl := some (.own (stbl'.update id.name (Symbol.setIndex fstbl.varindex))) }
            ustack := pre ++
              { f with stbl := some (.own { fstbl with varindex := fstbl.varindex + 1 }) } :: post }
            ref (Symbol.addLocvar ⟨id.name, desc, fstbl.varindex⟩)))
      (add_block_variable u id desc ps) := by
  refine Post.bind fun r hr => ?_
  rcases parse_block_variable_post id ps.depth 0 ps.ustack r hr with
    ⟨hnone, hreported⟩ | ⟨pre, f, post, hstack, hsome, hps, hpre, hf⟩
  · obtain ⟨i, ps₁⟩ := r
    cases hnone
    exact Post.ok (.inl ⟨rfl, hreported⟩)
  obtain ⟨i, ps₁⟩ := r
  cases hsome
  subst hps
  dsimp only
  rw [own_addSym hstbl, ok_bind]
  split
  · exact Post.ok (.inl ⟨rfl, .error _ _ _⟩)
  next ps₂ h =>
  obtain ⟨stbl', hadd, rfl⟩ := Option.map_eq_some_iff.mp h
  refine Post.bind fun next hnext => ?_
  obtain ⟨uu, huu, hnext⟩ := bind_eq_ok_iff.mp hnext
  rw [deref_eq_ok_iff] at huu
  dsimp only at huu
  rw [hstack, Nat.zero_add, List.getElem?_append_right (Nat.le_refl _), Nat.sub_self] at huu
  cases huu
  split at hnext
  · next fstbl hfstbl =>
    cases hnext
    refine Post.bind fun u₂ hu₂ => Post.bind fun ps₃ hupdate => ?_
    cases hu₂
    rw [own_updateUnitSym rfl] at hupdate
    cases hupdate
    refine Post.bind fun ps₄ happend => Post.bind fun sym hsym' => Post.ok (.inr ?_)
    obtain ⟨ref, func, hsym, hget, hkind, rfl⟩ := append_locvar_ok happend
    have hset : ps₁.ustack.set (0 + pre.length)
        { f with stbl := some (.own { fstbl with varindex := fstbl.varindex + 1 }) } = pre ++
        { f with stbl := some (.own { fstbl with varindex := fstbl.varindex + 1 }) } :: post := by
      rw [hstack, Nat.zero_add, List.set_append_right _ _ (Nat.le_refl _), Nat.sub_self,
        List.set_cons_zero]
    have hfound : STable_Get (stbl'.update id.name (Symbol.setIndex fstbl.varindex)) id.name =
        some (Symbol_New id.name desc (.SYM_VAR fstbl.varindex none)) := by
      rw [STable_Get_update setIndex_name, STable_Add_Var_get hadd]
      exact congrArg some (if_pos rfl)
    have hunit : ∀ ps₀ : ParserState, ps₀.u = some { u with
        stbl := some (.own (stbl'.update id.name (Symbol.setIndex fstbl.varindex))) } →
        unit_symbol (ps₀.updateSym ref (Symbol.addLocvar ⟨id.name, desc, fstbl.varindex⟩)) id.name =
          .ok (Symbol_New id.name desc (.SYM_VAR fstbl.varindex none)) := by
      intro ps₀ hu₀
      exact unit_symbol_own ((updateSym_u ..).trans hu₀) rfl hfound
    rw [hunit _ rfl] at hsym'
    cases hsym'
    rw [hset]
    exact ⟨stbl', pre, f, post, fstbl, ref, func, hadd, hstack, hpre, hf, hfstbl, hsym, hget, hkind,
      rfl⟩
  · cases hnext

variable [Build]

theorem add_function_variable_steps (hu : ps.u = some u) (hscope : u.scope = .SCOPE_FUNCTION)
    (hown : u.Own) : Post (fun r => Steps ps r.2) (add_function_variable u id desc ps) := by
  obtain ⟨stbl, hstbl⟩ := hown
  refine (add_function_variable_post hstbl).mono fun r hr => ?_
  rcases hr with rfl | ⟨stbl', ref, func, hadd, hsym, hget, hkind, rfl⟩
  · exact .coded (Reported.error ps _ _).coded
  · exact .declared id desc hu hscope hstbl hadd hsym hget hkind

theorem add_block_variable_steps (hu : ps.u = some u) (hscope : u.scope = .SCOPE_BLOCK)
    (hown : u.Own) : Post (fun r => Steps ps r.2) (add_block_variable u id desc ps) := by
  obtain ⟨stbl, hstbl⟩ := hown
  refine (add_block_variable_post hstbl).mono fun r hr => ?_
  rcases hr with ⟨_, hreported⟩ |
    ⟨stbl', pre, f, post, fstbl, ref, func, hadd, hstack, hpre, hf, hfstbl, hsym, hget, hkind, rfl⟩
  · exact .coded hreported.coded
  · exact .declared_block id desc hu hscope hstbl hstack hpre hf hfstbl hadd hsym hget hkind

end declarations

end koala.parser
