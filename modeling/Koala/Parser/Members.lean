import Koala.Parser.Function

open koala.typedesc

namespace koala.parser

set_option linter.style.nameCheck false

/-- A statement of a module or a class was parsed: the current unit got some
code, and the functions in `refs` may have got variables and code. -/
structure ScopeStep (refs : List SymRef) (insts : List Inst) (ps ps' : ParserState) : Prop where
  u : ps'.u = ps.u.map fun u => u.append insts
  code : ∀ i ∈ insts, i.op ≠ .RETURN
  ustack : ps'.ustack = ps.ustack
  rest : ps'.rest = ps.rest
  depth : ps'.depth = ps.depth
  errors : ps.errors <+: ps'.errors
  kind : ∀ ref, (viewOf ps'.pkg ref).map View.kind = (viewOf ps.pkg ref).map View.kind
  view : ∀ ref, ref ∉ refs → viewOf ps'.pkg ref = viewOf ps.pkg ref

section steps

variable {refs refs' : List SymRef} {insts insts' : List Inst} {ps ps₁ ps' : ParserState}

theorem ScopeStep.append (ps : ParserState) (es : List SyntaxError)
    (hcode : ∀ i ∈ insts, i.op ≠ .RETURN) : ScopeStep [] insts ps (ps.append insts es) where
  u := rfl
  code := hcode
  ustack := rfl
  rest := rfl
  depth := rfl
  errors := List.prefix_append ps.errors es
  kind _ := rfl
  view _ _ := rfl

theorem ScopeStep.refl (ps : ParserState) : ScopeStep [] [] ps ps := by
  have h := ScopeStep.append ps [] (List.forall_mem_nil fun i : Inst => i.op ≠ .RETURN)
  rw [ParserState.append_nil] at h
  exact h

theorem Reported.scopeStep (h : Reported ps ps') : ScopeStep [] [] ps ps' := by
  obtain ⟨es, rfl⟩ := h
  exact .append ps es (List.forall_mem_nil _)

theorem ScopeStep.trans (h : ScopeStep refs insts ps ps₁) (h' : ScopeStep refs' insts' ps₁ ps') :
    ScopeStep (refs ++ refs') (insts ++ insts') ps ps' where
  u := by
    rw [h'.u, h.u, Option.map_map]
    congr 1
    funext u
    exact u.append_append insts insts'
  code i hi := (List.mem_append.mp hi).elim (h.code i) (h'.code i)
  ustack := h'.ustack.trans h.ustack
  rest := h'.rest.trans h.rest
  depth := h'.depth.trans h.depth
  errors := h.errors.trans h'.errors
  kind ref := (h'.kind ref).trans (h.kind ref)
  view ref href := by
    rw [List.mem_append, not_or] at href
    rw [h'.view ref href.2, h.view ref href.1]

theorem ScopeStep.weaken (h : ScopeStep refs insts ps ps') (hrefs : ∀ ref ∈ refs, ref ∈ refs') :
    ScopeStep refs' insts ps ps' :=
  { h with view := fun ref href => h.view ref fun hmem => href (hrefs ref hmem) }

/-- The unit of a module or a class. -/
structure ParserUnit.IsScope (t : TableRef) (u : ParserUnit) : Prop where
  scope : u.scope = .SCOPE_MODULE ∨ u.scope = .SCOPE_CLASS
  table : u.stbl = some (.shared t)

def OverScope (t : TableRef) (ps : ParserState) : Prop := ∃ u, ps.u = some u ∧ u.IsScope t

variable {t : TableRef}

theorem OverScope.step (h : OverScope t ps) (hstep : ScopeStep refs insts ps ps') :
    OverScope t ps' := by
  obtain ⟨u, hu, hscope⟩ := h
  refine ⟨u.append insts, ?_, hscope.scope, hscope.table⟩
  rw [hstep.u, hu]
  rfl

/-- A symbol is written in a way that does not show in its view. -/
theorem ScopeStep.write {f : Symbol → Symbol} (hf : Writes f id) (ps : ParserState)
    (ref : SymRef) : ScopeStep [] [] ps (ps.updateSym ref f) := by
  have hview : ∀ ref', viewOf (ps.updateSym ref f).pkg ref' = viewOf ps.pkg ref' := by
    intro ref'
    rw [viewOf_updateSym hf, ite_self, Option.map_id, id]
  have hu : ps.u.map (fun u => u.append []) = ps.u := by
    cases ps.u with
    | none => rfl
    | some u => exact congrArg some u.append_nil
  have herrors : ps.errors <+: (ps.updateSym ref f).errors := errors_of_eq (updateSym_errors ..)
  exact ⟨(updateSym_u ..).trans hu.symm, List.forall_mem_nil _, updateSym_ustack .., updateSym_rest ..,
    updateSym_depth .., herrors, fun ref' => congrArg _ (hview ref'), fun ref' _ => hview ref'⟩

end steps

section declarations

variable {ps : ParserState} {t : TableRef} {u : ParserUnit} {id : Ident} {desc : Option TypeDesc}

theorem shared_updateUnitSym {name : CString} {f : Symbol → Symbol}
    (htable : u.stbl = some (.shared t)) :
    ps.updateUnitSym u name f = .ok (ps.updateSym ⟨t, name⟩ f) := by
  unfold ParserState.updateUnitSym
  rw [htable]
  rfl

/-- The value of a variable is stored in the object. -/
theorem code_variable_scope (hover : OverScope t ps) {sym : Symbol} :
    Post (ScopeStep [] [⟨.LOAD_0, none, 0⟩, ⟨.STORE_FIELD, some (.BASE_STRING sym.name), 0⟩] ps)
      (code_variable sym ps) := by
  obtain ⟨u, hu, hscope, _⟩ := hover
  unfold code_variable
  rw [hu]
  refine Post.bind fun u' hu' => ?_
  cases hu'
  refine Post.ite (fun _ ps' h => ?_) fun hnot => absurd hscope hnot
  have hemit : ps' = ps.append [⟨.LOAD_0, none, 0⟩,
      ⟨.STORE_FIELD, some (.BASE_STRING sym.name), 0⟩] [] :=
    emit_append (fun b => b.append_append [⟨.LOAD_0, none, 0⟩] _) h
  rw [hemit]
  exact .append ps [] fun i hi => by
    rcases List.mem_cons.mp hi with rfl | hi
    · exact OpCode.noConfusion
    · obtain rfl := List.mem_singleton.mp hi
      exact OpCode.noConfusion

variable [Build]

/-- A variable of a module or a class is there already; it may get its type. -/
theorem update_variable_scope (htable : u.stbl = some (.shared t)) :
    Post (fun r => r.1.isSome = true ∧ ScopeStep [] [] ps r.2) (update_variable u id desc ps) := by
  refine Post.bind fun found _ => Post.bind fun _ _ => Post.bind fun sym _ => Post.bind fun _ _ => ?_
  split
  · exact Post.ok ⟨rfl, .refl ps⟩
  · rw [shared_updateUnitSym htable, ok_bind]
    exact Post.ok ⟨rfl, .write (setDesc_writes desc) ps _⟩

theorem update_add_variable_scope (hover : OverScope t ps) : Post (fun r => r.1.isSome = true ∧
    ScopeStep [] [] ps r.2) (update_add_variable id desc ps) := by
  obtain ⟨u, hu, hscope, htable⟩ := hover
  rcases hscope with hscope | hscope
  · simp only [update_add_variable, hu, deref, ok_bind, hscope]
    exact update_variable_scope htable
  · simp only [update_add_variable, hu, deref, ok_bind, hscope]
    exact update_variable_scope htable

theorem __save_const_to_symbol_scope (hover : OverScope t ps) (name : CString) (exp : Expr)
    (info : ExprInfo) : Post (ScopeStep [] [] ps) (__save_const_to_symbol name exp info ps) := by
  obtain ⟨u, hu, _, htable⟩ := hover
  unfold __save_const_to_symbol
  rw [hu]
  refine Post.bind fun u' hu' => ?_
  cases hu'
  split
  · rw [shared_updateUnitSym htable]
    exact Post.ok (.write (setValue_writes _) ps _)
  · refine Post.bind fun _ _ => Post.bind fun sym _ => Post.bind fun value _ => ?_
    rw [shared_updateUnitSym htable]
    exact Post.ok (.write (setValue_writes _) ps _)
  · exact Post.bind fun _ _ => Post.ok (.refl ps)

theorem declare_results_scope (ids : List Ident) (descs : List TypeDesc)
    (hover : OverScope t ps) : Post (ScopeStep [] [] ps) (declare_results ids descs ps) := by
  induction ids generalizing descs ps with
  | nil => exact Post.ok (.refl ps)
  | cons id ids ih =>
    refine Post.bind fun r hr => ?_
    obtain ⟨_, hstep⟩ := update_add_variable_scope hover r hr
    obtain ⟨_ | sym, ps₁⟩ := r
    · exact Post.ok hstep
    · exact (ih descs.tail (hover.step hstep)).mono fun _ h => hstep.trans h

variable [Arith]

/-- A declaration of a variable gives code if it has an initialiser. -/
theorem parse_variable_scope (hover : OverScope t ps) (type : Option TypeDesc)
    (rexp : Option Expr) (konst : Bool) : Post (fun ps' => ∃ insts, ScopeStep [] insts ps ps' ∧
      (rexp = none → insts = []) ∧ (ps'.errors = ps.errors → rexp.isSome = true → insts ≠ []))
      (parse_variable id type rexp konst ps) := by
  cases rexp with
  | none =>
    refine Post.bind fun r hr => ?_
    obtain ⟨_, hstep⟩ := update_add_variable_scope hover r hr
    exact Post.ite (fun _ => Post.error) fun _ => Post.ok ⟨[], hstep, fun _ => rfl, fun _ h => nomatch h⟩
  | some exp =>
    refine Post.bind fun r hr => Post.bind fun r' hr' => ?_
    obtain ⟨info, ps₁⟩ := r
    obtain ⟨insts, es, hinsts, rfl⟩ := parser_visit_expr_coded _ hr
    have hvisit := ScopeStep.append ps es hinsts
    rcases check_initializer_post r' hr' with ⟨hsome, hps⟩ | ⟨hnone, pos, msg, hps⟩
    · obtain ⟨desc, ps₂⟩ := r'
      obtain ⟨desc, rfl⟩ := Option.isSome_iff_exists.mp hsome
      subst hps
      refine Post.bind fun r'' hr'' => ?_
      obtain ⟨hvar, hupdate⟩ := update_add_variable_scope (hover.step hvisit) r'' hr''
      obtain ⟨var, ps₃⟩ := r''
      obtain ⟨sym, rfl⟩ := Option.isSome_iff_exists.mp hvar
      have hover₃ := (hover.step hvisit).step hupdate
      refine Post.bind fun ps₄ hsave => ?_
      have hsaved : ScopeStep [] [] ps₃ ps₄ := by
        split at hsave
        · exact __save_const_to_symbol_scope hover₃ sym.name exp info ps₄ hsave
        · cases hsave
          exact .refl ps₃
      refine (code_variable_scope (hover₃.step hsaved)).mono fun ps' hcode => ?_
      refine ⟨_, ((hvisit.trans hupdate).trans hsaved).trans hcode, (nomatch ·), fun _ _ hnil => ?_⟩
      exact List.cons_ne_nil _ _ (List.append_eq_nil_iff.mp hnil).2
    · obtain ⟨desc, ps₂⟩ := r'
      cases hnone
      subst hps
      have herror := (Reported.error (ps.append insts es) pos msg).scopeStep
      refine Post.ok ⟨_, hvisit.trans herror, (nomatch ·), fun herrors => ?_⟩
      have hlength := congrArg List.length herrors
      simp [Syntax_Error, ParserState.append] at hlength

/-- A declaration of several variables gives no code. -/
theorem parse_varlistdecl_stmt_scope (hover : OverScope t ps) (ids : List Ident)
    (type : Option TypeDesc) (rexp : Expr) (konst : Bool) :
    Post (ScopeStep [] [] ps) (parse_varlistdecl_stmt ids type rexp konst ps) := by
  refine Post.bind fun _ _ => ?_
  cases hcall : rexp.Is_Call with
  | false => exact Post.ok (Reported.error ps _ _).scopeStep
  | true =>
    refine Post.bind fun r hr => ?_
    have hvisit := (parser_visit_call_reported hcall r hr).scopeStep
    obtain ⟨info, ps₁⟩ := r
    dsimp only at hvisit ⊢
    have herror : ∀ pos msg, ScopeStep [] [] ps (Syntax_Error ps₁ pos msg) := fun pos msg =>
      hvisit.trans (Reported.error ps₁ pos msg).scopeStep
    split
    · exact Post.ok hvisit
    refine Post.bind fun proto _ => Post.ite (fun _ => Post.ok (herror _ _)) fun _ => ?_
    refine Post.ite (fun _ => Post.ok (herror _ _)) fun _ => Post.bind fun u _ => ?_
    refine Post.bind fun _ _ => (declare_results_scope ids proto.ret (hover.step hvisit)).mono ?_
    exact fun _ h => hvisit.trans h

end declarations

end koala.parser

open koala.typedesc

namespace koala.parser

set_option linter.style.nameCheck false

namespace Stmt

/-- What the grammar allows in a class or a trait. -/
def IsMember : Stmt → Prop
  | VAR .. => True
  | FUNC .. => True
  | PROTO .. => True
  | _ => False

/-- What the grammar allows in a module. -/
def IsTopLevel : Stmt → Prop
  | VAR .. => True
  | VARLIST .. => True
  | FUNC .. => True
  | PROTO .. => True
  | CLASS _ _ body => ∀ s ∈ body, s.IsMember
  | TRAIT _ _ body => ∀ s ∈ body, s.IsMember
  | _ => False

/-- The functions with a body that a member declares in its table. -/
def defines (t : TableRef) : Stmt → List SymRef
  | FUNC id _ _ _ => [⟨t, id.name⟩]
  | _ => []

/-- The functions whose bodies are parsed with a statement of a module. -/
def functions : Stmt → List SymRef
  | TRAIT id _ body => body.flatMap (defines (.klass id.name))
  | stmt => stmt.defines .pkg

/-- A variable or a constant with an initialiser. -/
def Initialised : Stmt → Prop
  | VAR _ _ exp _ => exp.isSome = true
  | _ => False

end Stmt

/-- Symbols that are there. -/
def Known (refs : List SymRef) (ps : ParserState) : Prop :=
  ∀ ref ∈ refs, (viewOf ps.pkg ref).isSome = true

section known

variable {refs refs' : List SymRef} {insts : List Inst} {ps ps' : ParserState}

theorem Known.step (h : Known refs ps) (hstep : ScopeStep refs' insts ps ps') :
    Known refs ps' := by
  intro ref href
  have hkind := congrArg Option.isSome (hstep.kind ref)
  rw [Option.isSome_map, Option.isSome_map] at hkind
  exact hkind.trans (h ref href)

theorem known_append : Known (refs ++ refs') ps ↔ Known refs ps ∧ Known refs' ps :=
  List.forall_mem_append

end known

section members

variable {t : TableRef} {ps : ParserState}

theorem FunctionParsed.scopeStep {ref : SymRef} {vars : List LocVar} {b : CodeBlock}
    {ps' : ParserState} (h : FunctionParsed ref vars b ps ps') : ScopeStep [ref] [] ps ps' where
  u := by
    rw [h.u]
    cases ps.u with
    | none => rfl
    | some u => exact congrArg some u.append_nil.symm
  code := List.forall_mem_nil _
  ustack := h.ustack
  rest := h.rest
  depth := h.depth
  errors := h.errors
  kind ref' := by
    rw [h.view, Option.map_map]
    congr 1
    split <;> rfl
  view ref' href := by
    rw [h.view, if_neg (fun heq => href (List.mem_singleton.mpr heq)), Option.map_id, id]

variable [Build] [Arith]

theorem parse_funcdecl_stmt_scope {id : Ident} (hover : OverScope t ps)
    (hknown : Known [⟨t, id.name⟩] ps) (args rets : List IdType) (body : List Stmt) :
    Post (ScopeStep [⟨t, id.name⟩] [] ps)
      (parse_funcdecl_stmt id args rets (parse_statements body) ps) := by
  obtain ⟨u, hu, hscope⟩ := hover
  have hview := hknown _ (List.mem_singleton.mpr rfl)
  rw [viewOf, Option.isSome_map] at hview
  obtain ⟨sym, hget⟩ := Option.isSome_iff_exists.mp hview
  refine (parse_funcdecl_stmt_post hu hscope.table hget args rets body).mono fun ps' h => ?_
  obtain ⟨vars, b, hparsed, _⟩ := h
  exact hparsed.scopeStep

theorem parse_member (stmt : Stmt) (hmember : stmt.IsMember) (hover : OverScope t ps)
    (hknown : Known (stmt.defines t) ps) :
    Post (fun ps' => ∃ insts, ScopeStep (stmt.defines t) insts ps ps')
      (parse_statement stmt ps) := by
  cases stmt with
  | VAR id type exp konst =>
    refine dispatch_post rfl (fun _ => ⟨[], .refl ps⟩) ?_
    exact (parse_variable_scope hover type exp konst).mono fun _ ⟨insts, h, _⟩ => ⟨insts, h⟩
  | FUNC id args rets body =>
    refine dispatch_post rfl (fun _ => ⟨[], (ScopeStep.refl ps).weaken (List.forall_mem_nil _)⟩) ?_
    exact (parse_funcdecl_stmt_scope hover hknown args rets body).mono fun _ h => ⟨[], h⟩
  | PROTO native id args rets =>
    exact dispatch_post rfl (fun _ => ⟨[], .refl ps⟩) (Post.ok ⟨[], .refl ps⟩)
  | _ => exact hmember.elim

theorem parse_members (body : List Stmt) (hmembers : ∀ s ∈ body, s.IsMember)
    (hover : OverScope t ps) (hknown : Known (body.flatMap (Stmt.defines t)) ps) :
    Post (fun ps' => ∃ insts, ScopeStep (body.flatMap (Stmt.defines t)) insts ps ps')
      (parse_statements body ps) := by
  induction body generalizing ps with
  | nil =>
    rw [parse_statements]
    exact Post.ok ⟨[], .refl ps⟩
  | cons stmt body ih =>
    rw [parse_statements]
    rw [List.flatMap_cons, known_append] at hknown
    rw [List.forall_mem_cons] at hmembers
    refine Post.bind fun ps₁ hstmt => ?_
    obtain ⟨insts, hstep⟩ := parse_member stmt hmembers.1 hover hknown.1 ps₁ hstmt
    refine (ih hmembers.2 (hover.step hstep) (hknown.2.step hstep)).mono fun ps' h => ?_
    obtain ⟨insts', hrest⟩ := h
    exact ⟨insts ++ insts', hstep.trans hrest⟩

end members

section klass

variable [Build] {ps : ParserState} {u : ParserUnit}

/-- The class whose symbol is in the table of the package is entered. -/
theorem enter_class_post (hu : ps.u = some u) (id : Ident) :
    Post (fun ps₁ => ps₁ = ps.entered u (class_unit id.name CodeBlock_New))
      (enter_class id ps) := by
  unfold enter_class
  rw [hu]
  refine Post.bind fun u' hu' => Post.bind fun found _ => Post.bind fun _ _ => Post.bind fun sym _ => ?_
  split
  · refine Post.bind fun u₁ hu₁ => Post.ok ?_
    unfold Parser_Enter_Scope at hu₁ ⊢
    rw [hu]
    cases hu₁
    rfl
  · exact Post.error

variable [Arith]

theorem parse_class_stmt_scope (hu : ps.u = some u) (id : Ident) (body : List Stmt)
    (hmembers : ∀ s ∈ body, s.IsMember)
    (hknown : Known (body.flatMap (Stmt.defines (.klass id.name))) ps) :
    Post (ScopeStep (body.flatMap (Stmt.defines (.klass id.name))) [] ps)
      (parse_class_stmt id (parse_statements body) ps) := by
  refine Post.bind fun ps₁ henter => Post.bind fun ps₂ hbody => fun ps' hexit => ?_
  obtain rfl := enter_class_post hu id ps₁ henter
  have hover : OverScope (.klass id.name) (ps.entered u (class_unit id.name CodeBlock_New)) :=
    ⟨_, rfl, .inr rfl, rfl⟩
  obtain ⟨insts, hstep⟩ := parse_members body hmembers hover hknown ps₂ hbody
  obtain rfl := exit_class_ok hstep.u rfl hexit
  refine ⟨?_, List.forall_mem_nil _, ?_, hstep.rest, ?_, hstep.errors, hstep.kind, hstep.view⟩
  · change ps₂.ustack.head? = ps.u.map fun u => u.append []
    rw [hstep.ustack, hu]
    exact congrArg some u.append_nil.symm
  · change ps₂.ustack.tail = ps.ustack
    rw [hstep.ustack]
    rfl
  · change ps₂.depth - 1 = ps.depth
    rw [hstep.depth]
    rfl

end klass

section toplevel

variable [Build] [Arith] {ps : ParserState}

/-- A statement of a module gives code only if it initialises a variable, and
writes only the functions that it declares. -/
theorem parse_toplevel (stmt : Stmt) (htop : stmt.IsTopLevel) (hover : OverScope .pkg ps)
    (hknown : Known stmt.functions ps) :
    Post (fun ps' => ∃ insts, ScopeStep stmt.functions insts ps ps' ∧
      (¬ stmt.Initialised → insts = []) ∧
      (ps'.errors = [] → stmt.Initialised → insts ≠ [])) (parse_statement stmt ps) := by
  have hskip : ∀ refs, ps.errnum > MAX_ERRORS → ∃ insts, ScopeStep refs insts ps ps ∧
      (¬ stmt.Initialised → insts = []) ∧ (ps.errors = [] → stmt.Initialised → insts ≠ []) := by
    intro refs hmany
    refine ⟨[], (ScopeStep.refl ps).weaken (List.forall_mem_nil _), fun _ => rfl, fun hnone => ?_⟩
    unfold ParserState.errnum at hmany
    rw [hnone] at hmany
    cases hmany
  obtain ⟨u, hu, _⟩ := id hover
  cases stmt with
  | VAR id type exp konst =>
    refine dispatch_post rfl (hskip _) ?_
    refine (parse_variable_scope hover type exp konst).mono fun ps' h => ?_
    obtain ⟨insts, hstep, hnone, hsome⟩ := h
    refine ⟨insts, hstep, fun hinit => hnone ?_, fun herrors => hsome ?_⟩
    · exact Option.not_isSome_iff_eq_none.mp hinit
    · have herrs := hstep.errors
      rw [herrors] at herrs ⊢
      exact (List.prefix_nil.mp herrs).symm
  | VARLIST ids type exp konst =>
    refine dispatch_post rfl (hskip _) ?_
    exact (parse_varlistdecl_stmt_scope hover ids type exp konst).mono fun _ h =>
      ⟨[], h, fun _ => rfl, fun _ hinit => hinit.elim⟩
  | FUNC id args rets body =>
    refine dispatch_post rfl (hskip _) ?_
    exact (parse_funcdecl_stmt_scope hover hknown args rets body).mono fun _ h =>
      ⟨[], h, fun _ => rfl, fun _ hinit => hinit.elim⟩
  | PROTO native id args rets =>
    refine dispatch_post rfl (hskip _) (Post.ok ?_)
    exact ⟨[], .refl ps, fun _ => rfl, fun _ hinit => hinit.elim⟩
  | CLASS id super body =>
    refine dispatch_post rfl (hskip _) (Post.ok ?_)
    exact ⟨[], .refl ps, fun _ => rfl, fun _ hinit => hinit.elim⟩
  | TRAIT id super body =>
    refine dispatch_post rfl (hskip _) ?_
    exact (parse_class_stmt_scope hu id body htop hknown).mono fun _ h =>
      ⟨[], h, fun _ => rfl, fun _ hinit => hinit.elim⟩
  | _ => exact htop.elim

theorem parse_toplevels (stmts : List Stmt) (htop : ∀ s ∈ stmts, s.IsTopLevel)
    (hover : OverScope .pkg ps) (hknown : Known (stmts.flatMap Stmt.functions) ps) :
    Post (fun ps' => ∃ insts, ScopeStep (stmts.flatMap Stmt.functions) insts ps ps' ∧
      ((∀ s ∈ stmts, ¬ s.Initialised) → insts = []) ∧
      (ps'.errors = [] → insts = [] → ∀ s ∈ stmts, ¬ s.Initialised))
      (parse_statements stmts ps) := by
  induction stmts generalizing ps with
  | nil =>
    rw [parse_statements]
    exact Post.ok ⟨[], .refl ps, fun _ => rfl, fun _ _ => List.forall_mem_nil _⟩
  | cons stmt stmts ih =>
    rw [parse_statements]
    rw [List.flatMap_cons, known_append] at hknown
    rw [List.forall_mem_cons] at htop
    refine Post.bind fun ps₁ hstmt => ?_
    obtain ⟨insts, hstep, hnone, hsome⟩ := parse_toplevel stmt htop.1 hover hknown.1 ps₁ hstmt
    refine (ih htop.2 (hover.step hstep) (hknown.2.step hstep)).mono fun ps' h => ?_
    obtain ⟨insts', hrest, hnone', hsome'⟩ := h
    refine ⟨insts ++ insts', hstep.trans hrest, fun hall => ?_, fun herrors hnil => ?_⟩
    · rw [List.forall_mem_cons] at hall
      rw [hnone hall.1, hnone' hall.2, List.append_nil]
    · obtain ⟨hinsts, hinsts'⟩ := List.append_eq_nil_iff.mp hnil
      have herrs := hrest.errors
      rw [herrors, List.prefix_nil] at herrs
      refine List.forall_mem_cons.mpr ⟨fun hinit => ?_, hsome' herrors hinsts'⟩
      exact hsome herrs hinit hinsts

end toplevel

end koala.parser
