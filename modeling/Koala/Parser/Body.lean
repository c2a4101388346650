import Koala.Parser.Inside

open koala.typedesc

namespace koala.parser

set_option linter.style.nameCheck false

/-- The current unit is that of the function `ref`, or of a block in it. -/
def Within (ref : SymRef) (outer : List ParserUnit) (n : Nat) (ps : ParserState) : Prop :=
  ∃ idx, Inside ref outer idx n ps

section within

variable {ref : SymRef} {outer : List ParserUnit} {n : Nat} {ps ps' : ParserState}

/-- The current unit is local and its table its own. -/
theorem Within.unit (h : Within ref outer n ps) : ∃ u, ps.u = some u ∧ u.Own ∧
    (u.scope = .SCOPE_FUNCTION ∨ u.scope = .SCOPE_BLOCK) := by
  obtain ⟨idx, hin⟩ := h
  cases hin with
  | function hu _ hf =>
    obtain ⟨stbl, hstbl, _⟩ := hf.own
    exact ⟨_, hu, ⟨stbl, hstbl⟩, .inl hf.scope⟩
  | block hu _ hblock => exact ⟨_, hu, hblock.own, .inr hblock.scope⟩

variable [Build]

theorem Within.steps (h : Within ref outer n ps) (hsteps : Steps ps ps') :
    Within ref outer n ps' := by
  obtain ⟨idx, hin⟩ := h
  obtain ⟨vars, hin', _⟩ := hsteps.inside hin
  exact ⟨_, hin'⟩

/-- The rule for two steps one after the other. -/
theorem Post.steps {α : Type} {x : Res (α × ParserState)} {f : α × ParserState → Res ParserState}
    (hin : Within ref outer n ps) (hx : Post (fun r => Steps ps r.2) x)
    (hf : ∀ r, x = .ok r → Within ref outer n r.2 → Post (Steps r.2) (f r)) :
    Post (Steps ps) (x >>= f) :=
  Post.bind fun r hr => (hf r hr (hin.steps (hx r hr))).mono fun _ h => (hx r hr).trans h

end within

section statements

theorem code_variable_coded {ps : ParserState} {sym : Symbol} : Post (Coded ps) (code_variable sym ps) := by
  refine Post.bind fun u _ => Post.ite (fun _ => CODE_STORE_FIELD_post) fun _ => ?_
  exact Post.bind fun index _ => CODE_STORE_post

variable [Build] {ref : SymRef} {outer : List ParserUnit} {n : Nat} {ps : ParserState}

theorem Steps.error (ps : ParserState) (pos : Position) (msg : Message) :
    Steps ps (Syntax_Error ps pos msg) := .coded (Reported.error ps pos msg).coded

theorem update_add_variable_steps (hin : Within ref outer n ps) (id : Ident)
    (desc : Option TypeDesc) : Post (fun r => Steps ps r.2) (update_add_variable id desc ps) := by
  obtain ⟨u, hu, hown, hscope⟩ := hin.unit
  rcases hscope with hscope | hscope
  · simp only [update_add_variable, hu, deref, ok_bind, hscope]
    exact add_function_variable_steps hu hscope hown
  · simp only [update_add_variable, hu, deref, ok_bind, hscope]
    exact add_block_variable_steps hu hscope hown

theorem __save_const_to_symbol_steps (hin : Within ref outer n ps) (name : CString) (exp : Expr)
    (info : ExprInfo) : Post (Steps ps) (__save_const_to_symbol name exp info ps) := by
  obtain ⟨u, hu, ⟨stbl, hstbl⟩, _⟩ := hin.unit
  unfold __save_const_to_symbol
  rw [hu]
  refine Post.bind fun u' hu' => ?_
  cases hu'
  split
  · rw [own_updateUnitSym hstbl]
    exact Post.ok (.valued name _ hu hstbl)
  · refine Post.bind fun _ _ => Post.bind fun sym _ => Post.bind fun value _ => ?_
    rw [own_updateUnitSym hstbl]
    exact Post.ok (.valued name _ hu hstbl)
  · exact Post.bind fun _ _ => Post.ok (.refl ps)

/-- The type of an initialised variable is found, or an error is reported. -/
theorem check_initializer_post {type : Option TypeDesc} {exp : Expr} {info : ExprInfo}
    {konst : Bool} : Post (fun r => (r.1.isSome = true ∧ r.2 = ps) ∨
      (r.1 = none ∧ ∃ pos msg, r.2 = Syntax_Error ps pos msg))
      (check_initializer type exp info konst ps) := by
  unfold check_initializer
  split
  · exact Post.ok (.inr ⟨rfl, _, _, rfl⟩)
  refine Post.ite (fun _ => Post.ok (.inr ⟨rfl, _, _, rfl⟩)) fun _ => Post.bind fun rdesc _ => ?_
  split
  · exact Post.ok (.inr ⟨rfl, _, _, rfl⟩)
  · split
    · exact Post.ok (.inl ⟨rfl, rfl⟩)
    · exact Post.ite (fun _ => Post.ok (.inl ⟨rfl, rfl⟩)) fun _ =>
        Post.ok (.inr ⟨rfl, _, _, rfl⟩)

theorem check_initializer_reported {type : Option TypeDesc} {exp : Expr} {info : ExprInfo}
    {konst : Bool} : Post (fun r => Reported ps r.2) (check_initializer type exp info konst ps) :=
  check_initializer_post.mono fun r hr => by
    rcases hr with ⟨_, hr⟩ | ⟨_, pos, msg, hr⟩
    · rw [hr]
      exact .refl ps
    · rw [hr]
      exact .error ps pos msg

theorem check_assign_reported {rexp : Expr} {ldesc rdesc : Option TypeDesc} :
    Post (Reported ps) (check_assign rexp ldesc rdesc ps) := by
  unfold check_assign
  split
  · exact Post.ok (.error ps _ _)
  refine Post.bind fun rdesc _ => ?_
  split
  · exact Post.ok (.error ps _ _)
  · exact Post.ite (fun _ => Post.ok (.refl ps)) fun _ => Post.ok (.error ps _ _)

theorem declare_results_steps (ids : List Ident) (descs : List TypeDesc)
    (hin : Within ref outer n ps) : Post (Steps ps) (declare_results ids descs ps) := by
  induction ids generalizing descs ps with
  | nil => exact Post.ok (.refl ps)
  | cons id ids ih =>
    refine Post.steps hin (update_add_variable_steps hin id descs.head?) ?_
    rintro ⟨_ | sym, ps₁⟩ _ hin
    · exact Post.ok (.refl ps₁)
    · exact ih descs.tail hin

theorem enter_function_within (hin : Within ref outer n ps) (id : Ident) :
    Post (fun _ => False) (enter_function id ps) := by
  obtain ⟨u, hu, ⟨stbl, hstbl⟩, _⟩ := hin.unit
  unfold enter_function Parser_Enter_Scope
  rw [hu]
  refine Post.bind fun uu huu => Post.bind fun _ _ => Post.bind fun found _ => Post.bind fun _ _ => ?_
  cases huu
  rw [hstbl]
  exact Post.error

theorem enter_class_within (hin : Within ref outer n ps) (id : Ident) :
    Post (fun _ => False) (enter_class id ps) := by
  obtain ⟨u, hu, ⟨stbl, hstbl⟩, _⟩ := hin.unit
  unfold enter_class
  rw [hu]
  refine Post.bind fun u' hu' => Post.bind fun found _ => Post.bind fun _ _ => Post.bind fun sym _ => ?_
  cases hu'
  rw [hstbl]
  cases sym.stbl <;> exact Post.error

variable [Arith]

theorem parse_variable_steps (hin : Within ref outer n ps) (id : Ident) (type : Option TypeDesc)
    (rexp : Option Expr) (konst : Bool) : Post (Steps ps) (parse_variable id type rexp konst ps) := by
  cases rexp with
  | none =>
    refine Post.steps hin (update_add_variable_steps hin id type) ?_
    rintro ⟨var, ps₁⟩ _ _
    exact Post.ite (fun _ => Post.error) fun _ => Post.ok (.refl ps₁)
  | some exp =>
    refine Post.steps hin (parser_visit_expr_coded.mono fun _ h => .coded h) ?_
    rintro ⟨info, ps₁⟩ _ hin
    refine Post.steps hin (check_initializer_reported.mono fun _ h => .coded h.coded) ?_
    rintro ⟨_ | desc, ps₂⟩ _ hin
    · exact Post.ok (.refl ps₂)
    refine Post.steps hin (update_add_variable_steps hin id (some desc)) ?_
    rintro ⟨_ | sym, ps₃⟩ _ hin
    · exact Post.ok (.refl ps₃)
    refine Post.bind fun ps₄ hsave => ?_
    have hsaved : Steps ps₃ ps₄ := by
      split at hsave
      · exact __save_const_to_symbol_steps hin sym.name exp info ps₄ hsave
      · cases hsave
        exact .refl ps₃
    exact code_variable_coded.mono fun _ h => hsaved.trans (.coded h)

theorem parse_varlistdecl_stmt_steps (hin : Within ref outer n ps) (ids : List Ident)
    (type : Option TypeDesc) (rexp : Expr) (konst : Bool) :
    Post (Steps ps) (parse_varlistdecl_stmt ids type rexp konst ps) := by
  refine Post.bind fun _ _ => Post.ite (fun _ => Post.ok (.error ps _ _)) fun _ => ?_
  refine Post.steps hin (parser_visit_expr_coded.mono fun _ h => .coded h) ?_
  rintro ⟨info, ps₁⟩ _ hin
  dsimp only at hin ⊢
  split
  · exact Post.ok (.refl ps₁)
  refine Post.bind fun proto _ => Post.ite (fun _ => Post.ok (.error _ _ _)) fun _ => ?_
  refine Post.ite (fun _ => Post.ok (.error _ _ _)) fun _ => Post.bind fun u _ => ?_
  exact Post.bind fun _ _ => declare_results_steps ids proto.ret hin

theorem parse_assign_stmt_steps (hin : Within ref outer n ps) (op : AssignOpKind)
    (lexp rexp : Expr) : Post (Steps ps) (parse_assign_stmt op lexp rexp ps) := by
  have hvisit : ∀ {ps exp ctx}, Post (fun r => Steps ps r.2) (parser_visit_expr exp ctx ps) :=
    parser_visit_expr_coded.mono fun _ h => .coded h
  have hcheck : ∀ {ps ldesc rdesc}, Post (Steps ps) (check_assign rexp ldesc rdesc ps) :=
    check_assign_reported.mono fun _ h => .coded h.coded
  refine Post.ite (fun _ => ?_) fun _ => ?_
  · exact Post.steps hin hvisit fun r _ hin => Post.steps hin hvisit fun _ _ _ => hcheck
  · exact Post.bind fun _ _ => Post.steps hin hvisit fun _ _ _ => hcheck

theorem assign_results_steps (rexp : Expr) (left : List Expr) (descs : List TypeDesc)
    (hin : Within ref outer n ps) : Post (Steps ps) (assign_results rexp left descs ps) := by
  induction left generalizing descs ps with
  | nil => exact Post.ok (.refl ps)
  | cons e left ih =>
    refine Post.steps hin (parser_visit_expr_coded.mono fun _ h => .coded h) fun r _ hin => ?_
    exact Post.ite (fun _ => ih descs.tail hin) fun _ => Post.ok (.error _ _ _)

theorem parse_assignlist_stmt_steps (hin : Within ref outer n ps) (left : List Expr)
    (rexp : Expr) : Post (Steps ps) (parse_assignlist_stmt left rexp ps) := by
  refine Post.ite (fun _ => Post.ok (.error ps _ _)) fun _ => ?_
  refine Post.steps hin (parser_visit_expr_coded.mono fun _ h => .coded h) fun r _ hin => ?_
  refine Post.bind fun _ _ => Post.bind fun desc _ => Post.bind fun proto _ => ?_
  exact Post.ite (fun _ => Post.ok (.error _ _ _))
    fun _ => assign_results_steps rexp left proto.ret hin

theorem parse_return_stmt_steps (pos : Position) (exps : List Expr) :
    Post (Steps ps) (parse_return_stmt pos exps ps) := by
  refine Post.bind fun func _ => Post.bind fun r hr => Post.bind fun desc _ => ?_
  have hvisit : Steps ps r.2 := .coded (visit_exprs_coded exps ps r hr)
  refine Post.bind fun matched _ => Post.ite (fun _ => ?_) fun _ => ?_
  · refine Post.bind fun u hu => Post.bind fun b hb => Post.ok ?_
    rw [deref_eq_ok_iff] at hu hb
    exact hvisit.trans (.returned hu hb)
  · exact Post.ok (hvisit.trans (.error _ _ _))

theorem parse_expr_stmt_steps (exp : Expr) : Post (Steps ps) (parse_expr_stmt exp ps) :=
  Post.bind fun r hr => Post.ok (.coded (parser_visit_expr_coded r hr))

/-- A statement is passed over, or parsed by the function in the table. -/
theorem dispatch_post {p : ParserState → Prop} {stmt : Stmt} {f : ParseStmtFunc}
    {body : ParserState → Res ParserState} (hentry : parse_stmt_funcs[stmt.kind]? = some (some f))
    (hover : ps.errnum > MAX_ERRORS → p ps) (hrun : Post p (f.run stmt body ps)) : Post p (dispatch stmt body ps) := by
  refine Post.ite (fun h => Post.ok (hover h)) fun _ => Post.bind fun _ _ => ?_
  rw [hentry]
  exact Post.bind fun entry hentry => by
    cases hentry
    exact Post.bind fun _ _ => Post.bind fun f hf => by
      cases hf
      exact hrun

/-- While there are few errors, every statement is parsed. -/
theorem dispatch_run {stmt : Stmt} {f : ParseStmtFunc} {body : ParserState → Res ParserState}
    {ps' : ParserState} (hentry : parse_stmt_funcs[stmt.kind]? = some (some f))
    (hfew : ¬ ps.errnum > MAX_ERRORS) (h : dispatch stmt body ps = .ok ps') :
    f.run stmt body ps = .ok ps' := by
  unfold dispatch at h
  rw [if_neg hfew] at h
  obtain ⟨_, _, h⟩ := bind_eq_ok_iff.mp h
  rw [hentry] at h
  obtain ⟨entry, hsome, h⟩ := bind_eq_ok_iff.mp h
  obtain ⟨_, _, h⟩ := bind_eq_ok_iff.mp h
  obtain ⟨f', hf, h⟩ := bind_eq_ok_iff.mp h
  cases hsome
  cases hf
  exact h

mutual

/-- What a statement of a function does. -/
theorem parse_statement_steps (stmt : Stmt) {ref : SymRef} {outer : List ParserUnit} {n : Nat}
    {ps : ParserState} (hin : Within ref outer n ps) :
    Post (Steps ps) (parse_statement stmt ps) := by
  cases stmt with
  | VAR id type exp konst =>
    exact dispatch_post rfl (fun _ => .refl ps) (parse_variable_steps hin id type exp konst)
  | VARLIST ids type exp konst =>
    exact dispatch_post rfl (fun _ => .refl ps) (parse_varlistdecl_stmt_steps hin ids type exp konst)
  | ASSIGN op left right =>
    exact dispatch_post rfl (fun _ => .refl ps) (parse_assign_stmt_steps hin op left right)
  | ASSIGNLIST left right =>
    exact dispatch_post rfl (fun _ => .refl ps) (parse_assignlist_stmt_steps hin left right)
  | FUNC id args rets body =>
    exact dispatch_post rfl (fun _ => .refl ps)
      (Post.bind fun ps₁ h => (enter_function_within hin id ps₁ h).elim)
  | PROTO native id args rets =>
    exact dispatch_post rfl (fun _ => .refl ps) (Post.ok (.refl ps))
  | EXPR exp =>
    exact dispatch_post rfl (fun _ => .refl ps) (parse_expr_stmt_steps exp)
  | RETURN pos exps =>
    exact dispatch_post rfl (fun _ => .refl ps) (parse_return_stmt_steps pos exps)
  | LIST block vec =>
    refine dispatch_post rfl (fun _ => .refl ps) ?_
    cases block with
    | false => exact parse_statements_steps vec hin
    | true =>
      refine Post.bind fun ps₁ henter => Post.bind fun ps₂ hvec => ?_
      obtain ⟨idx, hin⟩ := hin
      have hin₁ : Within ref outer (n + 1) ps₁ := ⟨idx, (hin.enter henter).1⟩
      exact fun ps' hexit => .block henter (parse_statements_steps vec hin₁ ps₂ hvec) hexit
  | CLASS id super body =>
    exact dispatch_post rfl (fun _ => .refl ps) (Post.ok (.refl ps))
  | TRAIT id super body =>
    exact dispatch_post rfl (fun _ => .refl ps)
      (Post.bind fun ps₁ h => (enter_class_within hin id ps₁ h).elim)

theorem parse_statements_steps (stmts : List Stmt) {ref : SymRef} {outer : List ParserUnit}
    {n : Nat} {ps : ParserState} (hin : Within ref outer n ps) :
    Post (Steps ps) (parse_statements stmts ps) := by
  cases stmts with
  | nil =>
    rw [parse_statements]
    exact Post.ok (.refl ps)
  | cons stmt stmts =>
    rw [parse_statements]
    refine Post.bind fun ps₁ hstmt => ?_
    have hfirst := parse_statement_steps stmt hin ps₁ hstmt
    exact (parse_statements_steps stmts (hin.steps hfirst)).mono fun _ h => hfirst.trans h

end

theorem parse_statements_append (stmts stmts' : List Stmt) (ps : ParserState) :
    parse_statements (stmts ++ stmts') ps =
      parse_statements stmts ps >>= parse_statements stmts' := by
  induction stmts generalizing ps with
  | nil =>
    rw [parse_statements]
    rfl
  | cons stmt stmts ih =>
    rw [List.cons_append, parse_statements, parse_statements]
    dsimp only
    cases parse_statement stmt ps with
    | error e => rfl
    | ok ps₁ => exact ih ps₁

end statements

end koala.parser
