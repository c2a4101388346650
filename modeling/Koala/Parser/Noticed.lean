import Koala.Parser.StmtChecked

open koala.typedesc

namespace koala.parser

set_option linter.style.nameCheck false

section errors

variable {ref : SymRef} {outer : List ParserUnit} {n : Nat} {ps ps' : ParserState}

theorem Syntax_Error_errors (ps : ParserState) (pos : Position) (msg : Message) :
    ps.errors <+: (Syntax_Error ps pos msg).errors := (Reported.error ps pos msg).coded.errors

theorem Syntax_Error_errnum (ps : ParserState) (pos : Position) (msg : Message) :
    (Syntax_Error ps pos msg).errnum = ps.errnum + 1 := List.length_append

theorem emit_errors {f : CodeBlock → CodeBlock} :
    Post (fun ps' => ps.errors <+: ps'.errors) (ps.emit f) :=
  Post.bind fun _ _ => Post.bind fun _ _ => Post.ok List.prefix_rfl

/-- No error is taken back. -/
theorem Within.errors [Build] (hin : Within ref outer n ps) (h : Steps ps ps') :
    ps.errors <+: ps'.errors := by
  obtain ⟨idx, hin⟩ := hin
  obtain ⟨vars, -, hmoved, -⟩ := h.inside hin
  exact hmoved.errors

end errors

section statements

variable [Arith] {ref : SymRef} {outer : List ParserUnit} {n : Nat} {ps ps' : ParserState}
  {exp : Expr}

/-- What comes after the first visit of an expression leaves what was noticed in it. -/
theorem noticed_of_visit (hcovered : Covered exp) (hin : InBody ref outer n ps) {ctx : ExprCtx}
    {f : ExprInfo × ParserState → Res ParserState}
    (hrest : ∀ info ps₁, InBody ref outer n ps₁ →
      Post (fun ps' => ps₁.errors <+: ps'.errors) (f (info, ps₁)))
    (h : parser_visit_expr exp ctx ps >>= f = .ok ps') :
    ∀ id ∈ exp.idents, resolve ps id.name = none → Noticed id ps' := by
  obtain ⟨r, hr, h⟩ := bind_eq_ok_iff.mp h
  intro id hid hnone
  have hvisited := parser_visit_expr_noticed hcovered hin hr id hid hnone
  exact hvisited.mono (hrest r.1 r.2 (hin.visited hr) ps' h)

theorem visit_exprs_noticed {exps : List Expr} {infos : List ExprInfo}
    (hcovered : ∀ e ∈ exps, Covered e) (hin : InBody ref outer n ps)
    (h : visit_exprs exps ps = .ok (infos, ps')) :
    ∀ id ∈ Expr.identsAll exps, resolve ps id.name = none → Noticed id ps' := by
  induction exps generalizing ps infos with
  | nil => exact fun id hid => nomatch hid
  | cons e exps ih =>
    rw [List.forall_mem_cons] at hcovered
    rw [visit_exprs] at h
    obtain ⟨r, hr, h⟩ := bind_eq_ok_iff.mp h
    obtain ⟨rest, hrest, h⟩ := bind_eq_ok_iff.mp h
    cases h
    have hcoded : Coded ps r.2 := parser_visit_expr_coded r hr
    have hcoded' : Coded r.2 rest.2 := visit_exprs_coded exps r.2 rest hrest
    intro id hid hnone
    rw [Expr.identsAll, List.mem_append] at hid
    rcases hid with hid | hid
    · exact (parser_visit_expr_noticed hcovered.1 hin hr id hid hnone).mono hcoded'.errors
    · rw [← hcoded.resolve] at hnone
      exact ih hcovered.2 (hin.visited hr) hrest id hid hnone

theorem parse_variable_noticed (hcovered : Covered exp) (hin : InBody ref outer n ps)
    {id : Ident} {type : Option TypeDesc}
    (h : parse_variable id type (some exp) false ps = .ok ps') :
    ∀ id ∈ exp.idents, resolve ps id.name = none → Noticed id ps' := by
  refine noticed_of_visit hcovered hin (fun info ps₁ hin₁ => ?_) h
  refine Post.bind fun d hd => ?_
  have hreported : Reported ps₁ d.2 := check_initializer_reported d hd
  have hin₂ := (Steps.coded hreported.coded).inBody hin₁
  obtain ⟨_ | desc, ps₂⟩ := d
  · exact Post.ok hreported.coded.errors
  refine Post.bind fun v hv => ?_
  have hsteps : Steps ps₂ v.2 := update_add_variable_steps hin₂.within id (some desc) v hv
  have hgrows := hreported.coded.errors.trans (hin₂.within.errors hsteps)
  obtain ⟨_ | sym, ps₃⟩ := v
  · exact Post.ok hgrows
  dsimp only
  rw [if_neg Bool.false_ne_true, ok_bind]
  exact code_variable_coded.mono fun ps₄ hcode => hgrows.trans hcode.errors

theorem parse_assign_noticed {op : AssignOpKind} {left right : Expr} (hleft : Covered left)
    (hright : Covered right) (hin : InBody ref outer n ps)
    (h : parse_assign_stmt op left right ps = .ok ps') :
    ∀ id ∈ left.idents ++ right.idents, resolve ps id.name = none → Noticed id ps' := by
  have hop : op = .OP_ASSIGN := ((parse_assign_finishes_iff hleft hright hin).mp ⟨ps', h⟩).1
  unfold parse_assign_stmt at h
  rw [if_pos hop] at h
  obtain ⟨r, hr, h⟩ := bind_eq_ok_iff.mp h
  obtain ⟨l, hl, h⟩ := bind_eq_ok_iff.mp h
  have hcode : Coded ps r.2 := parser_visit_expr_coded r hr
  have hstore : Coded r.2 l.2 := parser_visit_expr_coded l hl
  have hcheck : Reported l.2 ps' := check_assign_reported ps' h
  intro id hid hnone
  rcases List.mem_append.mp hid with hid | hid
  · rw [← hcode.resolve] at hnone
    have hvisited := parser_visit_expr_noticed hleft (hin.visited hr) hl id hid hnone
    exact hvisited.mono hcheck.coded.errors
  · have hvisited := parser_visit_expr_noticed hright hin hr id hid hnone
    exact hvisited.mono (hstore.errors.trans hcheck.coded.errors)

theorem parse_return_noticed {pos : Position} {exps : List Expr} (hcovered : ∀ e ∈ exps, Covered e)
    (hin : InBody ref outer n ps) (h : parse_return_stmt pos exps ps = .ok ps') :
    ∀ id ∈ Expr.identsAll exps, resolve ps id.name = none → Noticed id ps' := by
  obtain ⟨func, -, h⟩ := bind_eq_ok_iff.mp h
  obtain ⟨r, hr, h⟩ := bind_eq_ok_iff.mp h
  obtain ⟨desc, -, h⟩ := bind_eq_ok_iff.mp h
  obtain ⟨matched, -, h⟩ := bind_eq_ok_iff.mp h
  have hgrows : r.2.errors <+: ps'.errors :=
    Post.ite (fun _ => emit_errors) (fun _ => Post.ok (Syntax_Error_errors _ _ _)) ps' h
  intro id hid hnone
  exact (visit_exprs_noticed hcovered hin hr id hid hnone).mono hgrows

theorem parse_varlistdecl_noticed (hcovered : Covered exp) (hin : InBody ref outer n ps)
    {ids : List Ident} {type : Option TypeDesc}
    (h : parse_varlistdecl_stmt ids type exp false ps = .ok ps') :
    ∀ id ∈ exp.idents, resolve ps id.name = none → Noticed id ps' ∨ ps.errnum < ps'.errnum := by
  obtain ⟨-, h⟩ := assert_bind_ok_iff.mp h
  intro id hid hnone
  split at h
  · cases h
    rw [Syntax_Error_errnum]
    exact .inr (Nat.lt_succ_self _)
  · refine .inl (noticed_of_visit hcovered hin (fun info ps₁ hin₁ => ?_) h id hid hnone)
    dsimp only
    split
    · exact Post.ok List.prefix_rfl
    refine Post.bind fun proto _ => Post.ite (fun _ => Post.ok (Syntax_Error_errors _ _ _)) fun _ => ?_
    refine Post.ite (fun _ => Post.ok (Syntax_Error_errors _ _ _)) fun _ => ?_
    refine Post.bind fun u _ => Post.bind fun _ _ => ?_
    exact (declare_results_steps ids proto.ret hin₁.within).mono fun _ => hin₁.within.errors

theorem assign_results_noticed {rexp : Expr} {left : List Expr} (hcovered : ∀ e ∈ left, Covered e)
    (descs : List TypeDesc) (hin : InBody ref outer n ps)
    (h : assign_results rexp left descs ps = .ok ps') :
    ∀ id ∈ Expr.identsAll left, resolve ps id.name = none → Noticed id ps' ∨ ps.errnum < ps'.errnum := by
  induction left generalizing descs ps with
  | nil => exact fun id hid => nomatch hid
  | cons e left ih =>
    rw [List.forall_mem_cons] at hcovered
    rw [assign_results] at h
    obtain ⟨⟨info, ps₁⟩, hr, h⟩ := bind_eq_ok_iff.mp h
    have hcode : Coded ps ps₁ := parser_visit_expr_coded _ hr
    have hin₁ : InBody ref outer n ps₁ := hin.visited hr
    dsimp only at h
    intro id hid hnone
    rw [Expr.identsAll, List.mem_append] at hid
    split at h
    · rcases hid with hid | hid
      · have hsteps := assign_results_steps rexp left descs.tail hin₁.within ps' h
        have hvisited := parser_visit_expr_noticed hcovered.1 hin hr id hid hnone
        exact .inl (hvisited.mono (hin₁.within.errors hsteps))
      · rw [← hcode.resolve] at hnone
        refine (ih hcovered.2 descs.tail hin₁ h id hid hnone).imp_right fun hlt => ?_
        exact Nat.lt_of_le_of_lt hcode.errors.length_le hlt
    · cases h
      rw [Syntax_Error_errnum]
      exact .inr (Nat.lt_succ_of_le hcode.errors.length_le)

theorem parse_assignlist_noticed {left : List Expr} {right : Expr} (hleft : ∀ e ∈ left, Covered e)
    (hright : Covered right) (hin : InBody ref outer n ps)
    (h : parse_assignlist_stmt left right ps = .ok ps') :
    ∀ id ∈ Expr.identsAll left ++ right.idents, resolve ps id.name = none →
      Noticed id ps' ∨ ps.errnum < ps'.errnum := by
  intro id hid hnone
  unfold parse_assignlist_stmt at h
  split at h
  · cases h
    rw [Syntax_Error_errnum]
    exact .inr (Nat.lt_succ_self _)
  obtain ⟨r, hr, h⟩ := bind_eq_ok_iff.mp h
  obtain ⟨-, h⟩ := assert_bind_ok_iff.mp h
  obtain ⟨desc, -, h⟩ := bind_eq_ok_iff.mp h
  obtain ⟨proto, -, h⟩ := bind_eq_ok_iff.mp h
  have hcode : Coded ps r.2 := parser_visit_expr_coded r hr
  have hin₁ : InBody ref outer n r.2 := hin.visited hr
  split at h
  · cases h
    rw [Syntax_Error_errnum]
    exact .inr (Nat.lt_succ_of_le hcode.errors.length_le)
  rcases List.mem_append.mp hid with hid | hid
  · rw [← hcode.resolve] at hnone
    refine (assign_results_noticed hleft proto.ret hin₁ h id hid hnone).imp_right fun hlt => ?_
    exact Nat.lt_of_le_of_lt hcode.errors.length_le hlt
  · have hsteps := assign_results_steps right left proto.ret hin₁.within ps' h
    have hvisited := parser_visit_expr_noticed hright hin hr id hid hnone
    exact .inl (hvisited.mono (hin₁.within.errors hsteps))

end statements

end koala.parser
