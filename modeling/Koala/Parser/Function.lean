import Koala.Parser.Body

open koala.typedesc

namespace koala.parser

set_option linter.style.nameCheck false

section enter

variable {ps : ParserState} {uu : ParserUnit} {t : TableRef} {id : Ident} {sym : Symbol}

theorem get_shared {name : CString} (htable : uu.stbl = some (.shared t))
    (hget : lookup ps.pkg ⟨t, name⟩ = some sym) : ps.get uu name = .ok (some sym) := by
  obtain ⟨stbl, hstbl, hsym⟩ := bind_eq_ok_iff.mp (getSym_iff.mpr hget)
  unfold ParserState.get
  rw [htable]
  change (deref (ps.table t) >>= fun stbl => .ok (STable_Get stbl name)) = _
  rw [hstbl]
  exact congrArg Except.ok (deref_eq_ok_iff.mp hsym)

theorem inside_entered (ps : ParserState) (uu : ParserUnit) (ref : SymRef) :
    Inside ref (uu :: ps.ustack) 1 0
      (ps.entered uu (function_unit ref STable_New CodeBlock_New)) := by
  refine .function rfl rfl ⟨rfl, rfl, ⟨STable_New, rfl, rfl⟩, fun b hb hret => ?_⟩
  cases hb
  cases hret

variable [Build]

/-- The function whose symbol is in the table of the module or the class is entered. -/
theorem enter_function_post (hu : ps.u = some uu) (htable : uu.stbl = some (.shared t))
    (hget : lookup ps.pkg ⟨t, id.name⟩ = some sym) :
    Post (fun ps₁ => ps₁ = ps.entered uu (function_unit ⟨t, id.name⟩ STable_New CodeBlock_New))
      (enter_function id ps) := by
  unfold enter_function Parser_Enter_Scope
  rw [hu]
  refine Post.bind fun uu' huu => Post.bind fun _ _ => Post.bind fun found hfound => ?_
  cases huu
  have hsame : ps.get uu id.name = .ok found := hfound
  cases (get_shared htable hget).symm.trans hsame
  rw [htable]
  exact Post.bind fun _ _ => Post.ok rfl

end enter

section parameters

theorem errors_between {es es₁ es' : List SyntaxError} (h : es <+: es₁) (h' : es₁ <+: es')
    (heq : es' = es) : es₁ = es ∧ es' = es₁ := by
  subst heq
  have hsame := h.eq_of_length (Nat.le_antisymm h.length_le h'.length_le)
  exact ⟨hsame.symm, hsame⟩

variable [Build] [Arith] {ref : SymRef} {outer : List ParserUnit} {idx : Nat} {ps : ParserState}

/-- A parameter gets the next index, unless an error is reported. -/
theorem parse_parameter (hin : Inside ref outer idx 0 ps) (id : Ident) (type : Option TypeDesc) :
    Post (fun ps' => ps'.errors = ps.errors →
      Inside ref outer (idx + 1) 0 ps' ∧ Moved ref [⟨id.name, type, idx⟩] ps ps')
      (parse_variable id type none false ps) := by
  cases hin with
  | @function _ u hu hstack hf =>
    obtain ⟨stbl, hstbl, rfl⟩ := hf.own
    refine Post.bind fun r hr => ?_
    simp only [update_add_variable, hu, deref, ok_bind, hf.scope] at hr
    rcases add_function_variable_post hstbl r hr with rfl | ⟨stbl', ref', func, hadd, hsym, _, _, rfl⟩
    · refine Post.ok fun herrors => ?_
      have hlength := congrArg List.length herrors
      simp [Syntax_Error] at hlength
    · refine Post.ok fun _ => ?_
      cases hsym.symm.trans hf.sym
      obtain ⟨_, rfl⟩ := STable.addVar_eq_some_iff.mp hadd
      exact ⟨.declare (.function rfl hstack ⟨hf.scope, hf.sym, ⟨_, rfl, rfl⟩, hf.returns⟩),
        .declared rfl rfl rfl rfl⟩

theorem parse_results_steps (rets : List IdType) {n : Nat} (hin : Within ref outer n ps) :
    Post (Steps ps) (parse_results rets ps) := by
  induction rets generalizing ps with
  | nil => exact Post.ok (.refl ps)
  | cons idtype rets ih =>
    rw [parse_results]
    cases idtype.id with
    | none => exact ih hin
    | some id =>
      refine Post.bind fun ps₁ hvar => ?_
      have hfirst := parse_variable_steps hin id idtype.type none false ps₁ hvar
      exact (ih (hin.steps hfirst)).mono fun _ h => hfirst.trans h

theorem parse_parameters_steps (args : List IdType) {n : Nat} (hin : Within ref outer n ps) :
    Post (Steps ps) (parse_parameters args ps) := by
  induction args generalizing ps with
  | nil => exact Post.ok (.refl ps)
  | cons idtype args ih =>
    rw [parse_parameters]
    refine Post.bind fun id _ => Post.bind fun ps₁ hvar => ?_
    have hfirst := parse_variable_steps hin id idtype.type none false ps₁ hvar
    exact (ih (hin.steps hfirst)).mono fun _ h => hfirst.trans h

/-- The parameters are listed in their order, unless an error is reported. -/
theorem parse_parameters_post (args : List IdType) (hin : Inside ref outer idx 0 ps) :
    Post (fun ps' => ps'.errors = ps.errors → ∃ vars, Inside ref outer (idx + vars.length) 0 ps' ∧
      Moved ref vars ps ps' ∧ vars.map LocVar.index = List.range' idx vars.length ∧
      vars.length = args.length ∧ ∀ (k : Nat) (a : IdType), args[k]? = some a →
        ∃ id, a.id = some id ∧ vars[k]? = some ⟨id.name, a.type, idx + k⟩)
      (parse_parameters args ps) := by
  induction args generalizing ps idx with
  | nil =>
    refine Post.ok fun _ => ⟨[], hin, .refl ps, rfl, rfl, fun k a hk => ?_⟩
    cases hk
  | cons idtype args ih =>
    rw [parse_parameters]
    refine Post.bind fun id hid => Post.bind fun ps₁ hvar => ?_
    rw [deref_eq_ok_iff] at hid
    have hfirst := parse_variable_steps ⟨idx, hin⟩ id idtype.type none false ps₁ hvar
    obtain ⟨_, hin₁, hmoved₁, _⟩ := hfirst.inside hin
    intro ps' hrest herrors
    have hlast := parse_parameters_steps args ⟨_, hin₁⟩ ps' hrest
    obtain ⟨_, _, hmoved', _⟩ := hlast.inside hin₁
    obtain ⟨herrors₁, herrors'⟩ := errors_between hmoved₁.errors hmoved'.errors herrors
    obtain ⟨hin₂, hmoved₂⟩ := parse_parameter hin id idtype.type ps₁ hvar herrors₁
    obtain ⟨vars, hin', hmoved, hindex, hlength, hvars⟩ := ih hin₂ ps' hrest herrors'
    refine ⟨⟨id.name, idtype.type, idx⟩ :: vars, ?_, hmoved₂.trans hmoved, ?_, ?_, ?_⟩
    · rw [List.length_cons, Nat.add_comm vars.length, ← Nat.add_assoc]
      exact hin'
    · rw [List.map_cons, hindex, List.length_cons, List.range'_succ]
    · rw [List.length_cons, List.length_cons, hlength]
    · intro k a hk
      cases k with
      | zero =>
        cases hk
        exact ⟨id, hid, rfl⟩
      | succ k =>
        obtain ⟨id', hid', hvar'⟩ := hvars k a hk
        refine ⟨id', hid', ?_⟩
        rw [List.getElem?_cons_succ, hvar', Nat.add_assoc, Nat.add_comm 1]

end parameters

section function

variable [Build]

/-- The code block that parsing a function leaves before it is saved. -/
def body_block [Arith] (id : Ident) (args rets : List IdType) (body : ParserState → Res ParserState)
    (ps : ParserState) : Res CodeBlock := do
  let ps ← enter_function id ps
  let ps ← parse_results rets ps
  let ps ← parse_parameters args ps
  let ps ← body ps
  let u ← deref ps.u
  deref u.block

/-- The symbol of a function got the variables `vars` and the code of the block
`b`, and the units are what they were. -/
structure FunctionParsed (ref : SymRef) (vars : List LocVar) (b : CodeBlock)
    (ps ps' : ParserState) : Prop where
  u : ps'.u = ps.u
  ustack : ps'.ustack = ps.ustack
  rest : ps'.rest = ps.rest
  depth : ps'.depth = ps.depth
  errors : ps.errors <+: ps'.errors
  kind : (viewOf ps.pkg ref).map View.kind = some .SYM_FUNC
  view : ∀ ref', viewOf ps'.pkg ref' = (viewOf ps.pkg ref').map
    (if ref' = ref then View.setCode (add_return b) ∘ View.addVars vars else id)
  index : vars.map LocVar.index = List.range' 1 vars.length
  returns : b.Returns

variable {ps : ParserState} {uu : ParserUnit} {t : TableRef} {id : Ident} {sym : Symbol}

theorem exit_function_parsed {ref : SymRef} {vars : List LocVar} {ps₁ ps' : ParserState}
    (hu : ps.u = some uu) (hin : Inside ref (uu :: ps.ustack) (1 + vars.length) 0 ps₁)
    (hmoved : Moved ref vars (ps.entered uu (function_unit ref STable_New CodeBlock_New)) ps₁)
    (hindex : vars.map LocVar.index = List.range' 1 vars.length)
    (hexit : Parser_Exit_Scope ps₁ = .ok ps') :
    ∃ u b, ps₁.u = some u ∧ u.block = some b ∧ FunctionParsed ref vars b ps ps' := by
  cases hin with
  | @function _ u hu₁ hstack hf =>
    obtain ⟨b, sym, hb, hget, hkind, rfl⟩ := exit_function_post hu₁ hf.scope hf.sym hexit
    refine ⟨u, b, hu₁, hb, ?_, ?_, ?_, ?_, ?_, ?_, fun ref' => ?_, hindex, hf.returns b hb⟩
    · change (ps₁.updateSym ref _).ustack.head? = ps.u
      rw [updateSym_ustack, hstack, hu]
      rfl
    · change (ps₁.updateSym ref _).ustack.tail = ps.ustack
      rw [updateSym_ustack, hstack]
      rfl
    · exact (updateSym_rest ..).trans hmoved.rest
    · change (ps₁.updateSym ref _).depth - 1 = ps.depth
      rw [updateSym_depth, hmoved.depth]
      rfl
    · change ps.errors <+: (ps₁.updateSym ref _).errors
      rw [updateSym_errors]
      exact hmoved.errors
    · have hsame := congrArg (Option.map View.kind) (hmoved.view ref)
      rw [if_pos rfl, Option.map_map, viewOf, getSym_iff.mp hget] at hsame
      exact hsame.symm.trans (congrArg some hkind)
    · change viewOf (ps₁.updateSym ref (Symbol.setCode (add_return b))).pkg ref' = _
      rw [viewOf_updateSym (setCode_writes (add_return b)), hmoved.view, Option.map_map]
      congr 1
      split <;> rfl

theorem exit_function_errors {ref : SymRef} {outer : List ParserUnit} {idx : Nat}
    {ps₁ ps' : ParserState} (hin : Inside ref outer idx 0 ps₁)
    (hexit : Parser_Exit_Scope ps₁ = .ok ps') : ps₁.errors = ps'.errors := by
  cases hin with
  | function hu hstack hf =>
    obtain ⟨b, sym, _, _, _, rfl⟩ := exit_function_post hu hf.scope hf.sym hexit
    exact (updateSym_errors ..).symm

variable [Arith]

theorem parse_results_unnamed {rets : List IdType} (hrets : ∀ a ∈ rets, a.id = none) :
    parse_results rets ps = .ok ps := by
  induction rets with
  | nil => rfl
  | cons a rets ih =>
    rw [parse_results, hrets a List.mem_cons_self]
    exact ih fun a ha => hrets a (List.mem_cons_of_mem _ ha)

/-- What is parsed between entering a function and leaving it. -/
theorem parse_function_body {ref : SymRef} {outer : List ParserUnit} {idx : Nat}
    {ps₁ ps₂ ps₃ ps₄ : ParserState} (hin₁ : Inside ref outer idx 0 ps₁)
    (args rets : List IdType) (stmts : List Stmt) (hrets : parse_results rets ps₁ = .ok ps₂)
    (hargs : parse_parameters args ps₂ = .ok ps₃)
    (hbody : parse_statements stmts ps₃ = .ok ps₄) :
    ∃ vars, Inside ref outer (idx + vars.length) 0 ps₄ ∧ Moved ref vars ps₁ ps₄ ∧
      vars.map LocVar.index = List.range' idx vars.length ∧
      (ps₄.errors = ps₁.errors → (∀ a ∈ rets, a.id = none) → ∀ (k : Nat) (a : IdType),
        args[k]? = some a → ∃ id, a.id = some id ∧ vars[k]? = some ⟨id.name, a.type, idx + k⟩) := by
  have hsteps₂ := parse_results_steps rets ⟨idx, hin₁⟩ ps₂ hrets
  obtain ⟨vars₂, hin₂, hmoved₂, hindex₂⟩ := hsteps₂.inside hin₁
  have hsteps₃ := parse_parameters_steps args ⟨_, hin₂⟩ ps₃ hargs
  have hsteps₄ : ∀ {idx₃}, Inside ref outer idx₃ 0 ps₃ → Steps ps₃ ps₄ := fun hin₃ =>
    parse_statements_steps stmts ⟨_, hin₃⟩ ps₄ hbody
  obtain ⟨vars₃, hin₃, hmoved₃, hindex₃⟩ := hsteps₃.inside hin₂
  by_cases hsame : ps₄.errors = ps₁.errors ∧ ∀ a ∈ rets, a.id = none
  · obtain ⟨herrors, hunnamed⟩ := hsame
    cases (parse_results_unnamed hunnamed).symm.trans hrets
    obtain ⟨_, _, hmoved₄, _⟩ := (hsteps₄ hin₃).inside hin₃
    obtain ⟨herrors₃, _⟩ := errors_between hmoved₃.errors hmoved₄.errors herrors
    obtain ⟨vars, hin₃, hmoved₃, hindex₃, hlength, hvars⟩ :=
      parse_parameters_post args hin₁ ps₃ hargs herrors₃
    obtain ⟨vars₄, hin₄, hmoved₄, hindex₄⟩ := (hsteps₄ hin₃).inside hin₃
    refine ⟨vars ++ vars₄, ?_, hmoved₃.trans hmoved₄, ?_, fun _ _ k a hk => ?_⟩
    · rw [List.length_append, ← Nat.add_assoc]
      exact hin₄
    · rw [List.map_append, hindex₃, hindex₄, List.length_append, ← List.range'_append_1]
    · obtain ⟨id, hid, hvar⟩ := hvars k a hk
      obtain ⟨hlt, _⟩ := List.getElem?_eq_some_iff.mp hvar
      exact ⟨id, hid, (List.getElem?_append_left hlt).trans hvar⟩
  · have hall := (hsteps₂.trans hsteps₃).trans (hsteps₄ hin₃)
    obtain ⟨vars, hin₄, hmoved₄, hindex₄⟩ := hall.inside hin₁
    exact ⟨vars, hin₄, hmoved₄, hindex₄, fun herrors hunnamed =>
      absurd ⟨herrors, hunnamed⟩ hsame⟩

/-- A function is parsed over the unit of a module or a class. -/
theorem parse_funcdecl_stmt_post (hu : ps.u = some uu) (htable : uu.stbl = some (.shared t))
    (hget : lookup ps.pkg ⟨t, id.name⟩ = some sym) (args rets : List IdType) (stmts : List Stmt) :
    Post (fun ps' => ∃ vars b, FunctionParsed ⟨t, id.name⟩ vars b ps ps' ∧
      body_block id args rets (parse_statements stmts) ps = .ok b ∧
      (ps'.errors = ps.errors → (∀ a ∈ rets, IdType.id a = none) → ∀ (k : Nat) (a : IdType), args[k]? = some a →
        ∃ id, a.id = some id ∧ vars[k]? = some ⟨id.name, a.type, k + 1⟩))
      (parse_funcdecl_stmt id args rets (parse_statements stmts) ps) := by
  refine Post.bind fun ps₁ henter => Post.bind fun ps₂ hrets => Post.bind fun ps₃ hargs => ?_
  refine Post.bind fun ps₄ hbody => fun ps' hexit => ?_
  obtain rfl := enter_function_post hu htable hget ps₁ henter
  have hin₁ := inside_entered ps uu ⟨t, id.name⟩
  obtain ⟨vars, hin, hmoved, hindex, hparams⟩ :=
    parse_function_body hin₁ args rets stmts hrets hargs hbody
  obtain ⟨u, b, hu₄, hb, hparsed⟩ := exit_function_parsed hu hin hmoved hindex hexit
  refine ⟨vars, b, hparsed, ?_, fun herrors hunnamed k a hk => ?_⟩
  · unfold body_block
    rw [henter, ok_bind, hrets, ok_bind, hargs, ok_bind, hbody, ok_bind, hu₄]
    exact deref_eq_ok_iff.mpr hb
  · have herrors₄ : ps₄.errors = ps'.errors := exit_function_errors hin hexit
    obtain ⟨id', hid, hvar⟩ := hparams (herrors₄.trans herrors) hunnamed k a hk
    rw [Nat.add_comm] at hvar
    exact ⟨id', hid, hvar⟩

end function

end koala.parser
