import Koala.Parser.Accepted
import Koala.Parser.Noticed

open koala.typedesc

namespace koala.parser

set_option linter.style.nameCheck false

section reached

variable [Arith]

/-- The statements that parsing a list from a state comes to, with the states it
comes to them in. -/
inductive Reached : List Stmt → ParserState → Stmt → ParserState → Prop
  | here (stmt : Stmt) (stmts : List Stmt) (ps : ParserState) : Reached (stmt :: stmts) ps stmt ps
  | next {first stmt : Stmt} {stmts : List Stmt} {ps ps₁ ps' : ParserState}
    (hfirst : parse_statement first ps = .ok ps₁) (hrest : Reached stmts ps₁ stmt ps') :
    Reached (first :: stmts) ps stmt ps'
  | list {vec stmts : List Stmt} {stmt : Stmt} {ps ps' : ParserState}
    (hfew : ps.errnum ≤ MAX_ERRORS) (hvec : Reached vec ps stmt ps') :
    Reached (.LIST false vec :: stmts) ps stmt ps'
  | block {vec stmts : List Stmt} {stmt : Stmt} {ps ps₁ ps' : ParserState}
    (hfew : ps.errnum ≤ MAX_ERRORS) (henter : enter_block ps = .ok ps₁)
    (hvec : Reached vec ps₁ stmt ps') : Reached (.LIST true vec :: stmts) ps stmt ps'

/-- Every statement that is reached before there are too many errors meets its
condition. -/
def AllReachedMeet (stmts : List Stmt) (ps : ParserState) : Prop :=
  ∀ stmt ps', Reached stmts ps stmt ps' → ps'.errnum ≤ MAX_ERRORS → stmt.Meets ps'

/-- The statements are parsed, and every identifier that is not defined where it
is reached leads to an error: the one about it, unless too many errors are
reported or another one in a statement for many values. -/
def Diagnosed (stmts : List Stmt) (ps : ParserState) : Prop :=
  ∃ ps', parse_statements stmts ps = .ok ps' ∧ ∀ stmt ps₁, Reached stmts ps stmt ps₁ →
    ∀ id ∈ stmt.idents, resolve ps₁ id.name = none →
      Noticed id ps' ∨ stmt.IsMulti ∧ ps₁.errnum < ps'.errnum

end reached

section dispatch

theorem Stmt.kind_pos (stmt : Stmt) : 0 < stmt.kind := by
  cases stmt <;> exact Nat.succ_pos _

variable [Arith] {ps : ParserState} {stmt : Stmt}

theorem dispatch_finishes_iff {f : ParseStmtFunc} {body : ParserState → Res ParserState}
    (hentry : parse_stmt_funcs[stmt.kind]? = some (some f)) :
    Finishes (dispatch stmt body ps) ↔ (ps.errnum ≤ MAX_ERRORS → Finishes (f.run stmt body ps)) := by
  have hlt : stmt.kind < parse_stmt_funcs.length := (List.getElem?_eq_some_iff.mp hentry).1
  unfold dispatch
  by_cases hfew : ps.errnum ≤ MAX_ERRORS
  · rw [if_neg (Nat.not_lt.mpr hfew), forall_prop_of_true hfew, assert_of ⟨stmt.kind_pos, hlt⟩, ok_bind,
      hentry, deref_eq_ok_iff.mpr rfl, ok_bind, assert_of Option.isSome_some, ok_bind,
      deref_eq_ok_iff.mpr rfl, ok_bind]
  · rw [if_pos (Nat.lt_of_not_le hfew)]
    exact iff_of_true (.ok ps) fun h => absurd h hfew

end dispatch

section statements

variable [Arith] {ref : SymRef} {outer : List ParserUnit} {n : Nat} {ps ps' : ParserState}
  {stmt : Stmt}

/-- A statement that is no block is parsed exactly when it meets its condition. -/
theorem parse_statement_finishes_iff (hcovered : CoveredStmt stmt)
    (hlist : ∀ block vec, stmt ≠ .LIST block vec) (hin : InBody ref outer n ps) :
    Finishes (parse_statement stmt ps) ↔ (ps.errnum ≤ MAX_ERRORS → stmt.Meets ps) := by
  cases hcovered with
  | @VAR exp id type hexp =>
    refine (dispatch_finishes_iff rfl).trans (forall_congr' fun _ => ?_)
    cases exp with
    | none => exact iff_of_true (parse_uninitialised hin id type) trivial
    | some exp =>
      rw [Stmt.Meets]
      exact parse_variable_finishes_iff hin (hexp exp rfl)
  | VARLIST ids type hexp =>
    refine (dispatch_finishes_iff rfl).trans (forall_congr' fun _ => ?_)
    exact parse_varlistdecl_finishes_iff hexp hin
  | ASSIGN op hleft hright =>
    refine (dispatch_finishes_iff rfl).trans (forall_congr' fun _ => ?_)
    exact parse_assign_finishes_iff hleft hright hin
  | ASSIGNLIST hleft hright =>
    refine (dispatch_finishes_iff rfl).trans (forall_congr' fun _ => ?_)
    exact parse_assignlist_finishes_iff hleft hright hin
  | @EXPR exp hexp =>
    refine (dispatch_finishes_iff rfl).trans (forall_congr' fun _ => ?_)
    rw [Stmt.Meets, ← parser_visit_expr_finishes_iff hexp hin]
    exact ⟨fun h => (finishes_bind_iff.mp h).imp fun _ h => h.1, fun h => h.bind fun _ _ => .ok _⟩
  | RETURN pos hexps =>
    refine (dispatch_finishes_iff rfl).trans (forall_congr' fun _ => ?_)
    exact parse_return_finishes_iff hexps hin
  | LIST block hvec => exact absurd rfl (hlist block _)

theorem parse_statement_noticed (hcovered : CoveredStmt stmt) (hin : InBody ref outer n ps)
    (h : parse_statement stmt ps = .ok ps') :
    ∀ id ∈ stmt.idents, resolve ps id.name = none →
      Noticed id ps' ∨ stmt.IsMulti ∧ ps.errnum < ps'.errnum := by
  intro id hid hnone
  have hover : ∀ (f : ParseStmtFunc) {body : ParserState → Res ParserState} {stmt' : Stmt},
      parse_stmt_funcs[stmt'.kind]? = some (some f) → dispatch stmt' body ps = .ok ps' →
      (f.run stmt' body ps = .ok ps' → Noticed id ps' ∨ stmt.IsMulti ∧ ps.errnum < ps'.errnum) →
      Noticed id ps' ∨ stmt.IsMulti ∧ ps.errnum < ps'.errnum := by
    intro f body stmt' hentry hrun hnoticed
    by_cases hmany : ps.errnum > MAX_ERRORS
    · unfold dispatch at hrun
      rw [if_pos hmany] at hrun
      cases hrun
      exact .inl (.inr hmany)
    · exact hnoticed (dispatch_run hentry hmany hrun)
  cases hcovered with
  | @VAR exp vid type hexp =>
    cases exp with
    | none => cases hid
    | some exp =>
      exact hover .parse_vardecl_stmt rfl h fun hrun => .inl (parse_variable_noticed (hexp exp rfl) hin hrun id hid hnone)
  | VARLIST ids type hexp =>
    exact hover .parse_varlistdecl_stmt rfl h fun hrun =>
      (parse_varlistdecl_noticed hexp hin hrun id hid hnone).imp_right fun hlt => ⟨trivial, hlt⟩
  | ASSIGN op hleft hright =>
    exact hover .parse_assign_stmt rfl h fun hrun => .inl (parse_assign_noticed hleft hright hin hrun id hid hnone)
  | ASSIGNLIST hleft hright =>
    exact hover .parse_assignlist_stmt rfl h fun hrun =>
      (parse_assignlist_noticed hleft hright hin hrun id hid hnone).imp_right fun hlt => ⟨trivial, hlt⟩
  | EXPR hexp =>
    refine hover .parse_expr_stmt rfl h fun hrun => .inl ?_
    obtain ⟨r, hr, hrun⟩ := bind_eq_ok_iff.mp hrun
    cases hrun
    exact parser_visit_expr_noticed hexp hin hr id hid hnone
  | RETURN pos hexps =>
    exact hover .parse_return_stmt rfl h fun hrun => .inl (parse_return_noticed hexps hin hrun id hid hnone)
  | LIST block hvec => cases hid

end statements

section runs

variable [Arith] {ref : SymRef} {outer : List ParserUnit} {n : Nat} {ps ps' : ParserState}
  {stmts : List Stmt}

/-- The block of a statement is parsed over the unit that was entered. -/
theorem parse_list_finishes (hin : InBody ref outer n ps) {block : Bool} {vec : List Stmt}
    (hlist : block = false → Finishes (parse_statements vec ps))
    (hblock : block = true → ∀ ps₁, enter_block ps = .ok ps₁ → Finishes (parse_statements vec ps₁)) :
    Finishes (parse_list_stmt block (parse_statements vec) ps) := by
  cases block with
  | false => exact hlist rfl
  | true =>
    have henter : Finishes (enter_block ps) := .ok _
    refine henter.bind fun ps₁ henter => ?_
    refine (hblock rfl ps₁ henter).bind fun ps₂ hvec => ?_
    have hin₁ := hin.enter henter
    have hin₂ : InBody ref outer (n + 1) ps₂ :=
      (parse_statements_steps vec hin₁.within ps₂ hvec).inBody hin₁
    exact hin₂.exit_finishes

theorem Reached.weaken {stmt stmt' : Stmt} {stmts : List Stmt} (h : Reached [stmt'] ps stmt ps') :
    Reached (stmt' :: stmts) ps stmt ps' := by
  cases h with
  | here => exact .here stmt stmts ps
  | next hfirst hrest => cases hrest
  | list hfew hvec => exact .list hfew hvec
  | block hfew henter hvec => exact .block hfew henter hvec

theorem parse_statement_inBody {stmt : Stmt} (hin : InBody ref outer n ps)
    (h : parse_statement stmt ps = .ok ps') : InBody ref outer n ps' :=
  (parse_statement_steps stmt hin.within ps' h).inBody hin

theorem statements_finish_of_each
    (heach : ∀ s ∈ stmts, ∀ {n ps}, InBody ref outer n ps → AllReachedMeet [s] ps →
      Finishes (parse_statement s ps))
    (hin : InBody ref outer n ps) (hmeet : AllReachedMeet stmts ps) :
    Finishes (parse_statements stmts ps) := by
  induction stmts generalizing ps with
  | nil =>
    rw [parse_statements]
    exact .ok ps
  | cons s stmts ih =>
    rw [List.forall_mem_cons] at heach
    rw [parse_statements]
    have hfirst := heach.1 hin fun stmt ps' h => hmeet stmt ps' h.weaken
    refine hfirst.bind fun ps₁ hps₁ => ?_
    exact ih heach.2 (parse_statement_inBody hin hps₁) fun stmt ps' h => hmeet stmt ps' (.next hps₁ h)

theorem plain_statement_finishes {s : Stmt} (hcovered : CoveredStmt s)
    (hlist : ∀ block vec, s ≠ .LIST block vec) (hin : InBody ref outer n ps)
    (hmeet : AllReachedMeet [s] ps) : Finishes (parse_statement s ps) :=
  (parse_statement_finishes_iff hcovered hlist hin).mpr (hmeet s ps (.here s [] ps))

/-- A statement is parsed when all that is reached in it meets its condition. -/
theorem statement_finishes {s : Stmt} (hcovered : CoveredStmt s) (hin : InBody ref outer n ps)
    (hmeet : AllReachedMeet [s] ps) : Finishes (parse_statement s ps) := by
  induction hcovered generalizing n ps with
  | @LIST vec block hvec ih =>
    refine (dispatch_finishes_iff rfl).mpr fun hfew => ?_
    refine parse_list_finishes hin (fun hblock => ?_) fun hblock ps₁ henter => ?_
    · subst hblock
      refine statements_finish_of_each (fun s hs _ _ => ih s hs) hin fun stmt ps' h => ?_
      exact hmeet stmt ps' (.list hfew h)
    · subst hblock
      refine statements_finish_of_each (fun s hs _ _ => ih s hs) (hin.enter henter) fun stmt ps' h => ?_
      exact hmeet stmt ps' (.block hfew henter h)
  | VAR id type hexp =>
    exact plain_statement_finishes (.VAR id type hexp) (fun _ _ h => nomatch h) hin hmeet
  | VARLIST ids type hexp =>
    exact plain_statement_finishes (.VARLIST ids type hexp) (fun _ _ h => nomatch h) hin hmeet
  | ASSIGN op hleft hright =>
    exact plain_statement_finishes (.ASSIGN op hleft hright) (fun _ _ h => nomatch h) hin hmeet
  | ASSIGNLIST hleft hright =>
    exact plain_statement_finishes (.ASSIGNLIST hleft hright) (fun _ _ h => nomatch h) hin hmeet
  | EXPR hexp =>
    exact plain_statement_finishes (.EXPR hexp) (fun _ _ h => nomatch h) hin hmeet
  | RETURN pos hexps =>
    exact plain_statement_finishes (.RETURN pos hexps) (fun _ _ h => nomatch h) hin hmeet

/-- What is reached in a run that finishes was parsed. -/
theorem Reached.parsed {stmt : Stmt} {ps₁ : ParserState} (h : Reached stmts ps stmt ps₁)
    (hcovered : ∀ s ∈ stmts, CoveredStmt s) (hin : InBody ref outer n ps)
    (hparse : parse_statements stmts ps = .ok ps') :
    CoveredStmt stmt ∧ (∃ m, InBody ref outer m ps₁) ∧
      ∃ ps₂, parse_statement stmt ps₁ = .ok ps₂ ∧ ps₂.errors <+: ps'.errors := by
  have hsplit : ∀ {s : Stmt} {stmts : List Stmt} {ps ps' : ParserState} {n : Nat},
      InBody ref outer n ps → parse_statements (s :: stmts) ps = .ok ps' →
      ∃ ps₂, parse_statement s ps = .ok ps₂ ∧ parse_statements stmts ps₂ = .ok ps' ∧
        InBody ref outer n ps₂ ∧ ps₂.errors <+: ps'.errors := by
    intro s stmts ps ps' n hin h
    rw [parse_statements] at h
    obtain ⟨ps₂, hfirst, hrest⟩ := bind_eq_ok_iff.mp h
    have hin₂ := parse_statement_inBody hin hfirst
    exact ⟨ps₂, hfirst, hrest, hin₂,
      hin₂.within.errors (parse_statements_steps stmts hin₂.within ps' hrest)⟩
  have hlist : ∀ {block : Bool} {vec : List Stmt} {ps ps' : ParserState}, ps.errnum ≤ MAX_ERRORS →
      parse_statement (.LIST block vec) ps = .ok ps' →
      parse_list_stmt block (parse_statements vec) ps = .ok ps' := by
    intro block vec ps ps' hfew h
    have hentry : parse_stmt_funcs[(Stmt.LIST block vec).kind]? = some (some .parse_list_stmt) := rfl
    exact dispatch_run hentry (Nat.not_lt.mpr hfew) h
  induction h generalizing n ps' with
  | here stmt stmts ps =>
    obtain ⟨ps₂, hfirst, -, -, herrors⟩ := hsplit hin hparse
    exact ⟨hcovered stmt List.mem_cons_self, ⟨n, hin⟩, ps₂, hfirst, herrors⟩
  | next hfirst hrest ih =>
    obtain ⟨ps₂, hfirst', hparse, hin₂, -⟩ := hsplit hin hparse
    cases hfirst.symm.trans hfirst'
    exact ih (fun s hs => hcovered s (List.mem_cons_of_mem _ hs)) hin₂ hparse
  | list hfew hvec ih =>
    obtain ⟨ps₂, hfirst, -, -, herrors⟩ := hsplit hin hparse
    have hinner := hlist hfew hfirst
    cases hcovered _ List.mem_cons_self with
    | LIST _ hvec =>
      obtain ⟨hstmt, hbody, ps₃, hps₃, herrors₃⟩ := ih hvec hin hinner
      exact ⟨hstmt, hbody, ps₃, hps₃, herrors₃.trans herrors⟩
  | block hfew henter hvec ih =>
    obtain ⟨ps₂, hfirst, -, -, herrors⟩ := hsplit hin hparse
    obtain ⟨ps₁, henter', hinner⟩ := bind_eq_ok_iff.mp (hlist hfew hfirst)
    cases henter.symm.trans henter'
    obtain ⟨ps₄, hbody₄, hexit⟩ := bind_eq_ok_iff.mp hinner
    have hin₁ := hin.enter henter
    cases hcovered _ List.mem_cons_self with
    | LIST _ hvec =>
      obtain ⟨hstmt, hbody, ps₃, hps₃, herrors₃⟩ := ih hvec hin₁ hbody₄
      have hin₄ := (parse_statements_steps _ hin₁.within ps₄ hbody₄).inBody hin₁
      obtain ⟨idx, hinside⟩ := hin₄.within
      obtain ⟨-, -, -, -, hsame⟩ := hinside.exit hexit
      exact ⟨hstmt, hbody, ps₃, hps₃, (herrors₃.trans (errors_of_eq hsame)).trans herrors⟩

/-- The statements of a function are diagnosed exactly when all that is reached
meets its condition. -/
theorem diagnosed_iff_reached (hcovered : ∀ s ∈ stmts, CoveredStmt s)
    (hin : InBody ref outer n ps) : Diagnosed stmts ps ↔ AllReachedMeet stmts ps := by
  constructor
  · rintro ⟨ps', hparse, -⟩ stmt ps₁ hreached hfew
    obtain ⟨hstmt, ⟨m, hin₁⟩, ps₂, hps₂, -⟩ := hreached.parsed hcovered hin hparse
    by_cases hlist : ∃ block vec, stmt = .LIST block vec
    · obtain ⟨block, vec, rfl⟩ := hlist
      exact trivial
    · have hnot : ∀ block vec, stmt ≠ .LIST block vec := fun block vec h => hlist ⟨block, vec, h⟩
      exact (parse_statement_finishes_iff hstmt hnot hin₁).mp ⟨ps₂, hps₂⟩ hfew
  · intro hmeet
    have heach : ∀ s ∈ stmts, ∀ {n ps}, InBody ref outer n ps → AllReachedMeet [s] ps →
        Finishes (parse_statement s ps) := fun s hs _ _ => statement_finishes (hcovered s hs)
    obtain ⟨ps', hparse⟩ := statements_finish_of_each heach hin hmeet
    refine ⟨ps', hparse, fun stmt ps₁ hreached id hid hnone => ?_⟩
    obtain ⟨hstmt, ⟨m, hin₁⟩, ps₂, hps₂, herrors⟩ := hreached.parsed hcovered hin hparse
    rcases parse_statement_noticed hstmt hin₁ hps₂ id hid hnone with h | ⟨hmulti, hlt⟩
    · exact .inl (h.mono herrors)
    · exact .inr ⟨hmulti, Nat.lt_of_lt_of_le hlt herrors.length_le⟩

/-- Errors that are reported stay reported. -/
theorem Reached.errors {stmt : Stmt} (h : Reached stmts ps stmt ps') (hin : InBody ref outer n ps) :
    ps.errors <+: ps'.errors := by
  induction h generalizing n with
  | here => exact List.prefix_rfl
  | @next first _ _ ps _ _ hfirst hrest ih =>
    have hsteps := parse_statement_steps first hin.within _ hfirst
    exact (hin.within.errors hsteps).trans (ih (parse_statement_inBody hin hfirst))
  | list hfew hvec ih => exact ih hin
  | block hfew henter hvec ih =>
    obtain ⟨idx, hinside⟩ := hin.within
    obtain ⟨-, -, -, -, hsame⟩ := hinside.enter henter
    exact (errors_of_eq hsame).trans (ih (hin.enter henter))

end runs

section functions

/-- A function can be left. -/
theorem InBody.exit_function_finishes {ref : SymRef} {outer : List ParserUnit}
    {ps : ParserState} (hin : InBody ref outer 0 ps) : ∃ ps', Parser_Exit_Scope ps = .ok ps' ∧ ps'.errors = ps.errors := by
  obtain ⟨sym, arg, ret, hget, hkind, -⟩ := hin.declared
  obtain ⟨idx, hinside⟩ := hin.within
  have hexit : Finishes (Parser_Exit_Scope ps) := by
    cases hinside with
    | @function _ f hu hstack hf =>
      have hopen := hin.units.unit hu
      obtain ⟨stbl, hstbl, -⟩ := hf.own
      obtain ⟨b, hb⟩ := Option.isSome_iff_exists.mp hopen.block
      have hunit : f = function_unit ref stbl b := by
        have hscope := hf.scope
        have hsym := hf.sym
        have hjmps := hopen.jmps
        cases f
        cases hscope
        cases hsym
        cases hstbl
        cases hb
        cases hjmps
        rfl
      rw [hunit] at hu
      exact ⟨_, exit_function hu hget hkind⟩
  obtain ⟨ps', hexit⟩ := hexit
  exact ⟨ps', hexit, (exit_function_errors hinside hexit).symm⟩

variable [Arith] {t : TableRef} {id : Ident} {args rets : List IdType} {body : List Stmt}
  {ps ps' : ParserState}

/-- The state in which the body of a function is parsed. -/
def enter_body (id : Ident) (args rets : List IdType) (ps : ParserState) : Res ParserState := do
  let ps ← enter_function id ps
  let ps ← parse_results rets ps
  parse_parameters args ps

/-- A module or a class of the table `t` whose function `id` is declared. The
parameters have names. -/
structure Begins (t : TableRef) (id : Ident) (args : List IdType) (ps : ParserState) : Prop where
  scope : OverScope t ps
  units : AllOpen ps
  declared : Declared ps ⟨t, id.name⟩
  named : ∀ a ∈ args, a.id.isSome = true

/-- A function is parsed, and every identifier of its body that is not defined
where it is reached leads to an error. -/
def FunctionDiagnosed (id : Ident) (args rets : List IdType) (body : List Stmt)
    (ps : ParserState) : Prop :=
  ∃ ps', parse_statement (.FUNC id args rets body) ps = .ok ps' ∧
    ∀ ps₁ stmt ps₂, enter_body id args rets ps = .ok ps₁ → Reached body ps₁ stmt ps₂ →
      ∀ ident ∈ stmt.idents, resolve ps₂ ident.name = none →
        Noticed ident ps' ∨ stmt.IsMulti ∧ ps₂.errnum < ps'.errnum

theorem InBody.results {ref : SymRef} {outer : List ParserUnit} (hin : InBody ref outer 0 ps)
    (rets : List IdType) : Finishes (parse_results rets ps) := by
  induction rets generalizing ps with
  | nil => exact .ok ps
  | cons idtype rets ih =>
    rw [parse_results]
    cases idtype.id with
    | none => exact ih hin
    | some id =>
      refine (parse_uninitialised hin id idtype.type).bind fun ps₁ hps₁ => ih ?_
      exact (parse_variable_steps hin.within id idtype.type none false ps₁ hps₁).inBody hin

theorem InBody.parameters {ref : SymRef} {outer : List ParserUnit} (hin : InBody ref outer 0 ps)
    {args : List IdType} (hnamed : ∀ a ∈ args, a.id.isSome = true) :
    Finishes (parse_parameters args ps) := by
  induction args generalizing ps with
  | nil => exact .ok ps
  | cons idtype args ih =>
    rw [List.forall_mem_cons] at hnamed
    obtain ⟨id, hid⟩ := Option.isSome_iff_exists.mp hnamed.1
    rw [parse_parameters, hid, deref_eq_ok_iff.mpr rfl, ok_bind]
    refine (parse_uninitialised hin id idtype.type).bind fun ps₁ hps₁ => ih ?_ hnamed.2
    exact (parse_variable_steps hin.within id idtype.type none false ps₁ hps₁).inBody hin

/-- The function is entered, with its results and its parameters. -/
theorem Begins.enter (h : Begins t id args ps) (rets : List IdType) :
    ∃ uu ps₁, ps.u = some uu ∧ enter_body id args rets ps = .ok ps₁ ∧
      InBody ⟨t, id.name⟩ (uu :: ps.ustack) 0 ps₁ ∧ ps.errors <+: ps₁.errors := by
  obtain ⟨uu, hu, hscope⟩ := h.scope
  obtain ⟨sym, arg, ret, hget, -, -⟩ := h.declared
  have hlookup := getSym_iff.mp hget
  let ps₀ := ps.entered uu (function_unit ⟨t, id.name⟩ STable_New CodeBlock_New)
  have hfinishes : Finishes (enter_function id ps) := by
    unfold enter_function Parser_Enter_Scope
    rw [hu]
    refine finishes_deref_iff.mpr ⟨uu, rfl, finishes_assert_iff.mpr ⟨hscope.scope, ?_⟩⟩
    refine finishes_bind_iff.mpr ⟨some sym, get_shared hscope.table hlookup, ?_⟩
    refine finishes_assert_iff.mpr ⟨rfl, ?_⟩
    rw [hscope.table]
    exact .ok _
  obtain ⟨ps', henter⟩ := hfinishes
  obtain rfl : ps' = ps₀ := enter_function_post hu hscope.table hlookup ps' henter
  have hkeeps : Keeps ps ps₀ := .of_pkg rfl
  have hin₀ : InBody ⟨t, id.name⟩ (uu :: ps.ustack) 0 ps₀ := by
    refine ⟨⟨1, inside_entered ps uu ⟨t, id.name⟩⟩, ?_, hkeeps.declared _ h.declared⟩
    intro v hv
    rcases List.mem_cons.mp hv with rfl | hv
    · exact ⟨fun t ht => (nomatch ht), rfl, rfl, fun h => nomatch h⟩
    · refine (h.units v ?_).keep (.refl v) hkeeps
      rw [hu]
      exact hv
  obtain ⟨ps₁, hrets⟩ := hin₀.results rets
  have hsteps₁ := parse_results_steps rets hin₀.within ps₁ hrets
  have hin₁ := hsteps₁.inBody hin₀
  obtain ⟨ps₂, hargs⟩ := hin₁.parameters h.named
  have hsteps₂ := parse_parameters_steps args hin₁.within ps₂ hargs
  refine ⟨uu, ps₂, hu, ?_, hsteps₂.inBody hin₁, ?_⟩
  · unfold enter_body
    rw [henter, ok_bind, hrets, ok_bind, hargs]
  · exact (hin₀.within.errors hsteps₁).trans (hin₁.within.errors hsteps₂)

end functions

section examples

/-- A module that declares a function with an integer parameter. -/
def parser_of_function : ParserState where
  filename := name_f.name
  imports := ⟨STable_New, [], []⟩
  pkg := ⟨[Symbol_New name_f.name (some (.proto [.base .BASE_INT] [])) (.SYM_FUNC [] none)], 1⟩
  extstbl := STable_New
  extdots := []
  symbols := [name_f]
  stmts := []
  u := some (module_unit CodeBlock_New)
  ustack := []
  depth := 1
  errors := []

def parameter_a : IdType := ⟨some name_a, some (.base .BASE_INT)⟩

theorem parser_of_function_begins : Begins .pkg name_f [parameter_a] parser_of_function where
  scope := ⟨_, rfl, .inl rfl, rfl⟩
  units := by
    intro u hu
    obtain rfl := List.mem_singleton.mp hu
    exact ⟨fun t ht => by cases ht; rfl, rfl, rfl, fun h => nomatch h⟩
  declared := ⟨_, _, _, rfl, rfl, rfl⟩
  named := List.forall_mem_singleton.mpr rfl

theorem covered_name (id : Ident) : ∀ s ∈ [Stmt.EXPR (.ID id.name id.pos)], CoveredStmt s :=
  List.forall_mem_singleton.mpr (.EXPR (.ID _ _))

end examples

end koala.parser
