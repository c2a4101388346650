import Koala.Parser.Simulated

open koala.typedesc koala.eval koala.scoped

namespace koala.parser

set_option linter.style.nameCheck false

section function

variable {α : Type} [Objects α] [Build] [Arith] {ref : SymRef} {outer : List ParserUnit}
  {ps : ParserState} {env : Env CString α} {scope : Scope CString} {scopes : List (Scope CString)}

omit [Objects α] in
/-- The parameters are declared with the arguments as values. -/
theorem parse_parameters_scopes (args : List IdType) (vals : List α)
    (hscopes : InScopes ref outer 0 ps env) (hlength : vals.length = args.length) :
    Post (fun ps' => ps'.errors = ps.errors → (∀ a ∈ args, a.id.isSome = true) ∧
        InScopes ref outer 0 ps' (parameters args vals env) ∧ ps'.block = ps.block)
      (parse_parameters args ps) := by
  induction args generalizing ps env vals with
  | nil =>
    refine Post.ok fun _ => ⟨List.forall_mem_nil _, ?_, rfl⟩
    cases vals <;> exact hscopes
  | cons a args ih =>
    cases vals with
    | nil => cases hlength
    | cons v vals =>
      obtain ⟨id, type⟩ := a
      rw [parse_parameters]
      refine Post.bind fun id' hid => Post.bind fun ps₁ hvar => fun ps' hrest herrors => ?_
      obtain rfl : id = some id' := deref_eq_ok_iff.mp hid
      have hwithin : Within ref outer 0 ps := ⟨_, hscopes.inside⟩
      have hsteps := parse_variable_steps hwithin id' type none false ps₁ hvar
      have hwithin₁ := hwithin.steps hsteps
      obtain ⟨herrors₁, herrors'⟩ := errors_between (hwithin.errors hsteps)
        (hwithin₁.errors (parse_parameters_steps args hwithin₁ ps' hrest)) herrors
      obtain ⟨r, hadd, hvar⟩ := bind_eq_ok_iff.mp hvar
      obtain ⟨found, ps₂⟩ := r
      dsimp only at hvar
      rw [Bool.and_false, if_neg Bool.false_ne_true] at hvar
      cases hvar
      obtain ⟨sym, -, -, -, hscopes₁, hblock₁, -⟩ :=
        update_add_variable_declares hscopes (some v) _ hadd herrors₁
      obtain ⟨hids, hscopes', hblock'⟩ :=
        ih vals hscopes₁ (Nat.succ.inj hlength) ps' hrest herrors'
      exact ⟨List.forall_mem_cons.mpr ⟨rfl, hids⟩, hscopes', hblock'.trans hblock₁⟩

/-- What a function is called with, and the frame that it runs in. -/
structure Called (vals : List α) (vars : List LocVar) (cf : CallFrame α) : Prop where
  holds : Holds cf.locvars (vals.map some)
  size : cf.size = sizeofCallFrame + vars.length * sizeofObjectPtr
  int : cf.size < 2 ^ 64

/-- Code that does what a function means: it returns with an empty operand stack
and with the value of every variable in its slot. -/
def Preserves (pool : Pool α) (insts : List Inst) (vars : List LocVar) (args : List IdType)
    (body : List Stmt) : Prop :=
  pool.Has insts → ∀ vals env', vals.length = args.length →
    exec_all pool.lit body (parameters args vals Env.init.enter) = some env' →
    vars.length = env'.store.length ∧ ∀ cf, Called vals vars cf →
      ∃ cf', run_insts pool.consts pool.index insts (cf, []) = .ok (cf', []) ∧
        Holds cf'.locvars env'.store

omit [Objects α] [Build] [Arith] in
theorem inScopes_entered (ps : ParserState) (uu : ParserUnit) (ref : SymRef) :
    InScopes ref (uu :: ps.ustack) 0
      (ps.entered uu (function_unit ref STable_New CodeBlock_New)) (Env.init.enter : Env CString α) where
  inside := inside_entered ps uu ref
  scopes := ⟨_, [], [], rfl, rfl, ⟨STable_New, rfl, STable.shows_new⟩, .nil⟩
  placed := by
    intro scope hscope var hvar
    rw [List.mem_singleton.mp hscope] at hvar
    cases hvar

omit [Build] [Arith] in
theorem add_return_append (code : List Inst) :
    (add_return (CodeBlock_New.append code)).insts = code ++ [⟨.RETURN, none, 0⟩] := rfl

omit [Objects α] [Build] [Arith] in
/-- A function has one next index. -/
theorem Inside.index {idx idx' : Nat} (h : Inside ref outer idx 0 ps)
    (h' : Inside ref outer idx' 0 ps) : idx' = idx := by
  cases h with
  | function hu _ hf =>
    cases h' with
    | function hu' _ hf' =>
      cases hu.symm.trans hu'
      obtain ⟨stbl, hstbl, hindex⟩ := hf.own
      obtain ⟨stbl', hstbl', hindex'⟩ := hf'.own
      cases hstbl.symm.trans hstbl'
      exact hindex'.symm.trans hindex

/-- The code of a function whose statements use names of their own scope only. -/
theorem parse_function_preserves {uu : ParserUnit} {t : TableRef} {id : Ident} {sym : Symbol}
    {args rets : List IdType} {body : List Stmt} (hu : ps.u = some uu)
    (htable : uu.stbl = some (.shared t)) (hget : lookup ps.pkg ⟨t, id.name⟩ = some sym)
    (hfew : ps.errnum ≤ MAX_ERRORS) (hrets : ∀ a ∈ rets, IdType.id a = none)
    (hown : (own_all body (parameter_names args)).isSome = true) :
    Post (fun ps' => ps'.errors = ps.errors → ∃ vars b,
        FunctionParsed ⟨t, id.name⟩ vars b ps ps' ∧
        ∀ pool : Pool α, Preserves pool (add_return b).insts vars args body)
      (parse_funcdecl_stmt id args rets (parse_statements body) ps) := by
  refine Post.bind fun ps₁ henter => Post.bind fun ps₂ hresults => Post.bind fun ps₃ hargs => ?_
  refine Post.bind fun ps₄ hbody => fun ps' hexit herrors => ?_
  obtain rfl := enter_function_post hu htable hget ps₁ henter
  cases (parse_results_unnamed hrets).symm.trans hresults
  have hin₁ := inside_entered ps uu ⟨t, id.name⟩
  obtain ⟨vars, hin₄, hmoved, hindex, -⟩ :=
    parse_function_body hin₁ args rets body hresults hargs hbody
  obtain ⟨u, b, hu₄, hb, hparsed⟩ := exit_function_parsed hu hin₄ hmoved hindex hexit
  refine ⟨vars, b, hparsed, fun pool hpool vals env' hlength hexec => ?_⟩
  have herrors₄ : ps₄.errors = ps.errors := (exit_function_errors hin₄ hexit).trans herrors
  have hwithin₁ : Within ⟨t, id.name⟩ (uu :: ps.ustack) 0 _ := ⟨1, hin₁⟩
  have hsteps₃ := parse_parameters_steps args hwithin₁ ps₃ hargs
  have hwithin₃ := hwithin₁.steps hsteps₃
  obtain ⟨herrors₃, herrors₄⟩ := errors_between (hwithin₁.errors hsteps₃)
    (hwithin₃.errors (parse_statements_steps body hwithin₃ ps₄ hbody)) herrors₄
  have hscopes₁ : InScopes _ _ 0 _ (Env.init.enter : Env CString α) :=
    inScopes_entered ps uu ⟨t, id.name⟩
  obtain ⟨hids, hscopes₃, hblock₃⟩ :=
    parse_parameters_scopes args vals hscopes₁ hlength ps₃ hargs herrors₃
  have hentered : (Env.init.enter : Env CString α).scopes = [] :: [] := rfl
  obtain ⟨scope, henv, hnames, hstore⟩ := parameters_eq hentered hids hlength
  obtain ⟨names, hown⟩ := Option.isSome_iff_exists.mp hown
  rw [List.map_nil, List.nil_append] at hnames
  rw [← hnames] at hown
  have hfew₃ : ps₃.errnum ≤ MAX_ERRORS := by rw [ParserState.errnum, herrors₃]; exact hfew
  obtain ⟨code, hextends, hscopes₄, hcomputes⟩ :=
    parse_statements_simulated body hscopes₃ henv hblock₃ hfew₃ hown hexec ps₄ hbody herrors₄
  have hsize : vars.length = env'.store.length := by
    have hindices := hin₄.index hscopes₄.inside
    omega
  obtain ⟨b₃, hb₃, hblock₄⟩ := hextends.block
  cases hb₃.symm.trans hblock₃
  have hcode : b = CodeBlock_New.append code := by
    rw [ParserState.block, hu₄, Option.bind_some, hb] at hblock₄
    exact Option.some.inj hblock₄
  rw [hcode, add_return_append] at hpool ⊢
  refine ⟨hsize, fun cf hcalled => ?_⟩
  have hroom : env'.store.length < cf.size := by
    have hbytes := hcalled.size
    unfold sizeofCallFrame sizeofObjectPtr at hbytes
    omega
  obtain ⟨cf', hholds, -, hrun⟩ :=
    hcomputes hpool.left cf ⟨hstore ▸ hcalled.holds, hroom, hcalled.int⟩
  exact ⟨cf', (hrun _).trans (run_RETURN _), hholds⟩

end function

section package

variable {α : Type} [Objects α] [Build] [Arith] {modules : List Module}
  {parsed : List ParserState} {pkg : STable Symbol}

end package

section instances

/-- The body of `func f(a int) { b := a; { c := 7; c = 8 }; a = b }`. -/
def copies : List Stmt :=
  [.VAR name_b none (some (.ID name_a.name ⟨1, 1⟩)) false,
    .LIST true [.VAR name_c none (some (.CONST (.BASE_INT 7) ⟨2, 1⟩)) false,
      .ASSIGN .OP_ASSIGN (.ID name_c.name ⟨3, 1⟩) (.CONST (.BASE_INT 8) ⟨3, 3⟩)],
    .ASSIGN .OP_ASSIGN (.ID name_a.name ⟨4, 1⟩) (.ID name_b.name ⟨4, 3⟩)]

def copying : List Module :=
  [module_of [.Function (some (.FUNC name_f [⟨some name_a, some (.base .BASE_INT)⟩] [] copies))]]

theorem copying_grammatical : ∀ m ∈ copying, m.Grammatical := by
  intro m hm s hs
  obtain rfl := List.mem_singleton.mp hm
  obtain rfl := List.mem_singleton.mp hs
  exact ⟨List.forall_mem_nil _, trivial, ⟨trivial, trivial, trivial⟩, trivial, trivial⟩

/-- The constants 7 and 8. -/
def sevenEight : Pool eval.Value where
  consts := some (.Tuple [7, 8])
  index value := if value = .BASE_INT 7 then 0 else 1
  lit
    | .BASE_INT v => .Integer v.toInt
    | _ => .Integer 0

/-- A frame for one argument and two more variables. -/
def five : CallFrame eval.Value where
  code := oneParameter
  ob := none
  args := none
  index := -1
  size := sizeofCallFrame + 3 * sizeofObjectPtr
  locvars := Function.update (fun _ => none) 1 (some (.Integer 5))
  touched := []

end instances

end koala.parser
