import Koala.Parser.Building

open koala.typedesc

namespace koala.parser

set_option linter.style.nameCheck false

/-- The state in which the statements of a built module are parsed. -/
def parse_start (ps : ParserState) : ParserState :=
  { CheckConflictWithExternal (Parse_Imports ps) with
    stmts := []
    u := some (module_unit CodeBlock_New)
    depth := ps.depth + 1 }

/-- The functions that the statements of built modules declare. -/
def functions_of (built : List ParserState) : List SymRef :=
  built.flatMap fun ps => ps.stmts.flatMap Stmt.functions

section module

variable [Build] [Arith] {ps : ParserState}

theorem Parse_AST_eq (hu : ps.u = none) :
    Parse_AST ps = parse_statements ps.stmts (parse_start ps) >>= Parser_Exit_Scope := by
  cases ps
  cases hu
  rfl

/-- The instructions that the statements of a module append at module scope. -/
def scope_code (ps : ParserState) : Res (List Inst) := do
  let ps ← parse_statements ps.stmts (parse_start ps)
  let u ← deref ps.u
  let b ← deref u.block
  .ok b.insts

/-- A module was analysed: at module scope its statements gave the code `insts`,
and then the scope was left. -/
structure ModuleParsed (insts : List Inst) (ps ps' : ParserState) : Prop where
  run : ∃ ps₂, parse_statements ps.stmts (parse_start ps) = .ok ps₂ ∧
    ScopeStep (ps.stmts.flatMap Stmt.functions) insts (parse_start ps) ps₂ ∧ ps' = restore_unit ps₂
  code : scope_code ps = .ok insts
  none : (∀ s ∈ ps.stmts, ¬ s.Initialised) → insts = []
  some : ps'.errors = [] → insts = [] → ∀ s ∈ ps.stmts, ¬ s.Initialised

theorem Parse_AST_post (hu : ps.u = none) (htop : ∀ s ∈ ps.stmts, s.IsTopLevel)
    (hknown : Known (ps.stmts.flatMap Stmt.functions) ps)
    (hinit : (viewOf ps.pkg init_ref).isSome = true) :
    Post (fun ps' => ∃ insts, ModuleParsed insts ps ps') (Parse_AST ps) := by
  rw [Parse_AST_eq hu]
  refine Post.bind fun ps₂ hrun => fun ps' hexit => ?_
  have hover : OverScope .pkg (parse_start ps) := ⟨_, rfl, .inl rfl, rfl⟩
  obtain ⟨insts, hstep, hnone, hsome⟩ := parse_toplevels ps.stmts htop hover hknown ps₂ hrun
  have hu₂ : ps₂.u = some (module_unit (CodeBlock_New.append insts)) := hstep.u
  have hkind := congrArg Option.isSome (hstep.kind init_ref)
  rw [Option.isSome_map, Option.isSome_map] at hkind
  have hinit₂ := hkind.trans hinit
  rw [viewOf, Option.isSome_map] at hinit₂
  obtain ⟨sym, hget⟩ := Option.isSome_iff_exists.mp hinit₂
  cases (exit_module hu₂ hget).symm.trans hexit
  refine ⟨insts, ⟨ps₂, hrun, hstep, rfl⟩, ?_, hnone, hsome⟩
  unfold scope_code
  rw [hrun, ok_bind, hu₂]
  rfl

theorem ModuleParsed.kind {insts : List Inst} {ps' : ParserState} (h : ModuleParsed insts ps ps')
    (ref : SymRef) : (viewOf ps'.pkg ref).map View.kind = (viewOf ps.pkg ref).map View.kind := by
  obtain ⟨ps₂, _, hstep, rfl⟩ := h.run
  exact hstep.kind ref

theorem ModuleParsed.view {insts : List Inst} {ps' : ParserState} (h : ModuleParsed insts ps ps')
    {ref : SymRef} (href : ref ∉ ps.stmts.flatMap Stmt.functions) :
    viewOf ps'.pkg ref = viewOf ps.pkg ref := by
  obtain ⟨ps₂, _, hstep, rfl⟩ := h.run
  exact hstep.view ref href

theorem ModuleParsed.errors {insts : List Inst} {ps' : ParserState}
    (h : ModuleParsed insts ps ps') : ps.errors <+: ps'.errors := by
  obtain ⟨ps₂, _, hstep, rfl⟩ := h.run
  have hstart : ps.errors <+: (parse_start ps).errors :=
    (List.prefix_append _ _).trans (List.prefix_append _ _)
  exact hstart.trans hstep.errors

end module

section package

variable [Build] [Arith]

/-- The instructions that the top-level declarations of the modules append at
module scope, module by module. -/
def package_code : List ParserState → STable Symbol → Res (List Inst)
  | [], _ => .ok []
  | ps :: modules, pkg => do
    let insts ← scope_code { ps with pkg }
    let ps ← Parse_AST { ps with pkg }
    let rest ← package_code modules ps.pkg
    .ok (insts ++ rest)

/-- The symbols that analysing modules relies on are there. -/
structure Prepared (built : List ParserState) (pkg : STable Symbol) : Prop where
  ready : ∀ ps ∈ built, Ready ps
  toplevel : ∀ ps ∈ built, ∀ s ∈ ps.stmts, s.IsTopLevel
  known : ∀ ref ∈ functions_of built, (viewOf pkg ref).isSome = true
  init : (viewOf pkg init_ref).isSome = true

/-- What analysing the modules of a package does. -/
structure PackageParsed (built : List ParserState) (pkg : STable Symbol)
    (parsed : List ParserState) (insts : List Inst) (pkg' : STable Symbol) : Prop where
  code : package_code built pkg = .ok insts
  returns : ∀ i ∈ insts, i.op ≠ .RETURN
  kind : ∀ ref, (viewOf pkg' ref).map View.kind = (viewOf pkg ref).map View.kind
  view : ∀ ref, ref ∉ functions_of built → viewOf pkg' ref = viewOf pkg ref
  none : (∀ ps ∈ built, ∀ s ∈ ps.stmts, ¬ s.Initialised) → insts = []
  some : (∀ ps ∈ parsed, ps.errors = []) → insts = [] →
    ∀ ps ∈ built, ∀ s ∈ ps.stmts, ¬ s.Initialised
  errors : (∀ ps ∈ parsed, ps.errors = []) → ∀ ps ∈ built, ps.errors = []

theorem Prepared.module {ps : ParserState} {built : List ParserState} {pkg : STable Symbol}
    (h : Prepared (ps :: built) pkg) :
    Post (fun ps' => (∃ insts, ModuleParsed insts { ps with pkg } ps') ∧ Prepared built ps'.pkg)
      (Parse_AST { ps with pkg }) := by
  intro ps' hparse
  have hready := List.forall_mem_cons.mp h.ready
  have htop := List.forall_mem_cons.mp h.toplevel
  have hknown := List.forall_mem_append.mp h.known
  have hpost : Post (fun ps' => ∃ insts, ModuleParsed insts { ps with pkg } ps')
      (Parse_AST { ps with pkg }) := Parse_AST_post hready.1.u htop.1 hknown.1 h.init
  obtain ⟨insts, hparsed⟩ := hpost ps' hparse
  have hsome : ∀ ref, (viewOf ps'.pkg ref).isSome = (viewOf pkg ref).isSome := by
    intro ref
    have hkind := congrArg Option.isSome (hparsed.kind ref)
    rw [Option.isSome_map, Option.isSome_map] at hkind
    exact hkind
  refine ⟨⟨insts, hparsed⟩, hready.2, htop.2, fun ref href => ?_, ?_⟩
  · exact (hsome ref).trans (hknown.2 ref href)
  · exact (hsome init_ref).trans h.init

theorem parse_package_post (built : List ParserState) (pkg : STable Symbol)
    (hprepared : Prepared built pkg) :
    Post (fun r => ∃ insts, PackageParsed built pkg r.1 insts r.2) (parse_package built pkg) := by
  induction built generalizing pkg with
  | nil =>
    refine Post.ok ⟨[], rfl, List.forall_mem_nil _, fun _ => rfl, fun _ _ => rfl, fun _ => rfl,
      fun _ _ => List.forall_mem_nil _, fun _ => List.forall_mem_nil _⟩
  | cons ps built ih =>
    refine Post.bind fun ps' hparse => Post.bind fun r hrest => Post.ok ?_
    obtain ⟨⟨insts, hmodule⟩, hprepared'⟩ := hprepared.module ps' hparse
    obtain ⟨insts', hpackage⟩ := ih ps'.pkg hprepared' r hrest
    refine ⟨insts ++ insts', ?_, ?_, fun ref => ?_, fun ref href => ?_, fun hall => ?_,
      fun herrors hnil => ?_, fun herrors => ?_⟩
    · rw [package_code, hmodule.code, ok_bind, hparse, ok_bind, hpackage.code]
      rfl
    · obtain ⟨ps₂, _, hstep, _⟩ := hmodule.run
      exact List.forall_mem_append.mpr ⟨hstep.code, hpackage.returns⟩
    · exact (hpackage.kind ref).trans (hmodule.kind ref)
    · obtain ⟨href, href'⟩ := not_or.mp (mt List.mem_append.mpr href)
      exact (hpackage.view ref href').trans (hmodule.view href)
    · obtain ⟨hfirst, hrest⟩ := List.forall_mem_cons.mp hall
      rw [hmodule.none hfirst, hpackage.none hrest]
      rfl
    · obtain ⟨hinsts, hinsts'⟩ := List.append_eq_nil_iff.mp hnil
      obtain ⟨hfirst, hrest⟩ := List.forall_mem_cons.mp herrors
      exact List.forall_mem_cons.mpr ⟨hmodule.some hfirst hinsts, hpackage.some hrest hinsts'⟩
    · obtain ⟨hfirst, hrest⟩ := List.forall_mem_cons.mp herrors
      have herrs := hmodule.errors
      rw [hfirst, List.prefix_nil] at herrs
      exact List.forall_mem_cons.mpr ⟨herrs, hpackage.errors hrest⟩

end package

section arrives

variable [Build] [Arith]

/-- The state in which the analysis of a package arrives at a statement of a
module, or at a member of a class or a trait that is parsed. -/
inductive Arrives (built : List ParserState) (pkg : STable Symbol) :
    TableRef → Stmt → ParserState → Prop
  | toplevel {before after parsed : List ParserState} {m ps : ParserState} {pkg₁ : STable Symbol}
      {pre post : List Stmt} {stmt : Stmt} (hbuilt : built = before ++ m :: after)
      (hbefore : parse_package before pkg = .ok (parsed, pkg₁)) (hstmts : m.stmts = pre ++ stmt :: post)
      (hpre : parse_statements pre (parse_start { m with pkg := pkg₁ }) = .ok ps) :
      Arrives built pkg .pkg stmt ps
  | member {id : Ident} {super : List TypeDesc} {body pre post : List Stmt} {stmt klass : Stmt}
      {ps ps₁ ps₂ : ParserState} (hklass : klass = .CLASS id super body ∨ klass = .TRAIT id super body)
      (hentry : parse_stmt_funcs[klass.kind]? = some (some .parse_class_stmt))
      (harrives : Arrives built pkg .pkg klass ps) (henter : enter_class id ps = .ok ps₁)
      (hbody : body = pre ++ stmt :: post) (hpre : parse_statements pre ps₁ = .ok ps₂) :
      Arrives built pkg (.klass id.name) stmt ps₂

/-- What parsing a function in a state gives: its block, and the variables that
are listed. -/
structure FunctionResult (id : Ident) (args rets : List IdType) (body : List Stmt)
    (ps : ParserState) (vars : List LocVar) (b : CodeBlock) : Prop where
  block : body_block id args rets (parse_statements body) ps = .ok b
  returns : b.Returns
  index : vars.map LocVar.index = List.range' 1 vars.length

/-- The parameters are the first variables that are listed. -/
def ListsParameters (args : List IdType) (vars : List LocVar) : Prop :=
  ∀ (k : Nat) (a : IdType), args[k]? = some a →
    ∃ id, a.id = some id ∧ vars[k]? = some ⟨id.name, a.type, k + 1⟩

/-- A statement is parsed in a run from `pkg` to `pkg'`; what it declares is
left alone by the others, if it is declared once. -/
structure Passes (t : TableRef) (refs all : List SymRef) (stmt : Stmt) (pkg pkg' : STable Symbol)
    (ps ps' : ParserState) : Prop where
  parse : parse_statement stmt ps = .ok ps'
  scope : OverScope t ps
  known : Known refs ps
  errors : ps.errors <+: ps'.errors
  once : ∀ ref ∈ refs, all.count ref = 1 → refs.count ref = 1
  before : ∀ ref ∈ refs, all.count ref = 1 → viewOf ps.pkg ref = viewOf pkg ref
  after : ∀ ref ∈ refs, all.count ref = 1 → viewOf pkg' ref = viewOf ps'.pkg ref

end arrives

section scope

variable {ps ps' : ParserState} {t : TableRef}

theorem no_errors_before {ps₁ : ParserState} (h : ps₁.errors <+: ps'.errors)
    (herrors : ps'.errors = []) : ps₁.errors = [] := by
  rw [herrors, List.prefix_nil] at h
  exact h

theorem few_before {ps₁ : ParserState} (h : ps₁.errors <+: ps'.errors)
    (hfew : ¬ ps'.errnum > MAX_ERRORS) : ¬ ps₁.errnum > MAX_ERRORS := fun hmany =>
  hfew (Nat.lt_of_lt_of_le hmany h.length_le)

theorem few_of_none (herrors : ps.errors = []) : ¬ ps.errnum > MAX_ERRORS := by
  unfold ParserState.errnum
  rw [herrors]
  exact Nat.not_lt_zero _

/-- What is there once is in one place. -/
theorem once_between {α : Type} [DecidableEq α] {pre mid post : List α} {a : α}
    (hcount : (pre ++ (mid ++ post)).count a = 1) (hmem : a ∈ mid) :
    a ∉ pre ∧ mid.count a = 1 ∧ a ∉ post := by
  rw [List.count_append, List.count_append] at hcount
  have hpos := List.count_pos_iff.mpr hmem
  refine ⟨fun hpre => ?_, by omega, fun hpost => ?_⟩
  · have := List.count_pos_iff.mpr hpre
    omega
  · have := List.count_pos_iff.mpr hpost
    omega

variable [Build] [Arith]

/-- A statement in a list is parsed over what the statements before it leave. -/
theorem passes_in_scope {f : Stmt → List SymRef} {pre post : List Stmt} {stmt : Stmt}
    {ps₁ : ParserState}
    (hsteps : ∀ stmts ps, OverScope t ps → Known (stmts.flatMap f) ps →
      (∀ s ∈ stmts, s ∈ pre ++ stmt :: post) →
      Post (fun ps' => ∃ insts, ScopeStep (stmts.flatMap f) insts ps ps') (parse_statements stmts ps))
    (hover : OverScope t ps) (hknown : Known ((pre ++ stmt :: post).flatMap f) ps)
    (hpre : parse_statements pre ps = .ok ps₁)
    (hparse : parse_statements (pre ++ stmt :: post) ps = .ok ps') :
    ∃ ps₂, Passes t (f stmt) ((pre ++ stmt :: post).flatMap f) stmt ps.pkg ps'.pkg ps₁ ps₂ ∧
      ps.errors <+: ps₁.errors ∧ ps₂.errors <+: ps'.errors := by
  rw [parse_statements_append, hpre, ok_bind, parse_statements] at hparse
  obtain ⟨ps₂, hstmt, hpost⟩ := bind_eq_ok_iff.mp hparse
  rw [List.flatMap_append, List.flatMap_cons, known_append, known_append] at hknown
  obtain ⟨_, hstep₁⟩ := hsteps pre ps hover hknown.1 (fun s hs => List.mem_append_left _ hs) ps₁ hpre
  have hover₁ := hover.step hstep₁
  have hknown₁ := hknown.2.1.step hstep₁
  have hone : parse_statements [stmt] ps₁ = .ok ps₂ := by
    rw [parse_statements]
    dsimp only
    rw [hstmt, ok_bind, parse_statements]
  have hstep₂ := hsteps [stmt] ps₁ hover₁ (by simpa using hknown₁)
    (fun s hs => by simp [List.mem_singleton.mp hs]) ps₂ hone
  rw [List.flatMap_singleton] at hstep₂
  obtain ⟨_, hstep₂⟩ := hstep₂
  obtain ⟨_, hstep₃⟩ := hsteps post ps₂ (hover₁.step hstep₂) ((hknown.2.2.step hstep₁).step hstep₂)
    (fun s hs => List.mem_append_right _ (List.mem_cons_of_mem _ hs)) ps' hpost
  refine ⟨ps₂, ⟨hstmt, hover₁, hknown₁, hstep₂.errors, fun ref href honce => ?_,
    fun ref href honce => ?_, fun ref href honce => ?_⟩, hstep₁.errors, hstep₃.errors⟩
  · rw [List.flatMap_append, List.flatMap_cons] at honce
    exact (once_between honce href).2.1
  · rw [List.flatMap_append, List.flatMap_cons] at honce
    exact hstep₁.view ref (once_between honce href).1
  · rw [List.flatMap_append, List.flatMap_cons] at honce
    exact hstep₃.view ref (once_between honce href).2.2

/-- What parsing a function gives. -/
theorem function_statement {id : Ident} {args rets : List IdType} {body : List Stmt}
    (hover : OverScope t ps) (hknown : Known [⟨t, id.name⟩] ps)
    (hparse : parse_statement (.FUNC id args rets body) ps = .ok ps')
    (hfew : ¬ ps.errnum > MAX_ERRORS) :
    ∃ vars b, FunctionResult id args rets body ps vars b ∧
      (ps'.errors = ps.errors → (∀ a ∈ rets, IdType.id a = none) → ListsParameters args vars) ∧
      (viewOf ps.pkg ⟨t, id.name⟩).map View.kind = some .SYM_FUNC ∧
      viewOf ps'.pkg ⟨t, id.name⟩ =
        (viewOf ps.pkg ⟨t, id.name⟩).map (View.setCode (add_return b) ∘ View.addVars vars) := by
  obtain ⟨u, hu, hscope⟩ := hover
  have hsome := hknown _ (List.mem_singleton.mpr rfl)
  rw [viewOf, Option.isSome_map] at hsome
  obtain ⟨sym, hget⟩ := Option.isSome_iff_exists.mp hsome
  have hentry : parse_stmt_funcs[(Stmt.FUNC id args rets body).kind]? =
    some (some .parse_funcdecl_stmt) := rfl
  have hrun := dispatch_run hentry hfew hparse
  obtain ⟨vars, b, hparsed, hblock, hparams⟩ := parse_funcdecl_stmt_post hu hscope.table hget args
    rets body ps' hrun
  refine ⟨vars, b, ⟨hblock, hparsed.returns, hparsed.index⟩, hparams, hparsed.kind, ?_⟩
  rw [hparsed.view, if_pos rfl]

end scope

section package

variable {built : List ParserState} {pkg pkg' : STable Symbol} {parsed : List ParserState}

theorem Prepared.before {before after : List ParserState} (h : Prepared (before ++ after) pkg) :
    Prepared before pkg where
  ready ps hps := h.ready ps (List.mem_append_left _ hps)
  toplevel ps hps := h.toplevel ps (List.mem_append_left _ hps)
  known ref href := h.known ref (by
    unfold functions_of at href ⊢
    rw [List.flatMap_append]
    exact List.mem_append_left _ href)
  init := h.init

theorem Prepared.after {before after : List ParserState} (h : Prepared (before ++ after) pkg)
    (hkind : ∀ ref, (viewOf pkg' ref).map View.kind = (viewOf pkg ref).map View.kind) :
    Prepared after pkg' := by
  have hsome : ∀ ref, (viewOf pkg' ref).isSome = (viewOf pkg ref).isSome := by
    intro ref
    have h := congrArg Option.isSome (hkind ref)
    rw [Option.isSome_map, Option.isSome_map] at h
    exact h
  refine ⟨fun ps hps => h.ready ps (List.mem_append_right _ hps),
    fun ps hps => h.toplevel ps (List.mem_append_right _ hps), fun ref href => ?_,
    (hsome init_ref).trans h.init⟩
  refine (hsome ref).trans (h.known ref ?_)
  unfold functions_of at href ⊢
  rw [List.flatMap_append]
  exact List.mem_append_right _ href

variable [Build] [Arith]

theorem parse_package_append (before after : List ParserState) (pkg : STable Symbol) :
    parse_package (before ++ after) pkg = parse_package before pkg >>= fun r =>
      parse_package after r.2 >>= fun r' => .ok (r.1 ++ r'.1, r'.2) := by
  induction before generalizing pkg with
  | nil =>
    rw [List.nil_append, parse_package, ok_bind]
    dsimp only [List.nil_append]
    cases parse_package after pkg <;> rfl
  | cons ps before ih =>
    rw [List.cons_append, parse_package, parse_package]
    cases Parse_AST { ps with pkg } with
    | error e => rfl
    | ok ps₁ =>
      rw [ok_bind, ok_bind, ih]
      cases parse_package before ps₁.pkg with
      | error e => rfl
      | ok r =>
        dsimp only [ok_bind]
        cases parse_package after r.2 <;> rfl

/-- The analysis of a package goes on from a statement of a module. -/
theorem passes_in_package (hprepared : Prepared built pkg)
    (hparse : parse_package built pkg = .ok (parsed, pkg')) {stmt : Stmt} {ps : ParserState}
    (harrives : Arrives built pkg .pkg stmt ps) :
    ∃ ps', Passes .pkg stmt.functions (functions_of built) stmt pkg pkg' ps ps' ∧
      stmt.IsTopLevel ∧ ∃ last ∈ parsed, ps'.errors <+: last.errors := by
  cases harrives with
  | @toplevel before after parsed₁ m _ pkg₁ pre post _ hbuilt hbefore hstmts hpre =>
    subst hbuilt
    rw [parse_package_append, hbefore, ok_bind] at hparse
    obtain ⟨⟨parsed₂, pkg₂⟩, hrest, hparse⟩ := bind_eq_ok_iff.mp hparse
    cases hparse
    obtain ⟨m', hmodule, hrest⟩ := bind_eq_ok_iff.mp hrest
    obtain ⟨⟨parsed₃, pkg₃⟩, hafter, hrest⟩ := bind_eq_ok_iff.mp hrest
    cases hrest
    obtain ⟨_, hpackage⟩ := parse_package_post before pkg hprepared.before _ hbefore
    have hprepared₁ := hprepared.after hpackage.kind
    obtain ⟨⟨insts, hparsed⟩, hprepared₂⟩ := hprepared₁.module m' hmodule
    obtain ⟨_, hpackage'⟩ := parse_package_post after m'.pkg hprepared₂ _ hafter
    obtain ⟨ps', hrun, hstep, rfl⟩ := hparsed.run
    have hover : OverScope .pkg (parse_start { m with pkg := pkg₁ }) := ⟨_, rfl, .inl rfl, rfl⟩
    have htop := hprepared.toplevel m (List.mem_append_right _ List.mem_cons_self)
    have hknown : Known (m.stmts.flatMap Stmt.functions) (parse_start { m with pkg := pkg₁ }) := by
      intro ref href
      refine hprepared₁.known ref ?_
      unfold functions_of
      rw [List.flatMap_cons]
      exact List.mem_append_left _ href
    have hm : functions_of (before ++ m :: after) = functions_of before ++
        (m.stmts.flatMap Stmt.functions ++ functions_of after) := by
      unfold functions_of
      rw [List.flatMap_append, List.flatMap_cons]
    rw [hstmts] at hrun htop hknown
    have hsteps : ∀ stmts ps, OverScope .pkg ps → Known (stmts.flatMap Stmt.functions) ps →
        (∀ s ∈ stmts, s ∈ pre ++ stmt :: post) → Post (fun ps' => ∃ insts,
          ScopeStep (stmts.flatMap Stmt.functions) insts ps ps') (parse_statements stmts ps) :=
      fun stmts ps hover hknown hsub =>
        (parse_toplevels stmts (fun s hs => htop s (hsub s hs)) hover hknown).mono
          fun _ ⟨insts, hstep, _⟩ => ⟨insts, hstep⟩
    obtain ⟨ps₂, hpasses, _, herrors⟩ := passes_in_scope hsteps hover hknown hpre hrun
    have honce : ∀ ref ∈ stmt.functions, (functions_of (before ++ m :: after)).count ref = 1 →
        ref ∉ functions_of before ∧ (m.stmts.flatMap Stmt.functions).count ref = 1 ∧
          ref ∉ functions_of after := by
      intro ref href hcount
      rw [hm] at hcount
      refine once_between hcount (List.mem_flatMap.mpr ⟨stmt, ?_, href⟩)
      rw [hstmts]
      exact List.mem_append_right _ List.mem_cons_self
    rw [← hstmts] at hpasses
    refine ⟨ps₂, ⟨hpasses.parse, hpasses.scope, hpasses.known, hpasses.errors, fun ref href hcount => ?_,
      fun ref href hcount => ?_, fun ref href hcount => ?_⟩, htop stmt (List.mem_append_right _ List.mem_cons_self),
      restore_unit ps', List.mem_append_right _ List.mem_cons_self, herrors⟩
    · exact hpasses.once ref href (honce ref href hcount).2.1
    · obtain ⟨hbefore, hcount, _⟩ := honce ref href hcount
      exact (hpasses.before ref href hcount).trans (hpackage.view ref hbefore)
    · obtain ⟨_, hcount, hafter⟩ := honce ref href hcount
      exact (hpackage'.view ref hafter).trans (hpasses.after ref href hcount)

/-- The analysis of a package arrives at every statement of a module. -/
theorem arrives_at_statement (hparse : parse_package built pkg = .ok (parsed, pkg'))
    {m : ParserState} (hm : m ∈ built) (hready : Ready m) {stmt : Stmt} (hstmt : stmt ∈ m.stmts) :
    ∃ ps, Arrives built pkg .pkg stmt ps := by
  obtain ⟨before, after, rfl⟩ := List.append_of_mem hm
  obtain ⟨pre, post, hstmts⟩ := List.append_of_mem hstmt
  rw [parse_package_append] at hparse
  obtain ⟨⟨parsed₁, pkg₁⟩, hbefore, hparse⟩ := bind_eq_ok_iff.mp hparse
  obtain ⟨_, hrest, _⟩ := bind_eq_ok_iff.mp hparse
  obtain ⟨_, hmodule, _⟩ := bind_eq_ok_iff.mp hrest
  have hu : { m with pkg := pkg₁ }.u = none := hready.u
  rw [Parse_AST_eq hu] at hmodule
  obtain ⟨_, hrun, _⟩ := bind_eq_ok_iff.mp hmodule
  change parse_statements m.stmts _ = _ at hrun
  rw [hstmts, parse_statements_append] at hrun
  obtain ⟨ps, hpre, _⟩ := bind_eq_ok_iff.mp hrun
  exact ⟨ps, .toplevel rfl hbefore hstmts hpre⟩

end package

end koala.parser
