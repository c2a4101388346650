import Koala.Parser.Accepted
import Koala.Parser.Passed
import Mathlib.Data.List.Basic

open koala.typedesc

namespace koala.parser

set_option linter.style.nameCheck false

section init

theorem add_return_insts {b : CodeBlock} (h : b.Returns) :
    ∃ i ∈ (add_return b).insts, i.op = .RETURN := by
  unfold add_return
  split
  · next hret => exact h hret
  · exact ⟨⟨.RETURN, none, 0⟩, List.mem_append_right _ (List.mem_singleton.mpr rfl), rfl⟩

/-- Only a function with a body declares a function. -/
theorem Stmt.symbols_function {m : Module} {s : Stmt} (hs : s ∈ m.stmts) {ref : SymRef} {v : View}
    (h : (ref, v) ∈ s.symbols) (hkind : v.kind = .SYM_FUNC) :
    ∃ id args rets body, m.Contains ref.stbl (.FUNC id args rets body) ∧ id.name = ref.name := by
  have hmembers : ∀ {n} {stmts : List Stmt}, (ref, v) ∈ stmts.flatMap (Stmt.member (.klass n)) →
      ∃ id args rets body, .FUNC id args rets body ∈ stmts ∧ ref = ⟨.klass n, id.name⟩ := by
    intro n stmts hmem
    obtain ⟨s, hs, hmem⟩ := List.mem_flatMap.mp hmem
    cases s with
    | VAR id type exp konst =>
      cases List.mem_singleton.mp hmem
      cases hkind
    | FUNC id args rets body =>
      exact ⟨id, args, rets, body, hs, (Prod.mk.inj (List.mem_singleton.mp hmem)).1⟩
    | _ => cases hmem
  have hvariable : ∀ {konst}, v ≠ Stmt.variableView konst := by
    rintro (_ | _) rfl <;> cases hkind
  cases s with
  | VAR id type exp konst => exact (hvariable (Prod.mk.inj (List.mem_singleton.mp h)).2).elim
  | VARLIST ids type exp konst =>
    obtain ⟨id, _, heq⟩ := List.mem_map.mp h
    exact (hvariable (Prod.mk.inj heq).2.symm).elim
  | FUNC id args rets body =>
    obtain rfl := (Prod.mk.inj (List.mem_singleton.mp h)).1
    exact ⟨id, args, rets, body, .toplevel hs, rfl⟩
  | PROTO native id args rets =>
    have hview := (Prod.mk.inj (List.mem_singleton.mp h)).2
    subst hview
    cases native <;> cases hkind
  | CLASS id super stmts =>
    rcases List.mem_cons.mp h with heq | h
    · cases heq
      cases hkind
    · obtain ⟨f, args, rets, body, hmem, rfl⟩ := hmembers h
      exact ⟨f, args, rets, body, .klass hs hmem, rfl⟩
  | TRAIT id super stmts =>
    rcases List.mem_cons.mp h with heq | h
    · cases heq
      cases hkind
    · obtain ⟨f, args, rets, body, hmem, rfl⟩ := hmembers h
      exact ⟨f, args, rets, body, .trait hs hmem, rfl⟩
  | _ => cases h

/-- No module declares `__init__`. -/
def InitFree (modules : List Module) : Prop :=
  ∀ m ∈ modules, ∀ s ∈ m.stmts, init_ref ∉ s.symbols.map Prod.fst

variable [Build] [Arith] {modules : List Module} {built parsed : List ParserState}
  {new : List (SymRef × View)} {pkg₀ pkg : STable Symbol}

/-- Where no module declares `__init__`, it is what the first module made of it. -/
theorem CompileRun.init_empty (h : CompileRun modules built new pkg₀ parsed pkg)
    (hprepared : Prepared built pkg₀) (hfree : InitFree modules) :
    viewOf pkg init_ref = some init_view := by
  have hnot : ∀ ps ∈ built, ∀ s ∈ ps.stmts, init_ref ∉ s.symbols.map Prod.fst := by
    intro ps hps s hs
    obtain ⟨m, hm, hstmts⟩ := h.stmts_of_module hps
    exact hfree m hm s (hstmts ▸ hs)
  have hfunctions : init_ref ∉ functions_of built := by
    intro hmem
    obtain ⟨ps, hps, hmem⟩ := List.mem_flatMap.mp hmem
    obtain ⟨s, hs, href⟩ := List.mem_flatMap.mp hmem
    exact hnot ps hps s hs (s.functions_sublist.subset href)
  obtain ⟨_, hpackage⟩ := parse_package_post built pkg₀ hprepared _ h.parse
  rw [hpackage.view init_ref hfunctions]
  obtain ⟨v, hview⟩ := Option.isSome_iff_exists.mp hprepared.init
  rcases h.symbols.tables.among init_ref v hview with hold | hnew
  · rw [viewOf_new] at hold
    cases hold
  rcases h.symbols.among _ hnew with heq | hmem
  · rw [hview, (Prod.mk.inj heq).2]
  · obtain ⟨ps, hps, hmem⟩ := List.mem_flatMap.mp hmem
    obtain ⟨s, hs, hsym⟩ := List.mem_flatMap.mp hmem
    exact (hnot ps hps s hs (List.mem_map_of_mem hsym)).elim

/-- Where a module declares a function `__init__`, its code returns. -/
theorem CompileRun.init_returns (h : CompileRun modules built new pkg₀ parsed pkg)
    (hgram : ∀ m ∈ modules, m.Grammatical) (herrors : ∀ ps ∈ parsed, ps.errors = [])
    (hdeclared : ¬ InitFree modules)
    (hkind : (viewOf pkg init_ref).map View.kind = some .SYM_FUNC) :
    ∃ vars b, viewOf pkg init_ref = some ⟨.SYM_FUNC, some (vars, some b)⟩ ∧
      ∃ i ∈ b.insts, i.op = .RETURN := by
  unfold InitFree at hdeclared
  push Not at hdeclared
  obtain ⟨m, hm, s, hs, hmem⟩ := hdeclared
  have hprepared := h.prepared (List.ne_nil_of_mem hm) (h.toplevel hgram)
  obtain ⟨_, hpackage⟩ := parse_package_post built pkg₀ hprepared _ h.parse
  obtain ⟨⟨ref, v⟩, hsym, href⟩ := List.mem_map.mp hmem
  dsimp only at href
  subst href
  obtain ⟨ps, hps, hstmts⟩ := h.module_of_stmts hm
  have hfresh := h.fresh (hpackage.errors herrors) hps (hstmts ▸ hs) hsym
  rw [hpackage.kind, hfresh] at hkind
  obtain ⟨id, args, rets, body, hcontains, hname⟩ :=
    Stmt.symbols_function hs hsym (Option.some.inj hkind)
  obtain ⟨ps₁, ps', haccepted⟩ := h.accepted hprepared herrors hm hcontains fun _ _ _ h => by cases h
  obtain ⟨vars, b, hresult, _, hview⟩ := h.function_of_accepted hgram haccepted
  dsimp only [init_ref] at hname hview
  rw [hname] at hview
  exact ⟨vars, add_return b, hview, add_return_insts hresult.returns⟩

/-- The instructions that the top-level declarations of the modules append at
module scope. -/
def init_code (modules : List Module) : Res (List Inst) := do
  let ⟨built, pkg⟩ ← build_symbols modules STable_New
  package_code built pkg

/-- The code of `__init__` is what the declarations of all modules appended. -/
def InitSurvives (modules : List Module) (pkg : STable Symbol) : Prop :=
  ∃ sym locvec b, STable_Get pkg name__init__ = some sym ∧ sym.data = .SYM_FUNC locvec (some b) ∧
    init_code modules = .ok b.insts

/-- The initialisers survive where there are none, and `__init__` is no name of a
module; without an error, they survive in no other case. -/
theorem compile_init_iff (h : compile modules = .ok (parsed, pkg))
    (hgram : ∀ m ∈ modules, m.Grammatical) (hsome : modules ≠ []) :
    (InitFree modules ∧ (∀ m ∈ modules, ∀ s ∈ m.stmts, ¬ s.Initialised) → InitSurvives modules pkg) ∧
    (errors parsed = 0 → InitSurvives modules pkg →
      InitFree modules ∧ ∀ m ∈ modules, ∀ s ∈ m.stmts, ¬ s.Initialised) := by
  obtain ⟨built, new, pkg₀, hrun⟩ := compile_run h
  have hprepared := hrun.prepared hsome (hrun.toplevel hgram)
  obtain ⟨insts, hpackage⟩ := parse_package_post built pkg₀ hprepared _ hrun.parse
  have hcode : init_code modules = .ok insts := bind_eq_ok_iff.mpr ⟨_, hrun.build, hpackage.code⟩
  constructor
  · rintro ⟨hfree, hnone⟩
    have hview := hrun.init_empty hprepared hfree
    obtain ⟨sym, hget, hsym⟩ := Option.map_eq_some_iff.mp hview
    refine ⟨sym, [], CodeBlock_New, hget, view_eq_func hsym, ?_⟩
    rw [hcode, hpackage.none]
    · rfl
    · intro ps hps s hs
      obtain ⟨m, hm, hstmts⟩ := hrun.stmts_of_module hps
      exact hnone m hm s (hstmts ▸ hs)
  · rintro herrors ⟨sym, locvec, b, hget, hdata, hinsts⟩
    have hclean := (errors_eq_zero_iff parsed).mp herrors
    cases hcode.symm.trans hinsts
    have hfunc : viewOf pkg init_ref = some ⟨.SYM_FUNC, some (locvec, some b)⟩ := by
      rw [viewOf, show lookup pkg init_ref = some sym from hget, Option.map_some, Symbol.view,
        Symbol.kind, Symbol.func, hdata]
      rfl
    have hfree : InitFree modules := by
      by_contra hdeclared
      obtain ⟨vars, b', hview, i, hi, hop⟩ :=
        hrun.init_returns hgram hclean hdeclared (by rw [hfunc]; rfl)
      cases hfunc.symm.trans hview
      exact hpackage.returns i hi hop
    refine ⟨hfree, fun m hm s hs => ?_⟩
    have hview := hrun.init_empty hprepared hfree
    cases hfunc.symm.trans hview
    obtain ⟨ps, hps, hstmts⟩ := hrun.module_of_stmts hm
    exact hpackage.some hclean rfl ps hps s (hstmts ▸ hs)

end init

section instances

/-- A variable in one module and a function in another. -/
def uninitialised : List Module :=
  [module_of [.Variables (some (.VAR name_a (some (.base .BASE_INT)) none false))],
    module_of [.Function (some (.FUNC name_f [] [] []))]]

example : compiles uninitialised (fun _ _ => true) = true := by decide +kernel

theorem compile_init_iff_uninitialised :
    ∃ parsed pkg, compile uninitialised = .ok (parsed, pkg) ∧ InitSurvives uninitialised pkg := by
  have hcompiles : compiles uninitialised (fun _ _ => true) = true := by decide +kernel
  obtain ⟨parsed, pkg, hrun, _⟩ := of_compiles hcompiles
  have hplain : ∀ m ∈ uninitialised, ∀ s ∈ m.stmts, s.Grammatical ∧
      init_ref ∉ s.symbols.map Prod.fst ∧ ¬ s.Initialised := by
    intro m hm s hs
    rcases List.mem_cons.mp hm with rfl | hm
    · obtain rfl := List.mem_singleton.mp hs
      exact ⟨trivial, by decide, Bool.false_ne_true⟩
    · obtain rfl := List.mem_singleton.mp hm
      obtain rfl := List.mem_singleton.mp hs
      exact ⟨⟨List.forall_mem_nil _, trivial⟩, by decide, fun h => h⟩
  refine ⟨parsed, pkg, hrun, (compile_init_iff hrun (fun m hm s hs => (hplain m hm s hs).1)
    (List.cons_ne_nil _ _)).1 ⟨fun m hm s hs => (hplain m hm s hs).2.1,
      fun m hm s hs => (hplain m hm s hs).2.2⟩⟩

/-- A variable with an initialiser. -/
def initialised : List Module :=
  [module_of [.Variables (some (.VAR name_a none (some (.CONST (.BASE_INT 1) ⟨1, 9⟩)) false))]]

/-- The code that initialises a variable is lost. -/
theorem compile_init_lost : ∃ parsed pkg, compile initialised = .ok (parsed, pkg) ∧
    errors parsed = 0 ∧ ¬ InitSurvives initialised pkg := by
  have hcompiles : compiles initialised (fun parsed pkg => errors parsed = 0 ∧
      (STable_Get pkg name__init__).bind Symbol.func = some ([], some CodeBlock_New)) = true := by
    decide +kernel
  obtain ⟨parsed, pkg, hrun, hcheck⟩ := of_compiles hcompiles
  obtain ⟨herrors, hfunc⟩ := of_decide_eq_true hcheck
  refine ⟨parsed, pkg, hrun, herrors, ?_⟩
  rintro ⟨sym, locvec, b, hget, hdata, hcode⟩
  rw [hget, Option.bind_some, Symbol.func, hdata] at hfunc
  cases hfunc
  have hsome : (init_code initialised).map List.length = .ok 3 := by decide +kernel
  rw [hcode] at hsome
  cases hsome

end instances

end koala.parser

open koala.typedesc

namespace koala.parser

set_option linter.style.nameCheck false

section bodies

/-- No class has a method with a body. -/
def MethodFree (modules : List Module) : Prop :=
  ∀ m ∈ modules, ∀ id super stmts, .CLASS id super stmts ∈ m.stmts →
    ∀ f args rets body, .FUNC f args rets body ∉ stmts

variable [Build] [Arith] {modules : List Module} {built parsed : List ParserState}
  {new : List (SymRef × View)} {pkg₀ pkg : STable Symbol}

/-- The code of a function is the block that its body gives where the analysis
arrives at it, with a `RETURN` if there is none: every statement of the body was
passed once to the function that is written for its kind. -/
def BodyCompiled (modules : List Module) (pkg : STable Symbol) (t : TableRef) (id : Ident)
    (args rets : List IdType) (body : List Stmt) : Prop :=
  ∃ built pkg₀ ps b sym locvec, build_symbols modules STable_New = .ok (built, pkg₀) ∧
    Arrives built pkg₀ t (.FUNC id args rets body) ps ∧
    body_block id args rets (parse_statements body) ps = .ok b ∧
    body_block id args rets (pass_statements body) ps = .ok b ∧
    lookup pkg ⟨t, id.name⟩ = some sym ∧ sym.data = .SYM_FUNC locvec (some (add_return b))

/-- The method of a class keeps what it was declared with. -/
theorem CompileRun.method (h : CompileRun modules built new pkg₀ parsed pkg)
    (hprepared : Prepared built pkg₀) (hclean : ∀ ps ∈ built, ps.errors = []) {m : Module}
    (hm : m ∈ modules) {id : Ident} {super : List TypeDesc} {stmts : List Stmt}
    (hclass : .CLASS id super stmts ∈ m.stmts) {f : Ident} {args rets : List IdType}
    {body : List Stmt} (hmethod : .FUNC f args rets body ∈ stmts) :
    viewOf pkg ⟨.klass id.name, f.name⟩ = some ⟨.SYM_FUNC, some ([], none)⟩ := by
  obtain ⟨ps, hps, hstmts⟩ := h.module_of_stmts hm
  rw [← hstmts] at hclass
  have hsym : (⟨.pkg, id.name⟩, ⟨.SYM_CLASS, none⟩) ∈ (Stmt.CLASS id super stmts).symbols :=
    List.mem_cons_self
  have hkind := h.fresh hclean hps hclass hsym
  obtain ⟨_, hpackage⟩ := parse_package_post built pkg₀ hprepared _ h.parse
  rw [hpackage.view]
  · refine h.fresh hclean hps hclass (List.mem_cons_of_mem _ ?_)
    exact List.mem_flatMap.mpr ⟨_, hmethod, List.mem_singleton.mpr rfl⟩
  · intro hmem
    obtain ⟨ps', hps', hmem⟩ := List.mem_flatMap.mp hmem
    obtain ⟨s, hs, href⟩ := List.mem_flatMap.mp hmem
    cases s with
    | FUNC id' args' rets' body' => cases List.mem_singleton.mp href
    | TRAIT id' super' stmts' =>
      obtain ⟨s', _, href⟩ := List.mem_flatMap.mp href
      cases s' with
      | FUNC f' args' rets' body' =>
        have hname : id.name = id'.name :=
          TableRef.klass.inj (SymRef.mk.inj (List.mem_singleton.mp href)).1
        have hsym' : (⟨.pkg, id'.name⟩, ⟨.SYM_TRAIT, none⟩) ∈ (Stmt.TRAIT id' super' stmts').symbols :=
          List.mem_cons_self
        have hkind' := h.fresh hclean hps' hs hsym'
        rw [← hname, hkind] at hkind'
        cases hkind'
      | _ => cases href
    | _ => cases href

/-- The body of an accepted function was compiled. -/
theorem CompileRun.body_compiled (h : CompileRun modules built new pkg₀ parsed pkg)
    (hgram : ∀ m ∈ modules, m.Grammatical) (herrors : ∀ ps ∈ parsed, ps.errors = []) {t : TableRef}
    {id : Ident} {args rets : List IdType} {body : List Stmt} {ps ps' : ParserState}
    (haccepted : AcceptedAt built pkg₀ t id args rets body ps ps') :
    BodyCompiled modules pkg t id args rets body := by
  obtain ⟨m, hm, hcontains⟩ := h.contains haccepted.arrives
  have hprepared := h.prepared (List.ne_nil_of_mem hm) (h.toplevel hgram)
  obtain ⟨vars, b, hresult, _, hview⟩ := h.function_of_accepted hgram haccepted
  obtain ⟨ps₁, hpasses, last, hlast, herrs⟩ :=
    passes_function hprepared h.parse haccepted.arrives haccepted.few
  have hnone := no_errors_before herrs (herrors last hlast)
  obtain ⟨u, hu, hscope⟩ := hpasses.scope
  have hsome := hpasses.known _ (List.mem_singleton.mpr rfl)
  rw [viewOf, Option.isSome_map] at hsome
  obtain ⟨sym₀, hget₀⟩ := Option.isSome_iff_exists.mp hsome
  have hentry : parse_stmt_funcs[(Stmt.FUNC id args rets body).kind]? =
    some (some .parse_funcdecl_stmt) := rfl
  have hrun := dispatch_run hentry haccepted.few hpasses.parse
  have hpassed := function_passed hu hscope.table hget₀ (hcontains.localBody (hgram m hm)).2 hrun hnone
  obtain ⟨sym, hget, hsym⟩ := Option.map_eq_some_iff.mp hview
  exact ⟨built, pkg₀, ps, b, sym, vars, h.build, haccepted.arrives, hresult.block,
    hpassed.trans hresult.block, hget, view_eq_func hsym⟩

/-- In a package that is compiled without an error, the bodies of all functions
were compiled if and only if no class has a method with a body. -/
theorem compile_bodies_iff (h : compile modules = .ok (parsed, pkg))
    (hgram : ∀ m ∈ modules, m.Grammatical) (herrors : errors parsed = 0) :
    (∀ m ∈ modules, ∀ t id args rets body, m.Contains t (.FUNC id args rets body) →
      BodyCompiled modules pkg t id args rets body) ↔ MethodFree modules := by
  obtain ⟨built, new, pkg₀, hrun⟩ := compile_run h
  have hnone := (errors_eq_zero_iff parsed).mp herrors
  constructor
  · intro hall m hm id super stmts hclass f args rets body hmethod
    have hprepared := hrun.prepared (List.ne_nil_of_mem hm) (hrun.toplevel hgram)
    obtain ⟨_, hpackage⟩ := parse_package_post built pkg₀ hprepared _ hrun.parse
    have hview := hrun.method hprepared (hpackage.errors hnone) hm hclass hmethod
    obtain ⟨_, _, _, _, sym, _, _, _, _, _, hget, hdata⟩ :=
      hall m hm _ f args rets body (.klass hclass hmethod)
    rw [viewOf, hget, Option.map_some] at hview
    have hdeclared := view_eq_func (Option.some.inj hview)
    rw [hdata] at hdeclared
    cases hdeclared
  · intro hclass m hm t id args rets body hcontains
    have hprepared := hrun.prepared (List.ne_nil_of_mem hm) (hrun.toplevel hgram)
    obtain ⟨ps, ps', haccepted⟩ := hrun.accepted hprepared hnone hm hcontains
      fun id' super stmts _ hmem => hclass m hm id' super stmts hmem id args rets body
    exact hrun.body_compiled hgram hnone haccepted

end bodies

section instances

example : compiles [module_of [.Function (some (.FUNC name_f [] [] []))]]
    (fun parsed _ => errors parsed = 0) = true := by decide +kernel

theorem compile_bodies_iff_function : ∃ parsed pkg,
    compile [module_of [.Function (some (.FUNC name_f [] [] []))]] = .ok (parsed, pkg) ∧
      BodyCompiled [module_of [.Function (some (.FUNC name_f [] [] []))]] pkg .pkg name_f [] [] [] := by
  have hcompiles : compiles [module_of [.Function (some (.FUNC name_f [] [] []))]]
    (fun parsed _ => errors parsed = 0) = true := by decide +kernel
  obtain ⟨parsed, pkg, hrun, herrors⟩ := of_compiles hcompiles
  refine ⟨parsed, pkg, hrun, (compile_bodies_iff hrun ?_ (of_decide_eq_true herrors)).mpr ?_ _
    (List.mem_singleton.mpr rfl) _ _ _ _ _ (.toplevel (List.mem_singleton.mpr rfl))⟩
  · intro m hm s hs
    obtain rfl := List.mem_singleton.mp hm
    obtain rfl := List.mem_singleton.mp hs
    exact ⟨List.forall_mem_nil _, trivial⟩
  · intro m hm id super stmts hmem
    obtain rfl := List.mem_singleton.mp hm
    cases List.mem_singleton.mp hmem

/-- A class with a method. -/
def method : List Module :=
  [module_of [.ClassOrTrait (some (.CLASS name_a [] [.FUNC name_f [] [] []]))]]

/-- The body of a method is passed over. -/
theorem compile_bodies_method : ∃ parsed pkg, @compile release integers method = .ok (parsed, pkg) ∧
    errors parsed = 0 ∧ ∃ m ∈ method, m.Contains (.klass name_a.name) (.FUNC name_f [] [] []) ∧
      ¬ @BodyCompiled release integers method pkg (.klass name_a.name) name_f [] [] [] := by
  have hcompiles : @compiles release integers method (fun parsed pkg => errors parsed = 0 ∧
      (lookup pkg ⟨.klass name_a.name, name_f.name⟩).bind Symbol.func = some ([], none)) = true := by
    decide +kernel
  obtain ⟨parsed, pkg, hrun, hcheck⟩ := @of_compiles release integers _ _ hcompiles
  obtain ⟨herrors, hfunc⟩ := of_decide_eq_true hcheck
  refine ⟨parsed, pkg, hrun, herrors, _, List.mem_singleton.mpr rfl,
    .klass (List.mem_singleton.mpr rfl) (List.mem_singleton.mpr rfl), ?_⟩
  rintro ⟨_, _, _, _, sym, _, _, _, _, _, hget, hdata⟩
  rw [hget, Option.bind_some, Symbol.func, hdata] at hfunc
  cases hfunc

end instances

section returns

/-- The instructions that are executed: the code has no jumps, and only a
`RETURN` ends it; past its end there is nothing to fetch. -/
def executed : List Inst → Option (List Inst)
  | [] => none
  | i :: insts => if i.op = .RETURN then some [i] else (executed insts).map fun is => i :: is

theorem executed_isSome_iff (insts : List Inst) :
    (executed insts).isSome = true ↔ ∃ i ∈ insts, i.op = .RETURN := by
  induction insts with
  | nil => simp [executed]
  | cons i insts ih =>
    rw [executed, List.exists_mem_cons_iff]
    split
    · next hop => exact ⟨fun _ => .inl hop, fun _ => rfl⟩
    · next hop => rw [Option.isSome_map, ih, or_iff_right hop]

/-- The code of every function of a package, and of its classes and traits,
contains a `RETURN`, and so executing it ends there. -/
def AllReturn (pkg : STable Symbol) : Prop :=
  ∀ ref sym locvec code, lookup pkg ref = some sym → sym.data = .SYM_FUNC locvec code →
    ∃ b, code = some b ∧ (∃ i ∈ b.insts, i.op = .RETURN) ∧ (executed b.insts).isSome = true

theorem allReturn_iff {pkg : STable Symbol} :
    AllReturn pkg ↔ ∀ ref locvec code, viewOf pkg ref = some ⟨.SYM_FUNC, some (locvec, code)⟩ →
      ∃ b, code = some b ∧ ∃ i ∈ b.insts, i.op = .RETURN := by
  constructor
  · intro h ref locvec code hview
    obtain ⟨sym, hget, hsym⟩ := Option.map_eq_some_iff.mp hview
    obtain ⟨b, hcode, hreturn, _⟩ := h ref sym locvec code hget (view_eq_func hsym)
    exact ⟨b, hcode, hreturn⟩
  · intro h ref sym locvec code hget hdata
    have hview : viewOf pkg ref = some ⟨.SYM_FUNC, some (locvec, code)⟩ := by
      rw [viewOf, hget, Option.map_some, Symbol.view, Symbol.kind, Symbol.func, hdata]
      rfl
    obtain ⟨b, hcode, hreturn⟩ := h ref locvec code hview
    exact ⟨b, hcode, hreturn, (executed_isSome_iff b.insts).mpr hreturn⟩

variable [Build] [Arith] {modules : List Module} {built parsed : List ParserState}
  {new : List (SymRef × View)} {pkg₀ pkg : STable Symbol}

theorem CompileRun.all_return (h : CompileRun modules built new pkg₀ parsed pkg)
    (hgram : ∀ m ∈ modules, m.Grammatical) (herrors : ∀ ps ∈ parsed, ps.errors = [])
    (hsome : modules ≠ []) (hdeclared : ¬ InitFree modules) (hmethods : MethodFree modules) :
    AllReturn pkg := by
  have hprepared := h.prepared hsome (h.toplevel hgram)
  obtain ⟨_, hpackage⟩ := parse_package_post built pkg₀ hprepared _ h.parse
  refine allReturn_iff.mpr fun ref locvec code hview => ?_
  have hkind : (viewOf pkg₀ ref).map View.kind = some .SYM_FUNC := by
    rw [← hpackage.kind, hview]
    rfl
  obtain ⟨v, hview₀, hkind⟩ := Option.map_eq_some_iff.mp hkind
  rcases h.symbols.tables.among ref v hview₀ with hold | hnew
  · rw [viewOf_new] at hold
    cases hold
  rcases h.symbols.among _ hnew with heq | hmem
  · obtain rfl := (Prod.mk.inj heq).1
    obtain ⟨vars, b, hinit, hreturn⟩ := h.init_returns hgram herrors hdeclared (by rw [hview]; rfl)
    cases hview.symm.trans hinit
    exact ⟨b, rfl, hreturn⟩
  · obtain ⟨ps, hps, hmem⟩ := List.mem_flatMap.mp hmem
    obtain ⟨s, hs, hsym⟩ := List.mem_flatMap.mp hmem
    obtain ⟨m, hm, hstmts⟩ := h.stmts_of_module hps
    obtain ⟨id, args, rets, body, hcontains, hname⟩ := Stmt.symbols_function (hstmts ▸ hs) hsym hkind
    obtain ⟨ps₁, ps', haccepted⟩ := h.accepted hprepared herrors hm hcontains
      fun id' super stmts _ hmem => hmethods m hm id' super stmts hmem id args rets body
    obtain ⟨vars, b, hresult, _, hfunction⟩ := h.function_of_accepted hgram haccepted
    rw [hname] at hfunction
    cases hview.symm.trans hfunction
    exact ⟨add_return b, rfl, add_return_insts hresult.returns⟩

end returns

section instances

/-- A module that declares `__init__`, and one that does not. -/
def declared_init : List Module :=
  [module_of [.Function (some (.FUNC ⟨name__init__, ⟨1, 1⟩⟩ [] [] [])),
    .Function (some (.FUNC name_f [] [] []))]]

example : compiles declared_init (fun parsed _ => errors parsed = 0) = true := by decide +kernel

end instances

end koala.parser
