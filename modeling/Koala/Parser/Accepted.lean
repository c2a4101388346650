import Koala.Parser.Compile
import Koala.Eval.Slots

open koala.typedesc

namespace koala.parser

set_option linter.style.nameCheck false

section accepted

theorem mem_functions_of {built : List ParserState} {ps : ParserState} (hps : ps ∈ built) {s : Stmt} (hs : s ∈ ps.stmts)
    {ref : SymRef} (href : ref ∈ s.functions) : ref ∈ functions_of built :=
  List.mem_flatMap.mpr ⟨ps, hps, List.mem_flatMap.mpr ⟨s, hs, href⟩⟩

variable [Build] [Arith] {modules : List Module} {built parsed : List ParserState}
  {new : List (SymRef × View)} {pkg₀ pkg : STable Symbol} {t : TableRef} {id : Ident}
  {args rets : List IdType} {body : List Stmt}

/-- A function is accepted: the analysis arrives at it and reports no error in
it, and its name is not declared again. -/
structure AcceptedAt (built : List ParserState) (pkg₀ : STable Symbol) (t : TableRef) (id : Ident)
    (args rets : List IdType) (body : List Stmt) (ps ps' : ParserState) : Prop where
  arrives : Arrives built pkg₀ t (.FUNC id args rets body) ps
  few : ¬ ps.errnum > MAX_ERRORS
  parse : parse_statement (.FUNC id args rets body) ps = .ok ps'
  errors : ps'.errors = ps.errors
  once : (functions_of built).count ⟨t, id.name⟩ = 1

def Accepted (modules : List Module) (t : TableRef) (id : Ident) (args rets : List IdType)
    (body : List Stmt) : Prop :=
  ∃ built pkg₀ ps ps', build_symbols modules STable_New = .ok (built, pkg₀) ∧
    AcceptedAt built pkg₀ t id args rets body ps ps'

theorem CompileRun.contains (h : CompileRun modules built new pkg₀ parsed pkg) {stmt : Stmt}
    {ps : ParserState} (harrives : Arrives built pkg₀ t stmt ps) :
    ∃ m ∈ modules, m.Contains t stmt := by
  have htop : ∀ {stmt ps}, Arrives built pkg₀ .pkg stmt ps → ∃ m ∈ modules, stmt ∈ m.stmts := by
    intro stmt ps harrives
    cases harrives with
    | toplevel hbuilt hbefore hstmts hpre =>
      obtain ⟨m, hm, hsame⟩ := h.stmts_of_module (hbuilt ▸ List.mem_append_right _ List.mem_cons_self)
      refine ⟨m, hm, ?_⟩
      rw [hsame, hstmts]
      exact List.mem_append_right _ List.mem_cons_self
  cases harrives with
  | toplevel hbuilt hbefore hstmts hpre =>
    obtain ⟨m, hm, hmem⟩ := htop (.toplevel hbuilt hbefore hstmts hpre)
    exact ⟨m, hm, .toplevel hmem⟩
  | member hklass hentry harrives henter hbody hpre =>
    obtain ⟨m, hm, hmem⟩ := htop harrives
    refine ⟨m, hm, ?_⟩
    rcases hklass with rfl | rfl
    · exact .klass hmem (hbody ▸ List.mem_append_right _ List.mem_cons_self)
    · exact .trait hmem (hbody ▸ List.mem_append_right _ List.mem_cons_self)

/-- Without an error, every function is accepted but the methods of classes. -/
theorem CompileRun.accepted (h : CompileRun modules built new pkg₀ parsed pkg)
    (hprepared : Prepared built pkg₀) (herrors : ∀ ps ∈ parsed, ps.errors = []) {m : Module}
    (hm : m ∈ modules) (hf : m.Contains t (.FUNC id args rets body))
    (hclass : ∀ id' super stmts, t = .klass id'.name → .CLASS id' super stmts ∈ m.stmts →
      .FUNC id args rets body ∉ stmts) :
    ∃ ps ps', AcceptedAt built pkg₀ t id args rets body ps ps' := by
  obtain ⟨built₀, hbuilt, hstmts⟩ := h.module_of_stmts hm
  obtain ⟨_, hparsed⟩ := parse_package_post built pkg₀ hprepared _ h.parse
  have hnodup := h.nodup (hparsed.errors herrors)
  have hnone : ∀ {ps : ParserState}, (∃ last ∈ parsed, ps.errors <+: last.errors) → ps.errors = [] :=
    fun ⟨last, hlast, herrs⟩ => no_errors_before herrs (herrors last hlast)
  have hat : (∃ ps, Arrives built pkg₀ t (.FUNC id args rets body) ps ∧ ps.errors = []) ∧
      (⟨t, id.name⟩ : SymRef) ∈ functions_of built := by
    cases hf with
    | toplevel hmem =>
      rw [← hstmts] at hmem
      obtain ⟨ps, harrives⟩ := arrives_at_statement h.parse hbuilt (h.symbols.ready _ hbuilt) hmem
      obtain ⟨ps', hpasses, _, last, hlast, herrs⟩ := passes_in_package hprepared h.parse harrives
      exact ⟨⟨ps, harrives, hnone ⟨last, hlast, hpasses.errors.trans herrs⟩⟩,
        mem_functions_of hbuilt hmem (List.mem_singleton.mpr rfl)⟩
    | klass hmem hbody => exact (hclass _ _ _ rfl hmem hbody).elim
    | @trait _ trait super stmts hmem hbody =>
      rw [← hstmts] at hmem
      obtain ⟨ps, harrives⟩ := arrives_at_statement h.parse hbuilt (h.symbols.ready _ hbuilt) hmem
      obtain ⟨ps', hpasses, _, last, hlast, herrs⟩ := passes_in_package hprepared h.parse harrives
      have hfew := few_of_none (hnone ⟨last, hlast, hpasses.errors.trans herrs⟩)
      obtain ⟨ps₁, harrives₁, hlast₁⟩ := arrives_at_member hprepared h.parse harrives hfew hbody
      exact ⟨⟨ps₁, harrives₁, hnone hlast₁⟩, mem_functions_of hbuilt hmem
        (List.mem_flatMap.mpr ⟨_, hbody, List.mem_singleton.mpr rfl⟩)⟩
  obtain ⟨⟨ps, harrives, hempty⟩, hmem⟩ := hat
  have hfew := few_of_none hempty
  obtain ⟨ps', hpasses, hlast⟩ := passes_function hprepared h.parse harrives hfew
  exact ⟨ps, ps', harrives, hfew, hpasses.parse, (hnone hlast).trans hempty.symm,
    hnodup.count.trans (if_pos hmem)⟩

/-- An accepted function has the variables and the code that parsing it gives. -/
theorem CompileRun.function_of_accepted (h : CompileRun modules built new pkg₀ parsed pkg)
    (hgram : ∀ m ∈ modules, m.Grammatical) {ps ps' : ParserState}
    (haccepted : AcceptedAt built pkg₀ t id args rets body ps ps') :
    ∃ vars b, FunctionResult id args rets body ps vars b ∧ ListsParameters args vars ∧
      viewOf pkg ⟨t, id.name⟩ = some ⟨.SYM_FUNC, some (vars, some (add_return b))⟩ := by
  obtain ⟨m, hm, hcontains⟩ := h.contains haccepted.arrives
  have hprepared := h.prepared (List.ne_nil_of_mem hm) (h.toplevel hgram)
  obtain ⟨ps₁, vars, b, hparse, _, _, hresult, hparams, hview⟩ :=
    h.function hprepared haccepted.arrives haccepted.few haccepted.once
  cases haccepted.parse.symm.trans hparse
  exact ⟨vars, b, hresult,
    hparams haccepted.errors (hcontains.localBody (hgram m hm)).1, hview⟩

/-- In a package that is compiled without an error every function is accepted,
but the methods of classes. -/
theorem accepted_of_errors (h : compile modules = .ok (parsed, pkg))
    (hgram : ∀ m ∈ modules, m.Grammatical) (herrors : errors parsed = 0) {m : Module}
    (hm : m ∈ modules) (hf : m.Contains t (.FUNC id args rets body))
    (hclass : ∀ id' super stmts, t = .klass id'.name → .CLASS id' super stmts ∈ m.stmts →
      .FUNC id args rets body ∉ stmts) :
    Accepted modules t id args rets body := by
  obtain ⟨built, new, pkg₀, hrun⟩ := compile_run h
  have hprepared := hrun.prepared (List.ne_nil_of_mem hm) (hrun.toplevel hgram)
  have hclean := (errors_eq_zero_iff parsed).mp herrors
  obtain ⟨ps, ps', haccepted⟩ := hrun.accepted hprepared hclean hm hf hclass
  exact ⟨built, pkg₀, ps, ps', hrun.build, haccepted⟩

end accepted

section instances

/-- What folding needs where all constants are integers. -/
instance integers : Arith where
  ival
    | .BASE_INT v => v
    | _ => 0
  ival_int _ := rfl
  add_float a _ := a
  string_to_int64 _ := none

/-- A package is compiled to a result in `p`. -/
def compiles [Build] [Arith] (modules : List Module) (p : List ParserState → STable Symbol → Bool) : Bool :=
  match compile modules with
  | .ok (parsed, pkg) => p parsed pkg
  | .error _ => false

theorem of_compiles [Build] [Arith] {modules : List Module} {p : List ParserState → STable Symbol → Bool}
    (h : compiles modules p = true) :
    ∃ parsed pkg, compile modules = .ok (parsed, pkg) ∧ p parsed pkg = true := by
  unfold compiles at h
  split at h
  · exact ⟨_, _, by assumption, h⟩
  · cases h

/-- The build without assertions. -/
abbrev release : Build := ⟨true⟩

/-- A name of one letter. -/
def letter (c : UInt8) (nonul : 0 ∉ [c]) : Ident := ⟨⟨[c], nonul⟩, ⟨1, 1⟩⟩

def name_f : Ident := letter 102 (by decide)

theorem a_nonul : (0 : UInt8) ∉ [(97 : UInt8)] := by decide

def name_a : Ident := letter 97 a_nonul

theorem b_nonul : (0 : UInt8) ∉ [(98 : UInt8)] := by decide

def name_b : Ident := letter 98 b_nonul

def name_c : Ident := letter 99 (by decide)

/-- A module without imports. -/
def module_of (statements : List ModuleStatement) : Module where
  filename := ⟨[109], by decide⟩
  imports := ⟨STable_New, [], []⟩
  statements := statements

end instances

end koala.parser

open koala.typedesc

namespace koala.parser

set_option linter.style.nameCheck false

section slots

variable {α : Type} [eval.Objects α] [Build] [Arith] {modules : List Module}
  {parsed : List ParserState} {pkg : STable Symbol}

/-- The variables of a function are numbered from 1 in the order in which they
are declared, its parameters first; at run time the arguments go to the slots of
the parameters. -/
theorem compile_slots (h : compile modules = .ok (parsed, pkg))
    (hgram : ∀ m ∈ modules, m.Grammatical) {t : TableRef} {id : Ident} {args rets : List IdType}
    {body : List Stmt} (haccepted : Accepted modules t id args rets body) :
    ∃ sym locvec code, lookup pkg ⟨t, id.name⟩ = some sym ∧ sym.data = .SYM_FUNC locvec code ∧
      locvec.map LocVar.index = List.range' 1 locvec.length ∧ (locvec.map LocVar.index).Nodup ∧
      ∀ (k : Nat) (a : IdType), args[k]? = some a → ∃ id var, a.id = some id ∧
        locvec[k]? = some var ∧ var.name = id.name ∧ var.desc = a.type ∧ var.index = k + 1 ∧
        ∀ cf : eval.CallFrame α, cf.Filled → ∃ cf', eval.prepare_kargs cf = .ok cf' ∧
          ∀ o, cf.argument k = some o → cf'.locvars var.index = some o := by
  obtain ⟨built, new, pkg₀, hrun⟩ := compile_run h
  obtain ⟨built', pkg₀', ps, ps', hbuild, haccepted⟩ := haccepted
  cases hrun.build.symm.trans hbuild
  obtain ⟨vars, b, hresult, hparams, hview⟩ := hrun.function_of_accepted hgram haccepted
  obtain ⟨sym, hget, hsym⟩ := Option.map_eq_some_iff.mp hview
  refine ⟨sym, vars, _, hget, view_eq_func hsym, hresult.index, ?_, fun k a hk => ?_⟩
  · rw [hresult.index]
    exact List.nodup_range'
  · obtain ⟨id, hid, hvar⟩ := hparams k a hk
    refine ⟨id, _, hid, hvar, rfl, rfl, rfl, fun cf hfilled => ?_⟩
    obtain ⟨cf', hprepare⟩ := eval.prepare_kargs_returns hfilled
    exact ⟨cf', hprepare, fun o ho => eval.prepare_kargs_argument ho hprepare⟩

end slots

section instances

/-- A function of a parameter with a variable in a block and another after it. -/
def blocks : List Module :=
  [module_of [.Function (some (.FUNC name_f [⟨some name_a, some (.base .BASE_INT)⟩] []
    [.LIST true [.VAR name_b (some (.base .BASE_INT)) none false],
      .VAR name_c (some (.base .BASE_INT)) none false]))]]

theorem blocks_grammatical : ∀ m ∈ blocks, m.Grammatical := by
  intro m hm s hs
  obtain rfl := List.mem_singleton.mp hm
  obtain rfl := List.mem_singleton.mp hs
  exact ⟨List.forall_mem_nil _, ⟨trivial, trivial⟩, trivial, trivial⟩

theorem compile_slots_blocks : ∃ parsed pkg sym locvec code,
    compile blocks = .ok (parsed, pkg) ∧ STable_Get pkg name_f.name = some sym ∧
      sym.data = .SYM_FUNC locvec code ∧ locvec.map LocVar.index = [1, 2, 3] := by
  have hcompiles : compiles blocks (fun parsed pkg => errors parsed = 0 ∧
      (STable_Get pkg name_f.name).bind (fun sym => sym.func.map fun d => d.1.length) = some 3) =
      true := by decide +kernel
  obtain ⟨parsed, pkg, hrun, hcheck⟩ := of_compiles hcompiles
  obtain ⟨herrors, hlength⟩ := of_decide_eq_true hcheck
  have haccepted : Accepted blocks .pkg name_f _ [] _ :=
    accepted_of_errors hrun blocks_grammatical herrors (List.mem_singleton.mpr rfl)
      (.toplevel (List.mem_singleton.mpr rfl)) fun _ _ _ h => by cases h
  obtain ⟨sym, locvec, code, hget, hdata, hindex, _⟩ :=
    @compile_slots eval.Value _ _ _ _ _ _ hrun blocks_grammatical _ _ _ _ _ haccepted
  refine ⟨parsed, pkg, sym, locvec, code, hrun, hget, hdata, ?_⟩
  change STable_Get pkg name_f.name = some sym at hget
  rw [hget, Option.bind_some, Symbol.func, hdata] at hlength
  have hthree : locvec.length = 3 := Option.some.inj hlength
  rw [hindex, hthree]
  rfl

end instances

end koala.parser
