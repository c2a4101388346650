import Koala.Parser.Compiled
import Koala.Parser.Passed
import Mathlib.Data.List.Flatten

open koala.typedesc

namespace koala.parser

set_option linter.style.nameCheck false

section trait

variable [Build] [Arith] {built : List ParserState} {pkg pkg' : STable Symbol}
  {parsed : List ParserState} {id : Ident} {super : List TypeDesc} {body : List Stmt}
  {ps ps₁ ps₂ ps' : ParserState}

/-- The statements of a trait are parsed over the unit of the trait. -/
theorem trait_statement (hover : OverScope .pkg ps) (hfew : ¬ ps.errnum > MAX_ERRORS)
    (hparse : parse_statement (.TRAIT id super body) ps = .ok ps') :
    ∃ u ps₂, ps.u = some u ∧
      enter_class id ps = .ok (ps.entered u (class_unit id.name CodeBlock_New)) ∧
      parse_statements body (ps.entered u (class_unit id.name CodeBlock_New)) = .ok ps₂ ∧
      Parser_Exit_Scope ps₂ = .ok ps' := by
  obtain ⟨u, hu, _⟩ := hover
  have hentry : parse_stmt_funcs[(Stmt.TRAIT id super body).kind]? =
    some (some .parse_class_stmt) := rfl
  have hrun := dispatch_run hentry hfew hparse
  obtain ⟨ps₁, henter, hrun⟩ := bind_eq_ok_iff.mp hrun
  obtain ⟨ps₂, hbody, hexit⟩ := bind_eq_ok_iff.mp hrun
  obtain rfl := enter_class_post hu id ps₁ henter
  exact ⟨u, ps₂, hu, henter, hbody, hexit⟩

/-- The analysis of a trait goes on from a member. -/
theorem passes_in_trait {pre post : List Stmt} {stmt : Stmt} {u : ParserUnit}
    (hmembers : ∀ s ∈ pre ++ stmt :: post, s.IsMember)
    (hknown : Known ((pre ++ stmt :: post).flatMap (Stmt.defines (.klass id.name))) ps)
    (hpre : parse_statements pre (ps.entered u (class_unit id.name CodeBlock_New)) = .ok ps₁)
    (hbody : parse_statements (pre ++ stmt :: post)
      (ps.entered u (class_unit id.name CodeBlock_New)) = .ok ps₂)
    (hexit : Parser_Exit_Scope ps₂ = .ok ps') :
    ∃ ps₃, Passes (.klass id.name) (stmt.defines (.klass id.name))
        ((pre ++ stmt :: post).flatMap (Stmt.defines (.klass id.name))) stmt ps.pkg ps'.pkg ps₁ ps₃ ∧
      ps.errors <+: ps₁.errors ∧ ps₃.errors <+: ps'.errors := by
  have hover : OverScope (.klass id.name) (ps.entered u (class_unit id.name CodeBlock_New)) :=
    ⟨_, rfl, .inr rfl, rfl⟩
  have hsteps : ∀ stmts ps₀, OverScope (.klass id.name) ps₀ →
      Known (stmts.flatMap (Stmt.defines (.klass id.name))) ps₀ →
      (∀ s ∈ stmts, s ∈ pre ++ stmt :: post) → Post (fun ps' => ∃ insts,
        ScopeStep (stmts.flatMap (Stmt.defines (.klass id.name))) insts ps₀ ps')
        (parse_statements stmts ps₀) := fun stmts ps₀ hover hknown hsub =>
    parse_members stmts (fun s hs => hmembers s (hsub s hs)) hover hknown
  obtain ⟨insts, hstep⟩ := parse_members _ hmembers hover hknown ps₂ hbody
  obtain rfl := exit_class_ok hstep.u rfl hexit
  have hpasses := passes_in_scope hsteps hover hknown hpre hbody
  exact hpasses

/-- The analysis of a package goes on from a function, at module level or in a
trait. -/
theorem passes_function {t : TableRef} {f : Ident} {args rets : List IdType} {stmts : List Stmt}
    (hprepared : Prepared built pkg) (hparse : parse_package built pkg = .ok (parsed, pkg'))
    (harrives : Arrives built pkg t (.FUNC f args rets stmts) ps) (hfew : ¬ ps.errnum > MAX_ERRORS) :
    ∃ ps', Passes t [⟨t, f.name⟩] (functions_of built) (.FUNC f args rets stmts) pkg pkg' ps ps' ∧
      ∃ last ∈ parsed, ps'.errors <+: last.errors := by
  cases harrives with
  | toplevel hbuilt hbefore hstmts hpre =>
    obtain ⟨ps', hpasses, _, hlast⟩ :=
      passes_in_package hprepared hparse (.toplevel hbuilt hbefore hstmts hpre)
    exact ⟨ps', hpasses, hlast⟩
  | @member id super body pre post _ klass ps₀ ps₁ _ hklass hentry harrives henter hbody hpre =>
    obtain ⟨ps₂, hpasses, htop, last, hlast, herrors⟩ :=
      passes_in_package hprepared hparse harrives
    rcases hklass with rfl | rfl
    · cases hentry
    obtain ⟨u, hu, _⟩ := hpasses.scope
    obtain rfl := enter_class_post hu id ps₁ henter
    subst hbody
    have hfirst : ps₀.errors <+: ps.errors := by
      have hover : OverScope (.klass id.name) (ps₀.entered u (class_unit id.name CodeBlock_New)) :=
        ⟨_, rfl, .inr rfl, rfl⟩
      have hknown := hpasses.known
      change Known ((pre ++ _).flatMap _) ps₀ at hknown
      rw [List.flatMap_append, known_append] at hknown
      obtain ⟨_, hstep⟩ := parse_members pre (fun s hs => htop s (List.mem_append_left _ hs)) hover
        hknown.1 ps hpre
      exact hstep.errors
    obtain ⟨u', ps₃, hu', _, hrun, hexit⟩ :=
      trait_statement hpasses.scope (few_before hfirst hfew) hpasses.parse
    cases hu.symm.trans hu'
    obtain ⟨ps₄, hmember, _, herrors'⟩ :=
      passes_in_trait htop hpasses.known hpre hrun hexit
    have hdefines : ∀ ref ∈ (Stmt.FUNC f args rets stmts).defines (.klass id.name),
        ref ∈ (pre ++ .FUNC f args rets stmts :: post).flatMap (Stmt.defines (.klass id.name)) :=
      fun ref href => List.mem_flatMap.mpr ⟨_, List.mem_append_right _ List.mem_cons_self, href⟩
    refine ⟨ps₄, ⟨hmember.parse, hmember.scope, hmember.known, hmember.errors, fun ref href hcount => ?_,
      fun ref href hcount => ?_, fun ref href hcount => ?_⟩, last, hlast, herrors'.trans herrors⟩
    · exact hmember.once ref href (hpasses.once ref (hdefines ref href) hcount)
    · exact (hmember.before ref href (hpasses.once ref (hdefines ref href) hcount)).trans
        (hpasses.before ref (hdefines ref href) hcount)
    · exact (hpasses.after ref (hdefines ref href) hcount).trans
        (hmember.after ref href (hpasses.once ref (hdefines ref href) hcount))

/-- The analysis of a package arrives at every member of a trait. -/
theorem arrives_at_member (hprepared : Prepared built pkg)
    (hparse : parse_package built pkg = .ok (parsed, pkg')) {stmt : Stmt}
    (harrives : Arrives built pkg .pkg (.TRAIT id super body) ps) (hfew : ¬ ps.errnum > MAX_ERRORS)
    (hstmt : stmt ∈ body) : ∃ ps', Arrives built pkg (.klass id.name) stmt ps' ∧
      ∃ last ∈ parsed, ps'.errors <+: last.errors := by
  obtain ⟨ps', hpasses, htop, last, hlast, herrors⟩ := passes_in_package hprepared hparse harrives
  obtain ⟨u, ps₂, _, henter, hbody, hexit⟩ := trait_statement hpasses.scope hfew hpasses.parse
  obtain ⟨pre, post, rfl⟩ := List.append_of_mem hstmt
  have hrun := hbody
  rw [parse_statements_append] at hrun
  obtain ⟨ps₁, hpre, _⟩ := bind_eq_ok_iff.mp hrun
  obtain ⟨ps₃, hmember, _, herrors'⟩ := passes_in_trait htop hpasses.known hpre hbody hexit
  exact ⟨ps₁, .member (.inr rfl) rfl harrives henter rfl hpre, last, hlast,
    (hmember.errors.trans herrors').trans herrors⟩

end trait

section statements

theorem Stmt.defines_sublist (t : TableRef) (s : Stmt) :
    (s.defines t).Sublist ((s.member t).map Prod.fst) := by
  cases s <;> first | exact List.Sublist.refl _ | exact List.nil_sublist _

theorem Stmt.functions_sublist (s : Stmt) : s.functions.Sublist (s.symbols.map Prod.fst) := by
  cases s with
  | FUNC id args rets body => exact List.Sublist.refl _
  | TRAIT id super body =>
    refine List.Sublist.cons _ ?_
    rw [List.map_flatMap]
    exact List.Sublist.flatMap_right body fun s _ => s.defines_sublist _
  | _ => exact List.nil_sublist _

theorem functions_of_sublist (built : List ParserState) :
    (functions_of built).Sublist ((symbols_of built).map Prod.fst) := by
  unfold functions_of symbols_of
  rw [List.map_flatMap]
  refine List.Sublist.flatMap_right built fun ps _ => ?_
  rw [List.map_flatMap]
  exact List.Sublist.flatMap_right ps.stmts fun s _ => s.functions_sublist

/-- The functions that are declared have no variables and no code. -/
theorem Stmt.symbols_fresh {s : Stmt} {ref : SymRef} {v : View} (h : (ref, v) ∈ s.symbols)
    (hkind : v.kind = .SYM_FUNC) : v.func = some ([], none) := by
  have hmember : ∀ {t s}, (ref, v) ∈ Stmt.member t s → v.func = some ([], none) := by
    intro t s hmem
    cases s with
    | FUNC id args rets body =>
      cases List.mem_singleton.mp hmem
      rfl
    | VAR id type exp konst =>
      cases List.mem_singleton.mp hmem
      cases hkind
    | _ => cases hmem
  have hvariable : ∀ {konst}, v = Stmt.variableView konst → v.func = some ([], none) := by
    rintro (_ | _) rfl <;> cases hkind
  cases s with
  | VAR id type exp konst => exact hvariable (Prod.mk.inj (List.mem_singleton.mp h)).2
  | VARLIST ids type exp konst =>
    obtain ⟨id, _, heq⟩ := List.mem_map.mp h
    exact hvariable (Prod.mk.inj heq).2.symm
  | FUNC id args rets body =>
    cases List.mem_singleton.mp h
    rfl
  | PROTO native id args rets =>
    cases List.mem_singleton.mp h
    cases native <;> cases hkind
  | CLASS id super body =>
    rcases List.mem_cons.mp h with heq | h
    · cases heq
      cases hkind
    · obtain ⟨s, _, hs⟩ := List.mem_flatMap.mp h
      exact hmember hs
  | TRAIT id super body =>
    rcases List.mem_cons.mp h with heq | h
    · cases heq
      cases hkind
    · obtain ⟨s, _, hs⟩ := List.mem_flatMap.mp h
      exact hmember hs
  | _ => cases h

theorem view_eq_func {sym : Symbol} {locvec : List LocVar} {code : Option CodeBlock}
    (h : sym.view = ⟨.SYM_FUNC, some (locvec, code)⟩) : sym.data = .SYM_FUNC locvec code := by
  have hfunc : sym.func = some (locvec, code) := congrArg View.func h
  unfold Symbol.func at hfunc
  split at hfunc
  · cases hfunc
    assumption
  · cases hfunc

theorem viewOf_new (ref : SymRef) : viewOf STable_New ref = none := by
  obtain ⟨_ | name, n⟩ := ref <;> rfl

theorem errors_eq_zero_iff (parsed : List ParserState) :
    errors parsed = 0 ↔ ∀ ps ∈ parsed, ps.errors = [] := by
  induction parsed with
  | nil => simp [errors]
  | cons ps parsed ih =>
    have hstep : errors (ps :: parsed) = ps.errnum + errors parsed := by simp [errors]
    rw [hstep, Nat.add_eq_zero_iff, ih, ParserState.errnum, List.length_eq_zero_iff,
      List.forall_mem_cons]

end statements

section run

variable [Build] [Arith] {modules : List Module} {built parsed : List ParserState}
  {new : List (SymRef × View)} {pkg₀ pkg : STable Symbol}

/-- A package was compiled: its modules were built, and then analysed. -/
structure CompileRun (modules : List Module) (built : List ParserState)
    (new : List (SymRef × View)) (pkg₀ : STable Symbol) (parsed : List ParserState)
    (pkg : STable Symbol) : Prop where
  build : build_symbols modules STable_New = .ok (built, pkg₀)
  symbols : SymbolsBuilt modules STable_New built new pkg₀
  parse : parse_package built pkg₀ = .ok (parsed, pkg)

theorem compile_run (h : compile modules = .ok (parsed, pkg)) :
    ∃ built new pkg₀, CompileRun modules built new pkg₀ parsed pkg := by
  obtain ⟨⟨built, pkg₀⟩, hbuild, hparse⟩ := bind_eq_ok_iff.mp h
  obtain ⟨new, hsymbols⟩ := build_symbols_built modules STable_New (built, pkg₀) hbuild
  exact ⟨built, new, pkg₀, hbuild, hsymbols, hparse⟩

theorem CompileRun.module_of_stmts (h : CompileRun modules built new pkg₀ parsed pkg) {m : Module}
    (hm : m ∈ modules) : ∃ ps ∈ built, ps.stmts = m.stmts := by
  have hmem : m.stmts ∈ built.map ParserState.stmts := by
    rw [h.symbols.stmts]
    exact List.mem_map_of_mem hm
  exact List.mem_map.mp hmem

theorem CompileRun.stmts_of_module (h : CompileRun modules built new pkg₀ parsed pkg)
    {ps : ParserState} (hps : ps ∈ built) : ∃ m ∈ modules, m.stmts = ps.stmts := by
  have hmem : ps.stmts ∈ modules.map Module.stmts := by
    rw [← h.symbols.stmts]
    exact List.mem_map_of_mem hps
  exact List.mem_map.mp hmem

theorem CompileRun.toplevel (h : CompileRun modules built new pkg₀ parsed pkg)
    (hgram : ∀ m ∈ modules, m.Grammatical) : ∀ m ∈ modules, ∀ s ∈ m.stmts, s.IsTopLevel := by
  intro m hm s hs
  obtain ⟨ps, hps, hstmts⟩ := h.module_of_stmts hm
  exact ((h.symbols.ready ps hps).stmts s (hstmts ▸ hs)).isTopLevel (hgram m hm s hs)

theorem CompileRun.prepared (h : CompileRun modules built new pkg₀ parsed pkg)
    (hsome : modules ≠ []) (htop : ∀ m ∈ modules, ∀ s ∈ m.stmts, s.IsTopLevel) :
    Prepared built pkg₀ where
  ready := h.symbols.ready
  toplevel ps hps s hs := by
    obtain ⟨m, hm, hstmts⟩ := h.stmts_of_module hps
    exact htop m hm s (hstmts ▸ hs)
  known ref href := by
    obtain ⟨p, hp, rfl⟩ := List.mem_map.mp ((functions_of_sublist built).subset href)
    exact h.symbols.tables.known p (h.symbols.symbols.subset hp)
  init := h.symbols.init hsome

theorem CompileRun.nodup (h : CompileRun modules built new pkg₀ parsed pkg)
    (hclean : ∀ ps ∈ built, ps.errors = []) : (functions_of built).Nodup :=
  (h.symbols.tables.nodup hclean).sublist
    ((functions_of_sublist built).trans (h.symbols.symbols.map Prod.fst))

/-- What a statement declares is in the tables when the modules are built. -/
theorem CompileRun.fresh (h : CompileRun modules built new pkg₀ parsed pkg)
    (hclean : ∀ ps ∈ built, ps.errors = []) {ps : ParserState} (hps : ps ∈ built) {s : Stmt}
    (hs : s ∈ ps.stmts) {ref : SymRef} {v : View} (hsym : (ref, v) ∈ s.symbols) :
    viewOf pkg₀ ref = some v := by
  have hmem : (ref, v) ∈ symbols_of built :=
    List.mem_flatMap.mpr ⟨ps, hps, List.mem_flatMap.mpr ⟨s, hs, hsym⟩⟩
  exact (h.symbols.tables.fresh hclean (ref, v) (h.symbols.symbols.subset hmem)).2

/-- A function has no variables when the modules are built. -/
theorem CompileRun.no_variables (h : CompileRun modules built new pkg₀ parsed pkg) {ref : SymRef}
    (hkind : (viewOf pkg₀ ref).map View.kind = some .SYM_FUNC) :
    ∃ code, viewOf pkg₀ ref = some ⟨.SYM_FUNC, some ([], code)⟩ := by
  obtain ⟨⟨kind, func⟩, hview, hkind⟩ := Option.map_eq_some_iff.mp hkind
  cases hkind
  rw [hview]
  rcases h.symbols.tables.among ref _ hview with hold | hnew
  · rw [viewOf_new] at hold
    cases hold
  rcases h.symbols.among _ hnew with heq | hmem
  · exact ⟨some CodeBlock_New, congrArg some (Prod.mk.inj heq).2⟩
  · obtain ⟨ps, _, hps⟩ := List.mem_flatMap.mp hmem
    obtain ⟨s, _, hs⟩ := List.mem_flatMap.mp hps
    have hfresh : func = some ([], none) := Stmt.symbols_fresh hs rfl
    exact ⟨none, by rw [hfresh]⟩

/-- A function that is declared once has the variables and the code that parsing
it gives. -/
theorem CompileRun.function (h : CompileRun modules built new pkg₀ parsed pkg)
    (hprepared : Prepared built pkg₀) {t : TableRef} {id : Ident} {args rets : List IdType}
    {body : List Stmt} {ps : ParserState} (harrives : Arrives built pkg₀ t (.FUNC id args rets body) ps)
    (hfew : ¬ ps.errnum > MAX_ERRORS) (honce : (functions_of built).count ⟨t, id.name⟩ = 1) :
    ∃ ps' vars b, parse_statement (.FUNC id args rets body) ps = .ok ps' ∧
      ps.errors <+: ps'.errors ∧ (∃ last ∈ parsed, ps'.errors <+: last.errors) ∧
      FunctionResult id args rets body ps vars b ∧
      (ps'.errors = ps.errors → (∀ a ∈ rets, a.id = none) → ListsParameters args vars) ∧
      viewOf pkg ⟨t, id.name⟩ = some ⟨.SYM_FUNC, some (vars, some (add_return b))⟩ := by
  obtain ⟨ps', hpasses, hlast⟩ := passes_function hprepared h.parse harrives hfew
  obtain ⟨vars, b, hresult, hparams, hkind, hview⟩ :=
    function_statement hpasses.scope hpasses.known hpasses.parse hfew
  have hbefore := hpasses.before _ (List.mem_singleton.mpr rfl) honce
  have hafter := hpasses.after _ (List.mem_singleton.mpr rfl) honce
  rw [hbefore] at hkind hview
  obtain ⟨code, hfresh⟩ := h.no_variables hkind
  refine ⟨ps', vars, b, hpasses.parse, hpasses.errors, hlast, hresult, hparams, ?_⟩
  rw [hafter, hview, hfresh]
  rfl

end run

section debug

variable [Arith] {modules : List Module} {built parsed : List ParserState}
  {new : List (SymRef × View)} {pkg₀ pkg : STable Symbol}

/-- Where assertions are checked, a module that is compiled has no class. -/
theorem CompileRun.plain (h : CompileRun modules built new pkg₀ parsed pkg) :
    ∀ m ∈ modules, ∀ s ∈ m.stmts, s.IsPlain :=
  build_symbols_plain modules STable_New _ h.build

end debug

end koala.parser
