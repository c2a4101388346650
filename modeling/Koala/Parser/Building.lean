import Koala.Parser.Built

open koala.typedesc

namespace koala.parser

set_option linter.style.nameCheck false

/-- The statements that are added to the tree. -/
def ModuleStatement.stmts : ModuleStatement → List Stmt
  | .Variables (some (.LIST _ vec)) => vec
  | .Variables (some stmt) => [stmt]
  | .Function (some stmt) => [stmt]
  | .ClassOrTrait (some stmt) => [stmt]
  | _ => []

/-- The statements of a module, as they are parsed. -/
def Module.stmts (m : Module) : List Stmt := m.statements.flatMap ModuleStatement.stmts

/-- A declaration of variables or of a function. -/
def Stmt.IsPlain : Stmt → Prop
  | .VAR .. => True
  | .VARLIST .. => True
  | .FUNC .. => True
  | .PROTO .. => True
  | _ => False

/-- A class or a trait. -/
def Stmt.IsKlass : Stmt → Prop
  | .CLASS .. => True
  | .TRAIT .. => True
  | _ => False

/-- A declaration of a module. -/
def Stmt.IsDeclaration (s : Stmt) : Prop := s.IsPlain ∨ s.IsKlass

section statements

variable {ps : ParserState} {u : ParserUnit} {t : TableRef}

theorem __new_var_built (hu : ps.u = some u) (htable : u.stbl = some (.shared t)) (id : Ident)
    (desc : Option TypeDesc) (konst : Bool) :
    Post (Built [(⟨t, id.name⟩, Stmt.variableView konst)] [] ps) (__new_var id desc konst ps) :=
  declare_built hu htable (adds_var konst)

theorem new_vars_built (ids : List Ident) (desc : Option TypeDesc) (konst : Bool)
    (hu : ps.u = some u) (htable : u.stbl = some (.shared t)) :
    Post (Built (ids.map fun id => (⟨t, id.name⟩, Stmt.variableView konst)) [] ps)
      (new_vars ids desc konst ps) := by
  induction ids generalizing ps with
  | nil => exact Post.ok (.refl ps)
  | cons id ids ih =>
    refine Post.bind fun ps₁ hvar => ?_
    have hfirst := __new_var_built hu htable id desc konst ps₁ hvar
    exact (ih (hfirst.u.trans hu)).mono fun _ h => hfirst.trans h

theorem new_var_stmts_built (vec : List Stmt) (hu : ps.u = some u)
    (htable : u.stbl = some (.shared .pkg)) :
    Post (fun ps' => Built (vec.flatMap Stmt.symbols) vec ps ps' ∧ ∀ s ∈ vec, s.IsPlain)
      (new_var_stmts vec ps) := by
  induction vec generalizing ps with
  | nil => exact Post.ok ⟨.refl ps, List.forall_mem_nil _⟩
  | cons stmt vec ih =>
    cases stmt with
    | VAR id type exp konst =>
      refine Post.bind fun ps₁ hvar => ?_
      have hadd := Built.add ps (.VAR id type exp konst)
      have hnew := __new_var_built (hadd.u.trans hu) htable id type konst ps₁ hvar
      have hfirst := hadd.trans hnew
      refine (ih (hfirst.u.trans hu)).mono fun ps' h => ⟨hfirst.trans h.1, ?_⟩
      exact List.forall_mem_cons.mpr ⟨trivial, h.2⟩
    | _ => exact Post.error

theorem Parser_New_Variables_built (stmt : Option Stmt) (hu : ps.u = some u)
    (htable : u.stbl = some (.shared .pkg)) :
    Post (fun ps' => Built ((ModuleStatement.Variables stmt).stmts.flatMap Stmt.symbols)
        (ModuleStatement.Variables stmt).stmts ps ps' ∧
      ∀ s ∈ (ModuleStatement.Variables stmt).stmts, s.IsPlain)
      (Parser_New_Variables stmt ps) := by
  unfold Parser_New_Variables
  split
  · exact Post.ok ⟨.refl ps, List.forall_mem_nil _⟩
  · next id type exp konst =>
    have hadd := Built.add ps (.VAR id type exp konst)
    refine (__new_var_built (hadd.u.trans hu) htable id type konst).mono fun ps' h => ?_
    exact ⟨hadd.trans h, List.forall_mem_singleton.mpr trivial⟩
  · next vec => exact new_var_stmts_built vec hu htable
  · next ids type exp konst =>
    have hadd := Built.add ps (.VARLIST ids type exp konst)
    refine (new_vars_built ids type konst (hadd.u.trans hu) htable).mono fun ps' h => ?_
    have hall := hadd.trans h
    refine ⟨?_, List.forall_mem_singleton.mpr trivial⟩
    rw [List.nil_append] at hall
    change Built ((Stmt.VARLIST ids type exp konst).symbols ++ []) _ ps ps'
    rw [List.append_nil]
    exact hall
  · exact Post.error

theorem __parse_funcdecl_built (stmt : Stmt) (hu : ps.u = some u)
    (htable : u.stbl = some (.shared t)) : Post (fun ps' => match stmt with
      | .FUNC id _ _ _ => Built [(⟨t, id.name⟩, ⟨.SYM_FUNC, some ([], none)⟩)] [] ps ps'
      | .PROTO native id _ _ =>
        Built [(⟨t, id.name⟩, ⟨if native then .SYM_NFUNC else .SYM_IFUNC, none⟩)] [] ps ps'
      | _ => False) (__parse_funcdecl stmt ps) := by
  cases stmt with
  | FUNC id args rets body => exact Post.bind fun proto _ => declare_built hu htable adds_func
  | PROTO native id args rets =>
    exact Post.bind fun proto _ => declare_built hu htable (adds_proto native)
  | _ => exact Post.error

theorem Parser_New_Function_built (stmt : Option Stmt) (hu : ps.u = some u)
    (htable : u.stbl = some (.shared .pkg)) :
    Post (fun ps' => Built ((ModuleStatement.Function stmt).stmts.flatMap Stmt.symbols)
        (ModuleStatement.Function stmt).stmts ps ps' ∧
      ∀ s ∈ (ModuleStatement.Function stmt).stmts, s.IsPlain)
      (Parser_New_Function stmt ps) := by
  cases stmt with
  | none => exact Post.ok ⟨.refl ps, List.forall_mem_nil _⟩
  | some stmt =>
    have hadd := Built.add ps stmt
    refine (__parse_funcdecl_built stmt (hadd.u.trans hu) htable).mono fun ps' h => ?_
    cases stmt with
    | FUNC id args rets body => exact ⟨hadd.trans h, List.forall_mem_singleton.mpr trivial⟩
    | PROTO native id args rets => exact ⟨hadd.trans h, List.forall_mem_singleton.mpr trivial⟩
    | _ => exact h.elim

variable [Build]

theorem new_members_built (body : List Stmt) (hu : ps.u = some u)
    (htable : u.stbl = some (.shared t)) :
    Post (Built (body.flatMap (Stmt.member t)) [] ps) (new_members body ps) := by
  induction body generalizing ps with
  | nil => exact Post.ok (.refl ps)
  | cons stmt body ih =>
    refine Post.bind fun ps₁ hmember => ?_
    have hfirst : Built (stmt.member t) [] ps ps₁ := by
      cases stmt with
      | VAR id type exp konst =>
        obtain ⟨_, _, hmember⟩ := bind_eq_ok_iff.mp hmember
        exact __new_var_built hu htable id type false ps₁ hmember
      | FUNC id args rets body => exact __parse_funcdecl_built _ hu htable ps₁ hmember
      | _ =>
        cases hmember
        exact .refl ps
    exact (ih (hfirst.u.trans hu)).mono fun _ h => hfirst.trans h

/-- A class is declared, then its members, and then its scope is left. -/
theorem new_klass_inv {id : Ident} {v : View} (body : List Stmt)
    {add : STable Symbol → Option (STable Symbol)} (hu : ps.u = some u)
    (htable : u.stbl = some (.shared .pkg)) (hadd : Adds add id.name v) :
    Post (fun ps' => ∃ ps₁ ps₂, Built [(⟨.pkg, id.name⟩, v)] [] ps ps₁ ∧
      Built (body.flatMap (Stmt.member (.klass id.name))) []
        (ps₁.entered u (class_unit id.name CodeBlock_New)) ps₂ ∧
      Parser_Exit_Scope ps₂ = .ok ps') (new_klass id body add ps) := by
  refine Post.bind fun u' _ => Post.bind fun before _ => Post.bind fun ps₁ hdeclare => ?_
  have hname := declare_built hu htable hadd ps₁ hdeclare
  cases before with
  | some sym => exact Post.error
  | none =>
    refine Post.bind fun ps₂ henter => Post.bind fun ps₃ hmembers => fun ps' hexit => ?_
    have hentered : ps₂ = ps₁.entered u (class_unit id.name CodeBlock_New) := by
      unfold Parser_Enter_Scope at henter
      rw [hname.u.trans hu] at henter
      cases henter
      rfl
    subst hentered
    exact ⟨ps₁, ps₃, hname, new_members_built body rfl rfl ps₃ hmembers, hexit⟩

theorem new_klass_built {id : Ident} {v : View} (body : List Stmt)
    {add : STable Symbol → Option (STable Symbol)} (hu : ps.u = some u)
    (htable : u.stbl = some (.shared .pkg)) (hadd : Adds add id.name v) :
    Post (Built ((⟨.pkg, id.name⟩, v) :: body.flatMap (Stmt.member (.klass id.name))) [] ps)
      (new_klass id body add ps) := by
  refine (new_klass_inv body hu htable hadd).mono fun ps' h => ?_
  obtain ⟨ps₁, ps₂, hname, hbody, hexit⟩ := h
  obtain rfl := exit_class_ok hbody.u rfl hexit
  refine hname.trans ⟨?_, ?_, ?_, hbody.stmts, hbody.errors, hbody.tables⟩
  · change ps₂.ustack.head? = ps₁.u
    rw [hbody.ustack, hname.u.trans hu]
    rfl
  · change ps₂.ustack.tail = ps₁.ustack
    rw [hbody.ustack]
    rfl
  · change ps₂.depth - 1 = ps₁.depth
    rw [hbody.depth]
    rfl

theorem Parser_New_ClassOrTrait_built (stmt : Option Stmt) (hu : ps.u = some u)
    (htable : u.stbl = some (.shared .pkg)) :
    Post (fun ps' => Built ((ModuleStatement.ClassOrTrait stmt).stmts.flatMap Stmt.symbols)
        (ModuleStatement.ClassOrTrait stmt).stmts ps ps' ∧
      ∀ s ∈ (ModuleStatement.ClassOrTrait stmt).stmts, s.IsKlass)
      (Parser_New_ClassOrTrait stmt ps) := by
  unfold Parser_New_ClassOrTrait
  split
  · exact Post.ok ⟨.refl ps, List.forall_mem_nil _⟩
  · next id super body =>
    have hadd := Built.add ps (.CLASS id super body)
    refine (new_klass_built body (hadd.u.trans hu) htable adds_class).mono fun ps' h => ?_
    have hall := hadd.trans h
    refine ⟨?_, List.forall_mem_singleton.mpr trivial⟩
    change Built ((Stmt.CLASS id super body).symbols ++ []) _ ps ps'
    rw [List.append_nil]
    exact hall
  · next id super body =>
    have hadd := Built.add ps (.TRAIT id super body)
    refine (new_klass_built body (hadd.u.trans hu) htable adds_trait).mono fun ps' h => ?_
    have hall := hadd.trans h
    refine ⟨?_, List.forall_mem_singleton.mpr trivial⟩
    change Built ((Stmt.TRAIT id super body).symbols ++ []) _ ps ps'
    rw [List.append_nil]
    exact hall
  · exact Post.error

theorem ModuleStatement.build_built (stmt : ModuleStatement) (hu : ps.u = some u)
    (htable : u.stbl = some (.shared .pkg)) :
    Post (fun ps' => Built (stmt.stmts.flatMap Stmt.symbols) stmt.stmts ps ps' ∧
      ∀ s ∈ stmt.stmts, s.IsDeclaration) (stmt.build ps) := by
  cases stmt with
  | Variables stmt =>
    exact (Parser_New_Variables_built stmt hu htable).mono fun _ h =>
      ⟨h.1, fun s hs => .inl (h.2 s hs)⟩
  | Function stmt =>
    exact (Parser_New_Function_built stmt hu htable).mono fun _ h =>
      ⟨h.1, fun s hs => .inl (h.2 s hs)⟩
  | ClassOrTrait stmt =>
    exact (Parser_New_ClassOrTrait_built stmt hu htable).mono fun _ h =>
      ⟨h.1, fun s hs => .inr (h.2 s hs)⟩
  | error pos => exact Post.ok ⟨.error ps pos _, List.forall_mem_nil _⟩

/-- The tree of a module holds its statements, and the tables their symbols. -/
theorem build_statements_built (stmts : List ModuleStatement) (hu : ps.u = some u)
    (htable : u.stbl = some (.shared .pkg)) :
    Post (fun ps' => Built ((stmts.flatMap ModuleStatement.stmts).flatMap Stmt.symbols)
        (stmts.flatMap ModuleStatement.stmts) ps ps' ∧
      ∀ s ∈ stmts.flatMap ModuleStatement.stmts, s.IsDeclaration) (build_statements stmts ps) := by
  induction stmts generalizing ps with
  | nil => exact Post.ok ⟨.refl ps, List.forall_mem_nil _⟩
  | cons stmt stmts ih =>
    refine Post.bind fun ps₁ hstmt => ?_
    obtain ⟨hfirst, hdecl⟩ := stmt.build_built hu htable ps₁ hstmt
    refine (ih (hfirst.u.trans hu)).mono fun ps' h => ?_
    rw [List.flatMap_cons, List.flatMap_append]
    exact ⟨hfirst.trans h.1, List.forall_mem_append.mpr ⟨hdecl, h.2⟩⟩

end statements

/-- The symbol of the function that holds the code of the first module. -/
def init_ref : SymRef := ⟨.pkg, name__init__⟩

/-- What the first module that is left makes of `__init__`. -/
def init_view : View := ⟨.SYM_FUNC, some ([], some CodeBlock_New)⟩

section modules

variable [Build]

/-- The tree of a module is built, and then `__init__` is there. -/
theorem Build_AST_built (statements : List ModuleStatement) {ps : ParserState} (hu : ps.u = none)
    (hstack : ps.ustack = []) (hstmts : ps.stmts = []) :
    Post (fun ps' => ps'.u = none ∧ ps'.ustack = [] ∧ ps'.depth = ps.depth ∧
      ps'.stmts = statements.flatMap ModuleStatement.stmts ∧ (∀ s ∈ ps'.stmts, s.IsDeclaration) ∧
      ps.errors <+: ps'.errors ∧ (viewOf ps'.pkg init_ref).isSome = true ∧
      ∃ init, (∀ p ∈ init, p = (init_ref, init_view)) ∧
        Declares (ps'.errors = ps.errors) (ps'.stmts.flatMap Stmt.symbols ++ init) ps.pkg ps'.pkg)
      (Build_AST statements ps) := by
  refine Post.bind fun ps₁ henter => Post.bind fun ps₂ hbuild => fun ps' hexit => ?_
  cases (enter_module_eq hu).symm.trans henter
  obtain ⟨hbuilt, hdecl⟩ := build_statements_built statements rfl rfl ps₂ hbuild
  have hu₂ : ps₂.u = some (module_unit CodeBlock_New) := hbuilt.u
  have hstack₂ : ps₂.ustack = [] := hbuilt.ustack.trans hstack
  have hdepth₂ : ps₂.depth - 1 = ps.depth := by
    rw [hbuilt.depth]
    rfl
  have hstmts₂ : ps₂.stmts = statements.flatMap ModuleStatement.stmts := by
    rw [hbuilt.stmts]
    change ps.stmts ++ _ = _
    rw [hstmts, List.nil_append]
  have hleft : ∀ pkg, (restore_unit { ps₂ with pkg }).u = none ∧
      (restore_unit { ps₂ with pkg }).ustack = [] := by
    intro pkg
    unfold restore_unit
    dsimp only
    rw [hstack₂]
    exact ⟨rfl, rfl⟩
  cases hget : STable_Get ps₂.pkg name__init__ with
  | some sym =>
    cases (exit_module hu₂ hget).symm.trans hexit
    refine ⟨(hleft ps₂.pkg).1, (hleft ps₂.pkg).2, hdepth₂, hstmts₂, hstmts₂ ▸ hdecl, hbuilt.errors,
      ?_, [], List.forall_mem_nil _, ?_⟩
    · change ((STable_Get ps₂.pkg name__init__).map Symbol.view).isSome = true
      rw [hget]
      rfl
    · rw [List.append_nil]
      change Declares _ (ps₂.stmts.flatMap Stmt.symbols) ps.pkg ps₂.pkg
      rw [hstmts₂]
      exact hbuilt.tables
  | none =>
    cases (exit_module_new hu₂ hget).symm.trans hexit
    let init : Symbol :=
      Symbol_New name__init__ (some (.proto [] [])) (.SYM_FUNC [] (some CodeBlock_New))
    have hempty : ∀ table, init.stbl = some table → table.symbols = [] := fun _ h => nomatch h
    have hsnoc : viewOf ps₂.pkg init_ref = none ∧ ∀ ref, viewOf (ps₂.pkg.append init) ref =
        if ref = init_ref then some init_view else viewOf ps₂.pkg ref :=
      @viewOf_snoc ps₂.pkg init ps₂ .pkg ps₂.pkg.varindex rfl hget hempty
    have hone : Declares True [(init_ref, init_view)] ps₂.pkg (ps₂.pkg.append init) :=
      .one hsnoc.1 hsnoc.2
    refine ⟨(hleft _).1, (hleft _).2, hdepth₂, hstmts₂, hstmts₂ ▸ hdecl, hbuilt.errors, ?_,
      [(init_ref, init_view)], fun p hp => List.mem_singleton.mp hp, ?_⟩
    · exact hone.known _ (List.mem_singleton.mpr rfl)
    · change Declares (ps₂.errors = ps.errors) (ps₂.stmts.flatMap Stmt.symbols ++ _) ps.pkg
        (ps₂.pkg.append init)
      rw [hstmts₂]
      exact hbuilt.tables.trans hone (fun h => h) fun _ => trivial

/-- The symbols that the statements of parsed modules declare. -/
def symbols_of (built : List ParserState) : List (SymRef × View) :=
  built.flatMap fun ps => ps.stmts.flatMap Stmt.symbols

/-- A module that was built: it is in no scope, and its statements are declarations. -/
structure Ready (ps : ParserState) : Prop where
  u : ps.u = none
  ustack : ps.ustack = []
  stmts : ∀ s ∈ ps.stmts, s.IsDeclaration

/-- What building the modules of a package gives. -/
structure SymbolsBuilt (modules : List Module) (pkg : STable Symbol) (built : List ParserState)
    (new : List (SymRef × View)) (pkg' : STable Symbol) : Prop where
  stmts : built.map ParserState.stmts = modules.map Module.stmts
  ready : ∀ ps ∈ built, Ready ps
  init : modules ≠ [] → (viewOf pkg' init_ref).isSome = true
  symbols : (symbols_of built).Sublist new
  among : ∀ p ∈ new, p = (init_ref, init_view) ∨ p ∈ symbols_of built
  tables : Declares (∀ ps ∈ built, ps.errors = []) new pkg pkg'

theorem build_symbols_built (modules : List Module) (pkg : STable Symbol) :
    Post (fun r => ∃ new, SymbolsBuilt modules pkg r.1 new r.2) (build_symbols modules pkg) := by
  induction modules generalizing pkg with
  | nil =>
    exact Post.ok ⟨[], rfl, List.forall_mem_nil _, fun h => absurd rfl h, List.Sublist.refl _,
      List.forall_mem_nil _, .refl _ pkg⟩
  | cons module modules ih =>
    refine Post.bind fun ps hbuild => Post.bind fun r hrest => Post.ok ?_
    obtain ⟨hu, hstack, _, hstmts, hdecl, herrors, hinit, init, hall, htables⟩ :=
      Build_AST_built module.statements rfl rfl rfl ps hbuild
    obtain ⟨new, hbuilt⟩ := ih ps.pkg r hrest
    refine ⟨(ps.stmts.flatMap Stmt.symbols ++ init) ++ new, ?_, ?_, fun _ => ?_, ?_, ?_, ?_⟩
    · change ps.stmts :: r.1.map ParserState.stmts = _
      rw [hbuilt.stmts, hstmts]
      rfl
    · exact List.forall_mem_cons.mpr ⟨⟨hu, hstack, hdecl⟩, hbuilt.ready⟩
    · obtain ⟨v, hv⟩ := Option.isSome_iff_exists.mp hinit
      exact Option.isSome_iff_exists.mpr ⟨v, hbuilt.tables.keeps init_ref v hv⟩
    · exact (List.sublist_append_left _ init).append hbuilt.symbols
    · intro p hp
      rcases List.mem_append.mp hp with hp | hp
      · rcases List.mem_append.mp hp with hp | hp
        · exact .inr (List.mem_append_left _ hp)
        · exact .inl (hall p hp)
      · exact (hbuilt.among p hp).imp_right fun h => List.mem_append_right _ h
    · refine htables.trans hbuilt.tables (fun h => ?_) fun h ps hps => ?_
      · exact h ps List.mem_cons_self
      · exact h ps (List.mem_cons_of_mem _ hps)

end modules

section debug

variable {ps : ParserState} {u : ParserUnit}

/-- Where assertions are checked, no class can be built. -/
theorem new_klass_fails {id : Ident} {v : View} (body : List Stmt)
    {add : STable Symbol → Option (STable Symbol)} (hu : ps.u = some u)
    (htable : u.stbl = some (.shared .pkg)) (hadd : Adds add id.name v) :
    Post (fun _ => False) (new_klass id body add ps) := by
  refine (new_klass_inv body hu htable hadd).mono fun ps' h => ?_
  obtain ⟨ps₁, ps₂, _, hbody, hexit⟩ := h
  exact exit_class_fails hbody.u hexit

theorem ModuleStatement.build_plain (stmt : ModuleStatement) (hu : ps.u = some u)
    (htable : u.stbl = some (.shared .pkg)) :
    Post (fun _ => ∀ s ∈ stmt.stmts, s.IsPlain) (stmt.build ps) := by
  cases stmt with
  | Variables stmt => exact (Parser_New_Variables_built stmt hu htable).mono fun _ h => h.2
  | Function stmt => exact (Parser_New_Function_built stmt hu htable).mono fun _ h => h.2
  | ClassOrTrait stmt =>
    change Post _ (Parser_New_ClassOrTrait stmt ps)
    unfold Parser_New_ClassOrTrait
    split
    · exact Post.ok (List.forall_mem_nil _)
    · next id super body =>
      have hadd := Built.add ps (.CLASS id super body)
      exact (new_klass_fails body (hadd.u.trans hu) htable adds_class).mono fun _ h => h.elim
    · next id super body =>
      have hadd := Built.add ps (.TRAIT id super body)
      exact (new_klass_fails body (hadd.u.trans hu) htable adds_trait).mono fun _ h => h.elim
    · exact Post.error
  | error pos => exact Post.ok (List.forall_mem_nil _)

theorem build_statements_plain (stmts : List ModuleStatement) (hu : ps.u = some u)
    (htable : u.stbl = some (.shared .pkg)) :
    Post (fun _ => ∀ s ∈ stmts.flatMap ModuleStatement.stmts, s.IsPlain)
      (build_statements stmts ps) := by
  induction stmts generalizing ps with
  | nil => exact Post.ok (List.forall_mem_nil _)
  | cons stmt stmts ih =>
    refine Post.bind fun ps₁ hstmt => ?_
    have hfirst := stmt.build_plain hu htable ps₁ hstmt
    have hu₁ := ((stmt.build_built hu htable ps₁ hstmt).1).u.trans hu
    exact (ih hu₁).mono fun _ h => List.forall_mem_append.mpr ⟨hfirst, h⟩

/-- Where assertions are checked, the modules that are built have no class. -/
theorem build_symbols_plain (modules : List Module) (pkg : STable Symbol) :
    Post (fun _ => ∀ m ∈ modules, ∀ s ∈ m.stmts, s.IsPlain) (build_symbols modules pkg) := by
  induction modules generalizing pkg with
  | nil => exact Post.ok (List.forall_mem_nil _)
  | cons module modules ih =>
    refine Post.bind fun ps hbuild => Post.bind fun r hrest => Post.ok ?_
    refine List.forall_mem_cons.mpr ⟨?_, ih ps.pkg r hrest⟩
    obtain ⟨ps₁, henter, hbuild⟩ := bind_eq_ok_iff.mp hbuild
    obtain ⟨ps₂, hstatements, _⟩ := bind_eq_ok_iff.mp hbuild
    cases (enter_module_eq rfl).symm.trans henter
    exact build_statements_plain module.statements rfl rfl ps₂ hstatements

end debug

end koala.parser
