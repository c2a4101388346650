import Koala.Parser.Accepted

open koala.typedesc

namespace koala.parser

set_option linter.style.nameCheck false

/-- A parameter or a result, with its type. -/
structure Param where
  id : Option Ident
  type : TypeDesc

def Param.idType (p : Param) : IdType := ⟨p.id, some p.type⟩

/-- A member of a class or a trait, as the grammar gives it. -/
inductive Member where
  | field (id : Ident) (type : Option TypeDesc) (exp : Option Expr)
  | method (id : Ident) (args rets : List Param) (body : List Stmt)
  | native (id : Ident) (args rets : List Param)
  | interface (id : Ident) (args rets : List Param)

/-- What a symbol says of a declaration. -/
structure Declaration where
  name : CString
  kind : SymKind
  desc : Option TypeDesc

def Symbol.declared (sym : Symbol) : Declaration := ⟨sym.name, sym.kind, sym.desc⟩

def Param.proto (args rets : List Param) : TypeDesc := .proto (args.map type) (rets.map type)

namespace Member

def id : Member → Ident
  | field id _ _ => id
  | method id _ _ _ => id
  | native id _ _ => id
  | interface id _ _ => id

/-- The statement that stands in the body of the class. -/
def stmt : Member → Stmt
  | field id type exp => .VAR id type exp false
  | method id args rets body => .FUNC id (args.map Param.idType) (rets.map Param.idType) body
  | native id args rets => .PROTO true id (args.map Param.idType) (rets.map Param.idType)
  | interface id args rets => .PROTO false id (args.map Param.idType) (rets.map Param.idType)

/-- What the member declares. -/
def declared : Member → Declaration
  | field id type _ => ⟨id.name, .SYM_VAR, type⟩
  | method id args rets _ => ⟨id.name, .SYM_FUNC, some (Param.proto args rets)⟩
  | native id args rets => ⟨id.name, .SYM_NFUNC, some (Param.proto args rets)⟩
  | interface id args rets => ⟨id.name, .SYM_IFUNC, some (Param.proto args rets)⟩

/-- A member without a body, whose statement is of kind `PROTO_KIND`. -/
def isProto : Member → Bool
  | native .. => true
  | interface .. => true
  | _ => false

theorem declared_name (m : Member) : m.declared.name = m.id.name := by
  cases m <;> rfl

end Member

/-- The statement of a trait or a class. -/
def Stmt.klass (trait : Bool) (id : Ident) (super : List TypeDesc) (body : List Member) : Stmt :=
  if trait then .TRAIT id super (body.map Member.stmt) else .CLASS id super (body.map Member.stmt)

def klassKind (trait : Bool) : SymKind := if trait then .SYM_TRAIT else .SYM_CLASS

/-- The class is declared, and its own table holds one symbol for each member, in
their order. -/
def Registers [Build] (trait : Bool) (id : Ident) (super : List TypeDesc) (body : List Member)
    (ps : ParserState) : Prop :=
  ∃ ps' sym stbl, Parser_New_ClassOrTrait (some (.klass trait id super body)) ps = .ok ps' ∧
    STable_Get ps'.pkg id.name = some sym ∧ sym.kind = klassKind trait ∧ sym.stbl = some stbl ∧
    stbl.symbols.map Symbol.declared = body.map Member.declared

/-- A way to add a symbol that makes a declaration. -/
def AddsDeclaration (add : STable Symbol → Option (STable Symbol)) (d : Declaration) : Prop :=
  ∀ stbl, STable_Get stbl d.name = none →
    ∃ sym k, sym.declared = d ∧ add stbl = some ⟨stbl.symbols ++ [sym], k⟩

/-- The members that are declared in the scope of the class `c`. -/
structure InKlass (c : CString) (kind : SymKind) (new : List Declaration) (ps : ParserState) :
    Prop where
  u : ps.u = some (class_unit c CodeBlock_New)
  found : ∃ sym stbl, STable_Get ps.pkg c = some sym ∧ sym.kind = kind ∧ sym.stbl = some stbl ∧
    stbl.symbols.map Symbol.declared = new

section adds

variable {name : CString} {desc : Option TypeDesc}

theorem addsDeclaration_insert (data : SymData Symbol) :
    AddsDeclaration (fun stbl => stbl.insert (Symbol_New name desc data)) ⟨name, data.kind, desc⟩ :=
  fun _ hget => ⟨_, _, rfl, STable.insert_eq_some_iff.mpr ⟨hget, rfl⟩⟩

theorem addsDeclaration_var : AddsDeclaration (fun stbl => if false = true then
    STable_Add_Const stbl name desc else STable_Add_Var stbl name desc) ⟨name, .SYM_VAR, desc⟩ := by
  intro stbl hget
  refine ⟨Symbol_New name desc (.SYM_VAR stbl.varindex none), stbl.varindex + 1, rfl, ?_⟩
  change (stbl.addVar name desc fun index => .SYM_VAR index none) = _
  exact STable.addVar_eq_some_iff.mpr ⟨hget, rfl⟩

end adds

section lookup

variable {stbl : STable Symbol} {name : CString}

theorem STable_Get_declared {new : List Declaration} (hnew : stbl.symbols.map Symbol.declared = new)
    (hname : name ∉ new.map Declaration.name) : STable_Get stbl name = none := by
  unfold STable_Get
  rw [List.find?_eq_none]
  intro sym hsym heq
  apply hname
  have hmem : sym.declared ∈ new := by
    rw [← hnew]
    exact List.mem_map_of_mem hsym
  have hsame : sym.name = name := by simpa using heq
  change sym.declared.name = name at hsame
  rw [← hsame]
  exact List.mem_map_of_mem hmem

/-- What a symbol declares is not changed by where it stands. -/
theorem update_declared {f : Symbol → Symbol} (hf : ∀ sym, (f sym).declared = sym.declared) :
    (stbl.update name f).symbols.map Symbol.declared = stbl.symbols.map Symbol.declared := by
  unfold STable.update
  dsimp only
  rw [List.map_map]
  apply List.map_congr_left
  intro sym _
  rw [Function.comp_apply]
  split
  · exact hf sym
  · rfl

end lookup

section declare

variable {c : CString} {kind : SymKind} {new : List Declaration} {ps : ParserState}

/-- The table of the class is written. -/
theorem InKlass.update (h : InKlass c kind new ps) (f : STable Symbol → STable Symbol)
    {new' : List Declaration} (hf : ∀ stbl, stbl.symbols.map Symbol.declared = new →
      (f stbl).symbols.map Symbol.declared = new') :
    InKlass c kind new' (ps.updateTable f (.klass c)) where
  u := h.u
  found := by
    obtain ⟨sym, stbl, hget, hkind, hstbl, hnew⟩ := h.found
    have hget' : STable_Get (ps.updateTable f (.klass c)).pkg c = some (sym.mapStbl f) := by
      change STable_Get (ps.pkg.update c (Symbol.mapStbl f)) c = _
      rw [STable_Get_update (Symbol.mapStbl_name f), hget, Option.map_some, if_pos rfl]
    refine ⟨sym.mapStbl f, f stbl, hget', ?_, ?_, hf stbl hnew⟩
    · have hview := congrArg View.kind (Symbol.mapStbl_view f sym)
      exact hview.trans hkind
    · rw [Symbol.mapStbl_stbl, hstbl, Option.map_some]

/-- A name that is not in the table of the class is declared there. -/
theorem InKlass.declare (h : InKlass c kind new ps) {id : Ident}
    {add : STable Symbol → Option (STable Symbol)} {d : Declaration} (hadd : AddsDeclaration add d)
    (hfresh : d.name ∉ new.map Declaration.name) :
    ∃ ps', declare id add ps = .ok ps' ∧ InKlass c kind (new ++ [d]) ps' := by
  obtain ⟨csym, stbl, hget, hkind, hstbl, hnew⟩ := h.found
  have htable : ps.table (.klass c) = some stbl := by
    change (STable_Get ps.pkg c).bind Symbol.stbl = _
    rw [hget, Option.bind_some, hstbl]
  obtain ⟨sym, k, hsym, hadded⟩ := hadd stbl (STable_Get_declared hnew hfresh)
  have hadds : ps.addSym (class_unit c CodeBlock_New) add =
      .ok (some (ps.updateTable (fun _ => ⟨stbl.symbols ++ [sym], k⟩) (.klass c))) := by
    unfold ParserState.addSym
    change (deref (ps.table (.klass c)) >>= fun _ => _) = _
    rw [htable, deref, ok_bind, hadded]
  have hone : InKlass c kind (new ++ [d])
      (ps.updateTable (fun _ => ⟨stbl.symbols ++ [sym], k⟩) (.klass c)) := by
    apply h.update
    intro _ _
    rw [List.map_append, hnew, List.map_singleton, hsym]
  let f : Symbol → Symbol := fun sym => { sym with filename := some ps.filename, pos := id.pos }
  have hboth := hone.update (fun stbl => stbl.update id.name f) fun stbl' hstbl' =>
    (@update_declared _ _ f fun _ => rfl).trans hstbl'
  let ps₂ := (ps.updateTable (fun _ => ⟨stbl.symbols ++ [sym], k⟩) (.klass c)).updateTable
    (fun stbl => stbl.update id.name f) (.klass c)
  refine ⟨{ ps₂ with symbols := ps.symbols ++ [id] }, ?_, hboth.u, hboth.found⟩
  unfold koala.parser.declare
  rw [h.u, deref, ok_bind, hadds, ok_bind]
  rfl

end declare

section members

variable {c : CString} {kind : SymKind} {new : List Declaration} {ps : ParserState}

theorem __get_proto_params (args rets : List Param) :
    __get_proto (args.map Param.idType) (rets.map Param.idType) = .ok (Param.proto args rets) := by
  have htypes : ∀ params : List Param, (params.map Param.idType).mapM
      (fun idType => deref idType.type) = (.ok (params.map Param.type) : Res _) := by
    intro params
    induction params with
    | nil => rfl
    | cons p params ih =>
      rw [List.map_cons, List.mapM_cons, ih]
      rfl
  rw [__get_proto, htypes, ok_bind, htypes, ok_bind]
  rfl

variable [Build]

/-- A member that has no body is passed over, every other is declared. -/
theorem InKlass.new_member (h : InKlass c kind new ps) (m : Member)
    (hfresh : m.id.name ∉ new.map Declaration.name) (body : List Stmt) :
    ∃ ps', new_members (m.stmt :: body) ps = new_members body ps' ∧
      InKlass c kind (if m.isProto then new else new ++ [m.declared]) ps' := by
  rw [← m.declared_name] at hfresh
  cases m with
  | field id type exp =>
    obtain ⟨ps', hdeclare, hin⟩ := @InKlass.declare _ _ _ _ h id _ _ addsDeclaration_var hfresh
    refine ⟨ps', ?_, hin⟩
    rw [Member.stmt, new_members, assert_of rfl, ok_bind, __new_var, hdeclare, ok_bind]
  | method id args rets stmts =>
    obtain ⟨ps', hdeclare, hin⟩ := @InKlass.declare _ _ _ _ h id _ _ (addsDeclaration_insert (.SYM_FUNC [] none)) hfresh
    refine ⟨ps', ?_, hin⟩
    rw [Member.stmt, new_members, __parse_funcdecl, __get_proto_params, ok_bind]
    exact congrArg (· >>= new_members body) hdeclare
  | native id args rets => exact ⟨ps, rfl, h⟩
  | interface id args rets => exact ⟨ps, rfl, h⟩

/-- The members with a body and the fields are declared. -/
theorem InKlass.new_members (h : InKlass c kind new ps) (body : List Member)
    (hnodup : (new.map Declaration.name ++ body.map fun m => m.id.name).Nodup) :
    ∃ ps', koala.parser.new_members (body.map Member.stmt) ps = .ok ps' ∧
      InKlass c kind (new ++ (body.filter fun m => !m.isProto).map Member.declared) ps' := by
  induction body generalizing new ps with
  | nil => exact ⟨ps, rfl, by simpa using h⟩
  | cons m body ih =>
    rw [List.map_cons] at hnodup
    have hfresh : m.id.name ∉ new.map Declaration.name := fun hmem =>
      (List.nodup_append.mp hnodup).2.2 _ hmem _ List.mem_cons_self rfl
    obtain ⟨ps₁, hfirst, hin⟩ := h.new_member m hfresh (body.map Member.stmt)
    rw [List.map_cons, hfirst, List.filter_cons]
    cases hproto : m.isProto with
    | true =>
      rw [hproto, if_pos rfl] at hin
      exact ih hin (hnodup.sublist ((List.sublist_cons_self _ _).append_left _))
    | false =>
      rw [hproto, if_neg Bool.false_ne_true] at hin
      have hrest := ih hin (by
        rw [List.map_append, List.map_singleton, m.declared_name, List.append_assoc]
        exact hnodup)
      rw [List.append_assoc] at hrest
      exact hrest

end members

/-- How the symbol of a class or a trait is added. -/
def addKlass (trait : Bool) (name : CString) (stbl : STable Symbol) : Option (STable Symbol) :=
  if trait then STable_Add_Trait stbl name else STable_Add_Class stbl name

section klass

variable {ps ps' : ParserState} {u : ParserUnit} {id : Ident} {trait : Bool}

theorem addKlass_of_none {stbl : STable Symbol} {name : CString}
    (hget : STable_Get stbl name = none) :
    ∃ sym, addKlass trait name stbl = some (stbl.append sym) ∧ sym.name = name ∧
      sym.kind = klassKind trait ∧ sym.stbl = some STable_New := by
  cases trait with
  | false => exact ⟨_, STable.insert_eq_some_iff.mpr ⟨hget, rfl⟩, rfl, rfl, rfl⟩
  | true => exact ⟨_, STable.insert_eq_some_iff.mpr ⟨hget, rfl⟩, rfl, rfl, rfl⟩

/-- The class is declared in the package, with an empty table. -/
theorem declare_klass (hu : ps.u = some u) (htable : u.stbl = some (.shared .pkg))
    (hget : STable_Get ps.pkg id.name = none) :
    ∃ ps' sym, declare id (addKlass trait id.name) ps = .ok ps' ∧ ps'.u = some u ∧
      STable_Get ps'.pkg id.name = some sym ∧ sym.kind = klassKind trait ∧
      sym.stbl = some STable_New := by
  obtain ⟨sym, hadd, hname, hkind, hstbl⟩ := @addKlass_of_none trait ps.pkg id.name hget
  have hadded : ps.addSym u (addKlass trait id.name) =
      .ok (some { ps with pkg := ps.pkg.append sym }) := by
    have hpkg : ps.unitTable (.shared .pkg) = some ps.pkg := rfl
    simp only [ParserState.addSym, htable, deref, ok_bind, hpkg, hadd]
    rfl
  let f : Symbol → Symbol := fun sym => { sym with filename := some ps.filename, pos := id.pos }
  have hupdate : ParserState.updateUnitSym { ps with pkg := ps.pkg.append sym } u id.name f =
      .ok { ps with pkg := (ps.pkg.append sym).update id.name f } := by
    unfold ParserState.updateUnitSym
    rw [htable]
    rfl
  have hfound : STable_Get ((ps.pkg.append sym).update id.name f) id.name = some (f sym) := by
    have hf : ∀ sym, (f sym).name = sym.name := fun _ => rfl
    rw [STable_Get_update hf, STable_Get_append, hget, if_pos hname, Option.none_or,
      Option.map_some, if_pos rfl]
  refine ⟨{ ps with
    pkg := (ps.pkg.append sym).update id.name f
    symbols := ps.symbols ++ [id] }, f sym, ?_, hu, hfound, hkind, hstbl⟩
  unfold declare
  rw [hu, deref, ok_bind, hadded, ok_bind]
  dsimp only
  rw [hupdate, ok_bind]
  dsimp only
  rw [hu]

variable [Build]

/-- A class whose name is declared already leads through a null pointer. -/
theorem new_klass_redeclared {sym : Symbol} {body : List Stmt}
    {add : STable Symbol → Option (STable Symbol)} (hu : ps.u = some u)
    (htable : u.stbl = some (.shared .pkg)) (hget : STable_Get ps.pkg id.name = some sym) :
    new_klass id body add ps ≠ .ok ps' := by
  intro hrun
  obtain ⟨u', hu', hrun⟩ := bind_eq_ok_iff.mp hrun
  obtain ⟨before, hbefore, hrun⟩ := bind_eq_ok_iff.mp hrun
  obtain ⟨ps₁, _, hrun⟩ := bind_eq_ok_iff.mp hrun
  rw [hu, deref_eq_ok_iff] at hu'
  cases hu'
  have hsome : before = some sym := by
    unfold ParserState.get at hbefore
    rw [htable] at hbefore
    exact (Except.ok.inj hbefore).symm.trans hget
  subst hsome
  cases hrun

theorem assert_release (hrelease : Build.NDEBUG = true) (p : Prop) [Decidable p] :
    assert p = .ok () := if_pos (.inr hrelease)

/-- Where no assertion is checked, a class is left. -/
theorem exit_class_release (hrelease : Build.NDEBUG = true) {c : CString} {b : CodeBlock}
    (hu : ps.u = some (class_unit c b)) {sym : Symbol} (hget : STable_Get ps.pkg c = some sym) :
    ∃ ps', Parser_Exit_Scope ps = .ok ps' ∧ ps'.pkg = ps.pkg := by
  have hsym : ps.getSym ⟨.pkg, c⟩ = .ok sym := getSym_iff.mpr hget
  have hmerge : merge_parser_unit ps = merge_class ps (class_unit c b) := by
    unfold merge_parser_unit
    rw [hu]
    rfl
  refine ⟨restore_unit { ps with u := some ⟨.SCOPE_CLASS, none, none, some b, 0⟩ }, ?_, rfl⟩
  unfold Parser_Exit_Scope
  rw [hmerge, merge_class]
  simp only [assert_release hrelease, ok_bind, deref, hsym, free_parser_unit]

/-- A new class is declared, and then its members with a body and its fields. -/
theorem new_klass_ok (hrelease : Build.NDEBUG = true) (hu : ps.u = some u)
    (htable : u.stbl = some (.shared .pkg)) (hget : STable_Get ps.pkg id.name = none)
    (body : List Member) (hnodup : (body.map fun m => m.id.name).Nodup) :
    ∃ ps' sym stbl, new_klass id (body.map Member.stmt) (addKlass trait id.name) ps = .ok ps' ∧
      STable_Get ps'.pkg id.name = some sym ∧ sym.kind = klassKind trait ∧ sym.stbl = some stbl ∧
      stbl.symbols.map Symbol.declared =
        (body.filter fun m => !m.isProto).map Member.declared := by
  obtain ⟨ps₁, csym, hdeclare, hu₁, hfound, hkind, hstbl⟩ := @declare_klass ps u id trait hu htable hget
  have hentered : (Parser_Enter_Scope ps₁ .SCOPE_CLASS).setUnit (some ⟨.pkg, id.name⟩)
      (some (.shared (.klass id.name))) =
      .ok (ps₁.entered u (class_unit id.name CodeBlock_New)) := by
    unfold Parser_Enter_Scope
    rw [hu₁]
    rfl
  have hin : InKlass id.name (klassKind trait) []
      (ps₁.entered u (class_unit id.name CodeBlock_New)) :=
    ⟨rfl, csym, STable_New, hfound, hkind, hstbl, rfl⟩
  obtain ⟨ps₂, hmembers, hin₂⟩ := hin.new_members body (by simpa using hnodup)
  obtain ⟨sym, stbl, hfound₂, hkind₂, hstbl₂, hnew⟩ := hin₂.found
  obtain ⟨ps', hexit, hpkg⟩ := exit_class_release hrelease hin₂.u hfound₂
  refine ⟨ps', sym, stbl, ?_, hpkg ▸ hfound₂, hkind₂, hstbl₂, hnew⟩
  have hbefore : ps.get u id.name = .ok none := by
    unfold ParserState.get
    rw [htable]
    exact congrArg Except.ok hget
  unfold new_klass
  rw [hu, deref, ok_bind, hbefore, ok_bind, hdeclare, ok_bind]
  dsimp only
  rw [hentered, ok_bind, hmembers, ok_bind, hexit]

theorem Parser_New_ClassOrTrait_klass (super : List TypeDesc) (body : List Member) :
    Parser_New_ClassOrTrait (some (.klass trait id super body)) ps =
      new_klass id (body.map Member.stmt) (addKlass trait id.name)
        (__add_stmt ps (.klass trait id super body)) := by
  cases trait <;> rfl

end klass

section registers

variable [build : Build] {ps : ParserState} {u : ParserUnit} {id : Ident} {trait : Bool}
  {body : List Member}

end registers

section instances

/-- The state in which the statements of a module are built. -/
def in_module : ParserState :=
  { New_Parser STable_New (module_of []) with
    u := some (module_unit CodeBlock_New)
    depth := 1 }

end instances

end koala.parser
