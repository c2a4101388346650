import Koala.Parser.Body

open koala.typedesc

namespace koala.parser

set_option linter.style.nameCheck false

section names

variable (ps : ParserState)

/-- The symbol of a name in the table of a unit. -/
def ParserState.symbol (u : ParserUnit) (name : CString) : Option Symbol := do
  let table ← u.stbl
  let stbl ← ps.unitTable table
  STable_Get stbl name

/-- The symbol of a name: that of the current scope, of a scope above,
of an import, or of an import with a dot. -/
def resolve (name : CString) : Option (Symbol × Where) := do
  let u ← ps.u
  ((ps.symbol u name).map fun sym => (sym, Where.CURRENT_SCOPE)).or
    (((ps.ustack.findSome? fun uu => ps.symbol uu name).map fun sym => (sym, Where.UP_SCOPE)).or
      (((STable_Get ps.extstbl name).map fun sym => (sym, Where.CURRENT_SCOPE)).or
        ((ps.extdots.find? fun ref => ref.1 = name).map fun ref => (ref.2, Where.CURRENT_SCOPE))))

/-- A unit whose table is there, and that code can go to. -/
structure ParserUnit.Open (ps : ParserState) (u : ParserUnit) : Prop where
  table : ∀ t, u.stbl = some (.shared t) → (ps.table t).isSome = true
  block : u.block.isSome = true
  jmps : u.jmps = 0
  sym : u.scope = .SCOPE_BLOCK → u.sym = none

/-- All units are open, the current one and those above it. -/
def AllOpen : Prop := ∀ u ∈ ps.u.toList ++ ps.ustack, u.Open ps

/-- The symbol of a function, with the types of its parameters and results. -/
def Declared (ref : SymRef) : Prop :=
  ∃ sym arg ret, ps.getSym ref = .ok sym ∧ sym.kind = .SYM_FUNC ∧ sym.desc = some (.proto arg ret)

end names

section resolve

variable {ps : ParserState} {u : ParserUnit} {name : CString}

theorem ParserUnit.Open.get (h : u.Open ps) (name : CString) :
    ps.get u name = .ok (ps.symbol u name) := by
  unfold ParserState.get ParserState.symbol
  cases hstbl : u.stbl with
  | none => rfl
  | some table =>
    cases table with
    | own stbl => rfl
    | shared t =>
      obtain ⟨stbl, htable⟩ := Option.isSome_iff_exists.mp (h.table t hstbl)
      change (deref (ps.table t) >>= fun stbl => .ok (STable_Get stbl name)) =
        .ok ((ps.table t).bind fun stbl => STable_Get stbl name)
      rw [htable]
      rfl

/-- The scopes above are searched from the innermost on. -/
theorem find_up_eq (name : CString) {ustack : List ParserUnit} (h : ∀ uu ∈ ustack, uu.Open ps) :
    ∃ up, find_up ps name ustack = .ok up ∧
      up.map Prod.fst = ustack.findSome? fun uu => ps.symbol uu name := by
  induction ustack with
  | nil => exact ⟨none, rfl, rfl⟩
  | cons uu ustack ih =>
    rw [List.forall_mem_cons] at h
    rw [find_up, h.1.get name, ok_bind, List.findSome?_cons]
    cases ps.symbol uu name with
    | none => exact ih h.2
    | some sym => exact ⟨some (sym, uu.scope), rfl, rfl⟩

/-- What parsing an identifier gives. -/
theorem Parse_Ident_Expr_of_resolve (hu : ps.u = some u) (hopen : AllOpen ps) (name : CString)
    (pos : Position) :
    match resolve ps name with
    | some (sym, w) => ∃ scope, Parse_Ident_Expr ps name pos =
        .ok (⟨sym.desc, some sym, none, some (w, scope)⟩, ps)
    | none => Parse_Ident_Expr ps name pos =
        .ok (⟨none, none, none, none⟩, Syntax_Error ps pos (.no_symbol name)) := by
  unfold AllOpen at hopen
  rw [hu, Option.toList_some, List.singleton_append, List.forall_mem_cons] at hopen
  obtain ⟨up, hup, hfst⟩ := find_up_eq name hopen.2
  have hget := hopen.1.get name
  cases hsym : ps.symbol u name with
  | some sym =>
    have hresolve : resolve ps name = some (sym, .CURRENT_SCOPE) := by simp [resolve, hu, hsym]
    rw [hresolve]
    exact ⟨u.scope, by simp [Parse_Ident_Expr, hu, deref, hget, hsym]⟩
  | none =>
    cases up with
    | some found =>
      obtain ⟨sym, scope⟩ := found
      have hresolve : resolve ps name = some (sym, .UP_SCOPE) := by
        simp [resolve, hu, hsym, ← hfst]
      rw [hresolve]
      exact ⟨scope, by simp [Parse_Ident_Expr, hu, deref, hget, hsym, hup]⟩
    | none =>
      cases hext : STable_Get ps.extstbl name with
      | some sym =>
        have hresolve : resolve ps name = some (sym, .CURRENT_SCOPE) := by
          simp [resolve, hu, hsym, ← hfst, hext]
        rw [hresolve]
        exact ⟨u.scope, by simp [Parse_Ident_Expr, hu, deref, hget, hsym, hup, hext]⟩
      | none =>
        cases hdot : ps.extdots.find? fun ref => ref.1 = name with
        | some found =>
          obtain ⟨dot, sym⟩ := found
          have hresolve : resolve ps name = some (sym, .CURRENT_SCOPE) := by
            simp [resolve, hu, hsym, ← hfst, hext, hdot]
          rw [hresolve]
          exact ⟨u.scope, by simp [Parse_Ident_Expr, hu, deref, hget, hsym, hup, hext, hdot]⟩
        | none =>
          have hresolve : resolve ps name = none := by
            simp [resolve, hu, hsym, ← hfst, hext, hdot]
          rw [hresolve]
          simp [Parse_Ident_Expr, hu, deref, hget, hsym, hup, hext, hdot]

end resolve

section tables

variable {ps ps' : ParserState}

/-- The tables are still there, and the functions still declared. -/
structure Keeps (ps ps' : ParserState) : Prop where
  table : ∀ t, (ps.table t).isSome = true → (ps'.table t).isSome = true
  declared : ∀ ref, Declared ps ref → Declared ps' ref

theorem Keeps.trans {ps₁ : ParserState} (h : Keeps ps ps₁) (h' : Keeps ps₁ ps') : Keeps ps ps' where
  table t ht := h'.table t (h.table t ht)
  declared ref href := h'.declared ref (h.declared ref href)

theorem table_of_pkg (hpkg : ps'.pkg = ps.pkg) (t : TableRef) : ps'.table t = ps.table t := by
  cases t with
  | pkg => exact congrArg some hpkg
  | klass name => exact congrArg (fun pkg => (STable_Get pkg name).bind Symbol.stbl) hpkg

theorem Keeps.of_pkg (hpkg : ps'.pkg = ps.pkg) : Keeps ps ps' where
  table t ht := by rwa [table_of_pkg hpkg]
  declared ref := by
    rintro ⟨sym, arg, ret, hget, hkind, hdesc⟩
    rw [getSym_iff, ← hpkg, ← getSym_iff] at hget
    exact ⟨sym, arg, ret, hget, hkind, hdesc⟩

theorem Symbol.mapStbl_desc (f : STable Symbol → STable Symbol) (sym : Symbol) :
    (sym.mapStbl f).desc = sym.desc := by
  unfold Symbol.mapStbl Symbol.setStbl
  split
  · rfl
  · split <;> rfl

theorem Symbol.mapStbl_kind (f : STable Symbol → STable Symbol) (sym : Symbol) :
    (sym.mapStbl f).kind = sym.kind := congrArg View.kind (sym.mapStbl_view f)

theorem Symbol.addLocvar_kind (var : LocVar) (sym : Symbol) :
    (sym.addLocvar var).kind = sym.kind := congrArg View.kind ((addLocvar_writes var).view sym)

theorem Symbol.addLocvar_desc (var : LocVar) (sym : Symbol) :
    (sym.addLocvar var).desc = sym.desc := by
  unfold Symbol.addLocvar
  split <;> rfl

/-- Two symbols of one kind and one type. -/
def Alike (sym sym' : Symbol) : Prop := sym'.kind = sym.kind ∧ sym'.desc = sym.desc

theorem STable_Get_update_alike {stbl : STable Symbol} {f : Symbol → Symbol} {name other : CString}
    {sym : Symbol} (hname : ∀ sym, (f sym).name = sym.name) (hf : ∀ sym, Alike sym (f sym))
    (hget : STable_Get stbl other = some sym) :
    ∃ sym', STable_Get (stbl.update name f) other = some sym' ∧ Alike sym sym' := by
  rw [STable_Get_update hname, hget, Option.map_some]
  split
  · exact ⟨f sym, rfl, hf sym⟩
  · exact ⟨sym, rfl, rfl, rfl⟩

/-- A variable is listed in the symbol of a function. -/
theorem Keeps.addLocvar (ps : ParserState) (ref : SymRef) (var : LocVar) :
    Keeps ps (ps.updateSym ref (Symbol.addLocvar var)) := by
  have hwrites := addLocvar_writes var
  have halike : ∀ sym : Symbol, Alike sym (sym.addLocvar var) := fun sym =>
    ⟨sym.addLocvar_kind var, sym.addLocvar_desc var⟩
  obtain ⟨table, name⟩ := ref
  -- the table of a class is there, and what stands in it is what stood in it
  have hstbl : ∀ c stbl, (STable_Get ps.pkg c).bind Symbol.stbl = some stbl →
      ∃ stbl', (STable_Get (ps.updateSym ⟨table, name⟩ (Symbol.addLocvar var)).pkg c).bind Symbol.stbl =
        some stbl' ∧ ∀ n sym, STable_Get stbl n = some sym →
          ∃ sym', STable_Get stbl' n = some sym' ∧ Alike sym sym' := by
    intro c stbl hc
    cases table with
    | pkg =>
      have hkeep : ∀ sym : Symbol, (sym.addLocvar var).stbl = sym.stbl.map id := fun sym => by
        rw [hwrites.stbl sym, Option.map_id, id]
      have hget := STable_Get_update_stbl hwrites.name hkeep ps.pkg name c
      rw [ite_self, Option.map_id, id, hc] at hget
      exact ⟨stbl, hget, fun n sym hn => ⟨sym, hn, rfl, rfl⟩⟩
    | klass c₀ =>
      have hget := STable_Get_update_stbl (Symbol.mapStbl_name _)
        (Symbol.mapStbl_stbl fun stbl => stbl.update name (Symbol.addLocvar var)) ps.pkg c₀ c
      rw [hc, Option.map_some] at hget
      refine ⟨_, hget, fun n sym hn => ?_⟩
      split
      · exact STable_Get_update_alike hwrites.name halike hn
      · exact ⟨sym, hn, rfl, rfl⟩
  refine ⟨fun t ht => ?_, ?_⟩
  · cases t with
    | pkg => rfl
    | klass c =>
      obtain ⟨stbl, hc⟩ := Option.isSome_iff_exists.mp ht
      obtain ⟨stbl', hstbl', -⟩ := hstbl c stbl hc
      exact Option.isSome_iff_exists.mpr ⟨stbl', hstbl'⟩
  · rintro ⟨table', name'⟩ ⟨sym, arg, ret, hget, hkind, hdesc⟩
    have hfound : ∃ sym', lookup (ps.updateSym ⟨table, name⟩ (Symbol.addLocvar var)).pkg
        ⟨table', name'⟩ = some sym' ∧ Alike sym sym' := by
      rw [getSym_iff] at hget
      cases table' with
      | pkg =>
        cases table with
        | pkg => exact STable_Get_update_alike hwrites.name halike hget
        | klass c =>
          exact STable_Get_update_alike (Symbol.mapStbl_name _)
            (fun sym => ⟨sym.mapStbl_kind _, sym.mapStbl_desc _⟩) hget
      | klass c =>
        obtain ⟨stbl, hc, hn⟩ := Option.bind_eq_some_iff.mp hget
        obtain ⟨stbl', hc', hsame⟩ := hstbl c stbl hc
        obtain ⟨sym', hn', hboth⟩ := hsame name' sym hn
        exact ⟨sym', Option.bind_eq_some_iff.mpr ⟨stbl', hc', hn'⟩, hboth⟩
    obtain ⟨sym', hget', hkind', hdesc'⟩ := hfound
    exact ⟨sym', arg, ret, getSym_iff.mpr hget', hkind'.trans hkind, hdesc'.trans hdesc⟩

end tables

section units

variable {ps ps' : ParserState} {u u' : ParserUnit}

/-- A unit whose code and whose own table were written. -/
structure ParserUnit.Written (u u' : ParserUnit) : Prop where
  scope : u'.scope = u.scope
  sym : u'.sym = u.sym
  table : ∀ t, u'.stbl = some (.shared t) → u.stbl = some (.shared t)
  block : u.block.isSome = true → u'.block.isSome = true
  jmps : u'.jmps = u.jmps

theorem ParserUnit.Written.refl (u : ParserUnit) : u.Written u :=
  ⟨rfl, rfl, fun _ h => h, fun h => h, rfl⟩

theorem ParserUnit.Open.keep (h : u.Open ps) (hwritten : u.Written u') (hkeeps : Keeps ps ps') :
    u'.Open ps' where
  table t ht := hkeeps.table t (h.table t (hwritten.table t ht))
  block := hwritten.block h.block
  jmps := hwritten.jmps.trans h.jmps
  sym hscope := hwritten.sym.trans (h.sym (hwritten.scope.symm.trans hscope))

theorem AllOpen.unit (h : AllOpen ps) (hu : ps.u = some u) : u.Open ps :=
  h u (by rw [hu]; exact List.mem_cons_self)

theorem AllOpen.above (h : AllOpen ps) {uu : ParserUnit} (huu : uu ∈ ps.ustack) : uu.Open ps :=
  h uu (List.mem_append_right _ huu)

/-- The current unit is written. -/
theorem AllOpen.write (h : AllOpen ps) (hu : ps.u = some u) (hu' : ps'.u = some u')
    (hwritten : u.Written u') (hstack : ps'.ustack = ps.ustack) (hkeeps : Keeps ps ps') :
    AllOpen ps' := by
  unfold AllOpen
  rw [hu', hstack, Option.toList_some, List.singleton_append, List.forall_mem_cons]
  exact ⟨(h.unit hu).keep hwritten hkeeps, fun uu huu => (h.above huu).keep (.refl uu) hkeeps⟩

end units

/-- A state in the function `ref`, or in the `n`-th block in it. -/
structure InBody (ref : SymRef) (outer : List ParserUnit) (n : Nat) (ps : ParserState) : Prop where
  within : Within ref outer n ps
  units : AllOpen ps
  declared : Declared ps ref

section steps

variable {ref : SymRef} {outer : List ParserUnit} {n : Nat} {ps ps' : ParserState}

theorem InBody.enter (h : InBody ref outer n ps) (henter : enter_block ps = .ok ps') :
    InBody ref outer (n + 1) ps' := by
  obtain ⟨idx, hin⟩ := h.within
  obtain ⟨hin', hpkg, -⟩ := hin.enter henter
  have hkeeps := Keeps.of_pkg hpkg
  refine ⟨⟨idx, hin'⟩, ?_, hkeeps.declared ref h.declared⟩
  have hunits := h.units
  unfold enter_block Parser_Enter_Scope at henter
  cases henter
  intro uu huu
  rcases List.mem_cons.mp huu with rfl | huu
  · exact ⟨fun t ht => (nomatch ht), rfl, rfl, fun _ => rfl⟩
  · exact (hunits uu huu).keep (.refl uu) hkeeps

theorem Inside.in_block {idx : Nat} (h : Inside ref outer idx (n + 1) ps) :
    (∃ u, ps.u = some u ∧ u.IsBlock) ∧ ps.ustack ≠ [] := by
  cases h with
  | block hu hstack hblock =>
    refine ⟨⟨_, hu, hblock⟩, fun hnil => ?_⟩
    rw [hstack] at hnil
    exact List.append_ne_nil_of_right_ne_nil _ (List.cons_ne_nil _ _) hnil

variable [Build]

theorem AllOpen.exit (h : AllOpen ps) (hu : ∃ u, ps.u = some u ∧ u.IsBlock)
    (hstack : ps.ustack ≠ []) (hexit : Parser_Exit_Scope ps = .ok ps') : AllOpen ps' := by
  obtain ⟨u, hu, hblock⟩ := hu
  cases hunits : ps.ustack with
  | nil => exact absurd hunits hstack
  | cons uu ustack =>
    obtain ⟨b, ub, -, hub, rfl⟩ := exit_block_ok hu hblock.scope hunits hexit
    have hmem : ∀ v ∈ uu :: ustack, v.Open ps := fun v hv => h.above (hunits ▸ hv)
    rw [List.forall_mem_cons] at hmem
    have hkeeps : Keeps ps { ps with
        u := some { uu with block := some (CodeBlock_Merge b ub) }
        ustack := ustack
        depth := ps.depth - 1 } := .of_pkg rfl
    intro v hv
    rcases List.mem_cons.mp hv with rfl | hv
    · exact hmem.1.keep ⟨rfl, rfl, fun _ ht => ht, fun _ => rfl, rfl⟩ hkeeps
    · exact (hmem.2 v hv).keep (.refl v) hkeeps

theorem InBody.exit (h : InBody ref outer (n + 1) ps) (hexit : Parser_Exit_Scope ps = .ok ps') :
    InBody ref outer n ps' := by
  obtain ⟨idx, hin⟩ := h.within
  obtain ⟨hin', hpkg, -⟩ := hin.exit hexit
  obtain ⟨hu, hstack⟩ := hin.in_block
  exact ⟨⟨idx, hin'⟩, h.units.exit hu hstack hexit, (Keeps.of_pkg hpkg).declared ref h.declared⟩

/-- A block can be left. -/
theorem InBody.exit_finishes (h : InBody ref outer (n + 1) ps) : Finishes (Parser_Exit_Scope ps) := by
  obtain ⟨idx, hin⟩ := h.within
  obtain ⟨⟨u, hu, hblock⟩, hstack⟩ := hin.in_block
  cases hunits : ps.ustack with
  | nil => exact absurd hunits hstack
  | cons uu ustack =>
    have hopen := h.units.unit hu
    have habove : uu.Open ps := h.units.above (hunits ▸ List.mem_cons_self)
    obtain ⟨stbl, hstbl⟩ := hblock.own
    obtain ⟨b, hb⟩ := Option.isSome_iff_exists.mp hopen.block
    obtain ⟨ub, hub⟩ := Option.isSome_iff_exists.mp habove.block
    have hunit : u = block_unit stbl b := by
      have hscope := hblock.scope
      have hsym := hopen.sym hscope
      have hjmps := hopen.jmps
      cases u
      cases hscope
      cases hsym
      cases hstbl
      cases hb
      cases hjmps
      rfl
    rw [hunit] at hu
    exact ⟨_, exit_block hu hunits hub⟩

/-- The statements of a function leave it as it is. -/
theorem Steps.inBody (h : Steps ps ps') (hin : InBody ref outer n ps) : InBody ref outer n ps' := by
  induction h generalizing n with
  | refl ps => exact hin
  | trans first rest ih ih' => exact ih' (ih hin)
  | @coded ps ps' hcode =>
    have hwithin := hin.within.steps (.coded hcode)
    obtain ⟨insts, es, -, rfl⟩ := hcode
    obtain ⟨u, hu, -⟩ := hin.within.unit
    have hkeeps : Keeps ps (ps.append insts es) := .of_pkg rfl
    refine ⟨hwithin, ?_, hkeeps.declared ref hin.declared⟩
    have hu' : (ps.append insts es).u = some (u.append insts) :=
      congrArg (Option.map fun u : ParserUnit => u.append insts) hu
    refine hin.units.write hu hu' ⟨rfl, rfl, fun _ h => h, fun h => ?_, rfl⟩ rfl hkeeps
    exact (Option.isSome_map ..).trans h
  | @returned ps u b hu hblock =>
    refine ⟨hin.within.steps (.returned hu hblock), ?_, (Keeps.of_pkg rfl).declared ref hin.declared⟩
    exact hin.units.write hu rfl ⟨rfl, rfl, fun _ h => h, fun _ => rfl, rfl⟩ rfl (.of_pkg rfl)
  | @valued ps u stbl name value hu hstbl =>
    refine ⟨hin.within.steps (.valued name value hu hstbl), ?_,
      (Keeps.of_pkg rfl).declared ref hin.declared⟩
    exact hin.units.write hu rfl ⟨rfl, rfl, fun _ h => (nomatch h), fun h => h, rfl⟩ rfl (.of_pkg rfl)
  | @declared ps u stbl stbl' ref' func id desc hu hscope hstbl hadd hsym hget hkind =>
    have hwithin := hin.within.steps (.declared id desc hu hscope hstbl hadd hsym hget hkind)
    let ps₁ : ParserState := { ps with u := some { u with stbl := some (.own stbl') } }
    have hpkg : Keeps ps ps₁ := .of_pkg rfl
    have hkeeps := hpkg.trans (.addLocvar ps₁ ref' ⟨id.name, desc, stbl.varindex⟩)
    refine ⟨hwithin, ?_, hkeeps.declared ref hin.declared⟩
    exact hin.units.write hu (updateSym_u ..) ⟨rfl, rfl, fun _ h => (nomatch h), fun h => h, rfl⟩
      (updateSym_ustack ..) hkeeps
  | @declared_block ps u f stbl stbl' fstbl pre post ref' func id desc hu hscope hstbl hstack hpre
      hf hfstbl hadd hsym hget hkind =>
    have hwithin := hin.within.steps (.declared_block id desc hu hscope hstbl hstack hpre hf hfstbl
      hadd hsym hget hkind)
    let f' : ParserUnit := { f with stbl := some (.own { fstbl with varindex := fstbl.varindex + 1 }) }
    let u' : ParserUnit := { u with
      stbl := some (.own (stbl'.update id.name (Symbol.setIndex fstbl.varindex))) }
    let ps₁ : ParserState := { ps with u := some u', ustack := pre ++ f' :: post }
    let var : LocVar := ⟨id.name, desc, fstbl.varindex⟩
    have hpkg : Keeps ps ps₁ := .of_pkg rfl
    have hkeeps := hpkg.trans (.addLocvar ps₁ ref' var)
    refine ⟨hwithin, ?_, hkeeps.declared ref hin.declared⟩
    have habove : ∀ uu ∈ pre ++ f :: post, uu.Open ps := fun uu huu => hin.units.above (hstack ▸ huu)
    have hf' : f.Written f' := ⟨rfl, rfl, fun _ h => (nomatch h), fun h => h, rfl⟩
    intro uu huu
    have huu : uu ∈ u' :: (pre ++ f' :: post) := by
      rw [updateSym_u, updateSym_ustack] at huu
      exact huu
    rcases List.mem_cons.mp huu with rfl | huu
    · exact (hin.units.unit hu).keep ⟨rfl, rfl, fun _ h => (nomatch h), fun h => h, rfl⟩ hkeeps
    rcases List.mem_append.mp huu with huu | huu
    · exact (habove uu (List.mem_append_left _ huu)).keep (.refl uu) hkeeps
    rcases List.mem_cons.mp huu with rfl | huu
    · exact (habove f (List.mem_append_right _ List.mem_cons_self)).keep hf' hkeeps
    · exact (habove uu (List.mem_append_right _ (List.mem_cons_of_mem _ huu))).keep (.refl uu) hkeeps
  | block henter hsteps hexit ih => exact (ih (hin.enter henter)).exit hexit

end steps

end koala.parser
