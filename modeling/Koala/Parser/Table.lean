import Koala.Parser.State
import Koala.Parser.Variable

open koala.typedesc

namespace koala.parser

set_option linter.style.nameCheck false

section asserts

theorem assert_of [Build] {p : Prop} [Decidable p] (h : p) : assert p = .ok () :=
  if_pos (.inl h)

theorem assert_eq_ok_iff {p : Prop} [Decidable p] : assert p = .ok () ↔ p := by
  unfold assert
  constructor
  · intro h
    by_contra hp
    have hnot : ¬ (p ∨ Build.NDEBUG = true) := not_or.mpr ⟨hp, Bool.false_ne_true⟩
    rw [if_neg hnot] at h
    cases h
  · exact fun hp => if_pos (.inl hp)

theorem assert_bind_ok_iff {α : Type} {p : Prop} [Decidable p] {x : Res α} {a : α} :
    (assert p >>= fun _ => x) = .ok a ↔ p ∧ x = .ok a := by
  rw [bind_eq_ok_iff]
  exact ⟨fun ⟨_, hp, hx⟩ => ⟨assert_eq_ok_iff.mp hp, hx⟩,
    fun ⟨hp, hx⟩ => ⟨(), assert_eq_ok_iff.mpr hp, hx⟩⟩

theorem deref_eq_ok_iff {α : Type} {x : Option α} {a : α} : deref x = .ok a ↔ x = some a := by
  cases x with
  | none => exact ⟨(nomatch ·), (nomatch ·)⟩
  | some b => exact ⟨fun h => congrArg some (Except.ok.inj h), fun h => by cases h; rfl⟩

end asserts

section tables

variable {stbl stbl' : STable Symbol} {name : CString} {sym : Symbol}

theorem STable_Get_name (h : STable_Get stbl name = some sym) : sym.name = name := by
  have hfound := List.find?_some h
  simpa using hfound

theorem STable_Get_mem (h : STable_Get stbl name = some sym) : sym ∈ stbl.symbols :=
  List.mem_of_find?_eq_some h

theorem STable.insert_eq_some_iff :
    stbl.insert sym = some stbl' ↔
      STable_Get stbl sym.name = none ∧ stbl' = stbl.append sym := by
  unfold STable.insert
  cases STable_Get stbl sym.name with
  | none =>
    constructor
    · intro h
      cases h
      exact ⟨rfl, rfl⟩
    · rintro ⟨_, rfl⟩
      rfl
  | some found => exact ⟨(nomatch ·), (nomatch ·.1)⟩

theorem STable_Get_append (other : CString) :
    STable_Get (stbl.append sym) other =
      (STable_Get stbl other).or (if sym.name = other then some sym else none) := by
  unfold STable_Get STable.append
  rw [List.find?_append, List.find?_singleton]
  simp

theorem STable_Get_update {f : Symbol → Symbol} (hf : ∀ sym, (f sym).name = sym.name)
    (other : CString) :
    STable_Get (stbl.update name f) other =
      (STable_Get stbl other).map fun sym => if other = name then f sym else sym := by
  unfold STable_Get STable.update
  rw [List.find?_map]
  have hpred : ((fun sym : Symbol => decide (sym.name = other)) ∘
      fun sym => if sym.name = name then f sym else sym) = fun sym => decide (sym.name = other) := by
    funext sym
    by_cases h : sym.name = name
    · simp only [Function.comp_apply, if_pos h, hf]
    · simp only [Function.comp_apply, if_neg h]
  rw [hpred]
  cases hfind : stbl.symbols.find? fun sym => decide (sym.name = other) with
  | none => rfl
  | some sym =>
    have hname : sym.name = other := by simpa using List.find?_some hfind
    rw [Option.map_some, Option.map_some, hname]

theorem STable_Add_Func_of_none {proto : TypeDesc} (hget : STable_Get stbl name = none) :
    STable_Add_Func stbl name proto =
      some (stbl.append (Symbol_New name (some proto) (.SYM_FUNC [] none))) :=
  STable.insert_eq_some_iff.mpr ⟨hget, rfl⟩

/-- A symbol that was just added is written. -/
theorem update_append (hget : STable_Get stbl sym.name = none) (f : Symbol → Symbol) :
    (stbl.append sym).update sym.name f = stbl.append (f sym) := by
  have hold : stbl.symbols.map (fun s => if s.name = sym.name then f s else s) =
      stbl.symbols := by
    refine (List.map_congr_left fun s hs => if_neg ?_).trans (List.map_id _)
    have hnone := List.find?_eq_none.mp hget s hs
    simpa using hnone
  unfold STable.update STable.append
  rw [List.map_append, hold, List.map_singleton, if_pos rfl]

end tables

section state

variable (ps : ParserState) (f : STable Symbol → STable Symbol) (g : Symbol → Symbol) (t : TableRef)
  (ref : SymRef)

/-- What no statement of a function changes. -/
def ParserState.rest (ps : ParserState) : ParserState :=
  { ps with u := none, ustack := [], pkg := STable_New, errors := [], depth := 0 }

@[simp] theorem updateTable_u : (ps.updateTable f t).u = ps.u := by
  cases t <;> rfl

@[simp] theorem updateTable_ustack : (ps.updateTable f t).ustack = ps.ustack := by
  cases t <;> rfl

@[simp] theorem updateTable_depth : (ps.updateTable f t).depth = ps.depth := by
  cases t <;> rfl

@[simp] theorem updateTable_errors : (ps.updateTable f t).errors = ps.errors := by
  cases t <;> rfl

@[simp] theorem updateTable_stmts : (ps.updateTable f t).stmts = ps.stmts := by
  cases t <;> rfl

@[simp] theorem updateTable_rest : (ps.updateTable f t).rest = ps.rest := by
  cases t <;> rfl

@[simp] theorem updateSym_u : (ps.updateSym ref g).u = ps.u :=
  updateTable_u ps _ ref.stbl

@[simp] theorem updateSym_ustack : (ps.updateSym ref g).ustack = ps.ustack :=
  updateTable_ustack ps _ ref.stbl

@[simp] theorem updateSym_depth : (ps.updateSym ref g).depth = ps.depth :=
  updateTable_depth ps _ ref.stbl

@[simp] theorem updateSym_errors : (ps.updateSym ref g).errors = ps.errors :=
  updateTable_errors ps _ ref.stbl

@[simp] theorem updateSym_stmts : (ps.updateSym ref g).stmts = ps.stmts :=
  updateTable_stmts ps _ ref.stbl

@[simp] theorem updateSym_rest : (ps.updateSym ref g).rest = ps.rest :=
  updateTable_rest ps _ ref.stbl

end state

section fields

@[simp] theorem Symbol.setCode_name (b : CodeBlock) (sym : Symbol) :
    (sym.setCode b).name = sym.name := by
  unfold Symbol.setCode
  split <;> rfl

@[simp] theorem Symbol.setCode_kind (b : CodeBlock) (sym : Symbol) :
    (sym.setCode b).kind = sym.kind := by
  unfold Symbol.setCode
  split
  · next h => rw [Symbol.kind, Symbol.kind, h]; rfl
  · rfl

end fields

/-- What a symbol is: its kind and, of a function, its variables and its code. -/
structure View where
  kind : SymKind
  func : Option (List LocVar × Option CodeBlock)

def Symbol.func (sym : Symbol) : Option (List LocVar × Option CodeBlock) :=
  match sym.data with
  | .SYM_FUNC locvec code => some (locvec, code)
  | _ => none

def Symbol.view (sym : Symbol) : View := ⟨sym.kind, sym.func⟩

/-- The symbol that a reference is to. -/
def lookup (pkg : STable Symbol) (ref : SymRef) : Option Symbol :=
  match ref.stbl with
  | .pkg => STable_Get pkg ref.name
  | .klass name =>
    ((STable_Get pkg name).bind Symbol.stbl).bind fun stbl => STable_Get stbl ref.name

def viewOf (pkg : STable Symbol) (ref : SymRef) : Option View := (lookup pkg ref).map Symbol.view

section views

theorem getSym_iff {ps : ParserState} {ref : SymRef} {sym : Symbol} :
    ps.getSym ref = .ok sym ↔ lookup ps.pkg ref = some sym := by
  unfold ParserState.getSym
  rw [bind_eq_ok_iff]
  obtain ⟨stbl | name, n⟩ := ref
  · exact ⟨fun ⟨_, hstbl, hget⟩ => Except.ok.inj hstbl ▸ deref_eq_ok_iff.mp hget,
      fun hget => ⟨ps.pkg, rfl, deref_eq_ok_iff.mpr hget⟩⟩
  · unfold lookup
    rw [Option.bind_eq_some_iff]
    exact ⟨fun ⟨stbl, hstbl, hget⟩ => ⟨stbl, deref_eq_ok_iff.mp hstbl, deref_eq_ok_iff.mp hget⟩,
      fun ⟨stbl, hstbl, hget⟩ => ⟨stbl, deref_eq_ok_iff.mpr hstbl, deref_eq_ok_iff.mpr hget⟩⟩

@[simp] theorem Symbol.setStbl_name (sym : Symbol) (stbl : STable Symbol) :
    (sym.setStbl stbl).name = sym.name := by
  unfold Symbol.setStbl
  split <;> rfl

theorem Symbol.setStbl_view (sym : Symbol) (stbl : STable Symbol) :
    (sym.setStbl stbl).view = sym.view := by
  unfold Symbol.setStbl Symbol.view Symbol.kind Symbol.func
  split
  · next h => rw [h]; rfl
  · next h => rw [h]; rfl
  · rfl

theorem Symbol.setStbl_stbl {sym : Symbol} {stbl stbl' : STable Symbol}
    (h : sym.stbl = some stbl) : (sym.setStbl stbl').stbl = some stbl' := by
  unfold Symbol.stbl at h
  unfold Symbol.setStbl
  split at h
  · rfl
  · rfl
  · cases h

/-- The table of a class is written. -/
def Symbol.mapStbl (f : STable Symbol → STable Symbol) (sym : Symbol) : Symbol :=
  match sym.stbl with
  | none => sym
  | some stbl => sym.setStbl (f stbl)

theorem Symbol.mapStbl_name (f : STable Symbol → STable Symbol) (sym : Symbol) :
    (sym.mapStbl f).name = sym.name := by
  unfold Symbol.mapStbl
  split
  · rfl
  · exact sym.setStbl_name _

theorem Symbol.mapStbl_view (f : STable Symbol → STable Symbol) (sym : Symbol) :
    (sym.mapStbl f).view = sym.view := by
  unfold Symbol.mapStbl
  split
  · rfl
  · exact sym.setStbl_view _

theorem Symbol.mapStbl_stbl (f : STable Symbol → STable Symbol) (sym : Symbol) :
    (sym.mapStbl f).stbl = sym.stbl.map f := by
  unfold Symbol.mapStbl
  split
  · next h => rw [h]; rfl
  · next h => rw [h, Symbol.setStbl_stbl h]; rfl

/-- A write that a symbol keeps its name and its table through, and that
changes its view by `h`. -/
structure Writes (f : Symbol → Symbol) (h : View → View) : Prop where
  name : ∀ sym, (f sym).name = sym.name
  stbl : ∀ sym, (f sym).stbl = sym.stbl
  view : ∀ sym, (f sym).view = h sym.view

variable {f : Symbol → Symbol} {h : View → View}

theorem STable_Get_update_view (hname : ∀ sym, (f sym).name = sym.name)
    (hview : ∀ sym, (f sym).view = h sym.view) (stbl : STable Symbol) (name other : CString) :
    (STable_Get (stbl.update name f) other).map Symbol.view =
      ((STable_Get stbl other).map Symbol.view).map (if other = name then h else id) := by
  rw [STable_Get_update hname, Option.map_map, Option.map_map]
  congr 1
  funext sym
  simp only [Function.comp_apply]
  split
  · exact hview sym
  · rfl

theorem STable_Get_update_stbl (hname : ∀ sym, (f sym).name = sym.name)
    {g : STable Symbol → STable Symbol} (hstbl : ∀ sym, (f sym).stbl = sym.stbl.map g)
    (stbl : STable Symbol) (name other : CString) :
    (STable_Get (stbl.update name f) other).bind Symbol.stbl =
      ((STable_Get stbl other).bind Symbol.stbl).map (if other = name then g else id) := by
  rw [STable_Get_update hname, Option.bind_map, Option.map_bind]
  congr 1
  funext sym
  simp only [Function.comp_apply]
  split
  · exact hstbl sym
  · rw [Option.map_id, id]

/-- Writing the symbol `ref` changes its view only. -/
theorem viewOf_updateSym (hf : Writes f h) (ps : ParserState) (ref ref' : SymRef) :
    viewOf (ps.updateSym ref f).pkg ref' =
      (viewOf ps.pkg ref').map (if ref' = ref then h else id) := by
  obtain ⟨table, name⟩ := ref
  obtain ⟨table', name'⟩ := ref'
  cases table with
  | pkg =>
    cases table' with
    | pkg =>
      simp only [SymRef.mk.injEq, true_and]
      exact STable_Get_update_view hf.name hf.view ps.pkg name name'
    | klass c' =>
      have hkeep : ∀ sym, (f sym).stbl = sym.stbl.map id := fun sym => by
        rw [hf.stbl sym, Option.map_id, id]
      have hget := STable_Get_update_stbl hf.name hkeep ps.pkg name c'
      simp only [ite_self, Option.map_id, id] at hget
      simp only [SymRef.mk.injEq, reduceCtorEq, false_and, if_false, Option.map_id, id]
      exact congrArg (fun t => (t.bind fun stbl => STable_Get stbl name').map Symbol.view) hget
  | klass c =>
    have hpkg : (ps.updateSym ⟨.klass c, name⟩ f).pkg =
        ps.pkg.update c (Symbol.mapStbl fun stbl => stbl.update name f) := rfl
    rw [hpkg]
    cases table' with
    | pkg =>
      have hkeep : ∀ sym, (Symbol.mapStbl (fun stbl => stbl.update name f) sym).view =
        id sym.view := Symbol.mapStbl_view _
      have hget := STable_Get_update_view (Symbol.mapStbl_name _) hkeep ps.pkg c name'
      simp only [ite_self, Option.map_id, id] at hget
      simp only [SymRef.mk.injEq, reduceCtorEq, false_and, if_false, Option.map_id, id]
      exact hget
    | klass c' =>
      have hget := STable_Get_update_stbl (Symbol.mapStbl_name _)
        (Symbol.mapStbl_stbl fun stbl => stbl.update name f) ps.pkg c c'
      simp only [SymRef.mk.injEq, TableRef.klass.injEq]
      unfold viewOf lookup
      dsimp only
      rw [hget]
      cases (STable_Get ps.pkg c').bind Symbol.stbl with
      | none => rfl
      | some stbl =>
        by_cases hc : c' = c
        · simp only [hc, true_and]
          exact STable_Get_update_view hf.name hf.view stbl name name'
        · simp [hc]

end views

section writes

def View.addVars (vars : List LocVar) (v : View) : View :=
  { v with func := v.func.map fun d => (d.1 ++ vars, d.2) }

def View.setCode (b : CodeBlock) (v : View) : View :=
  { v with func := v.func.map fun d => (d.1, some b) }

theorem View.addVars_nil : View.addVars [] = id := by
  funext v
  cases v with
  | mk kind func => cases func <;> simp [View.addVars]

theorem View.addVars_comp (vars vars' : List LocVar) :
    View.addVars vars' ∘ View.addVars vars = View.addVars (vars ++ vars') := by
  funext v
  cases v with
  | mk kind func => cases func <;> simp [View.addVars]

theorem Writes.keeps {f : Symbol → Symbol} (hdata : ∀ sym, (f sym).data = sym.data)
    (hname : ∀ sym, (f sym).name = sym.name) : Writes f id where
  name := hname
  stbl sym := by rw [Symbol.stbl, hdata, Symbol.stbl]
  view sym := by rw [Symbol.view, Symbol.kind, Symbol.func, hdata]; rfl

theorem addLocvar_writes (var : LocVar) : Writes (Symbol.addLocvar var) (View.addVars [var]) := by
  constructor <;> rintro ⟨_, _, _, _, data⟩ <;> cases data <;> rfl

theorem setCode_writes (b : CodeBlock) : Writes (Symbol.setCode b) (View.setCode b) := by
  constructor <;> rintro ⟨_, _, _, _, data⟩ <;> cases data <;> rfl

theorem setDesc_writes (desc : Option TypeDesc) :
    Writes (fun sym : Symbol => { sym with desc }) id :=
  .keeps (fun _ => rfl) fun _ => rfl

theorem setValue_writes (value : Option ConstValue) : Writes (Symbol.setValue value) id := by
  constructor <;> rintro ⟨_, _, _, _, data⟩ <;> cases data <;> rfl

end writes

end koala.parser
