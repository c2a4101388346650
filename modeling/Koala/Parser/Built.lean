import Koala.Parser.Members
import Koala.Parser.Module

open koala.typedesc

namespace koala.parser

set_option linter.style.nameCheck false

/-- A way to add a symbol of one name, whose own table is empty if it has one. -/
structure Adds (add : STable Symbol → Option (STable Symbol)) (name : CString) (v : View) :
    Prop where
  added : ∀ stbl stbl', add stbl = some stbl' → ∃ sym k, sym.name = name ∧ sym.view = v ∧
    (∀ table, sym.stbl = some table → table.symbols = []) ∧ STable_Get stbl name = none ∧
    stbl' = ⟨stbl.symbols ++ [sym], k⟩
  found : ∀ stbl, add stbl = none → (STable_Get stbl name).isSome = true

section adds

variable {name : CString} {desc : Option TypeDesc}

theorem adds_insert {data : SymData Symbol}
    (hempty : ∀ table, (Symbol_New name desc data).stbl = some table → table.symbols = []) :
    Adds (fun stbl => stbl.insert (Symbol_New name desc data)) name
      (Symbol_New name desc data).view where
  added stbl stbl' h := by
    obtain ⟨hget, rfl⟩ := STable.insert_eq_some_iff.mp h
    exact ⟨_, _, rfl, rfl, hempty, hget, rfl⟩
  found stbl h := by
    unfold STable.insert at h
    split at h
    · next hsome => exact hsome
    · cases h

theorem adds_addVar {data : Nat → SymData Symbol} {v : View}
    (hview : ∀ index, (Symbol_New name desc (data index)).view = v)
    (hnone : ∀ index, (Symbol_New name desc (data index)).stbl = none) :
    Adds (fun stbl => stbl.addVar name desc data) name v where
  added stbl stbl' h := by
    obtain ⟨hget, rfl⟩ := STable.addVar_eq_some_iff.mp h
    refine ⟨_, _, rfl, hview _, fun table htable => ?_, hget, rfl⟩
    rw [hnone] at htable
    cases htable
  found stbl h := by
    unfold STable.addVar at h
    rw [Option.bind_eq_bind, Option.bind_eq_none_iff] at h
    cases hget : STable_Get stbl name with
    | some sym => rfl
    | none => exact absurd (h _ (STable.insert_eq_some_iff.mpr ⟨hget, rfl⟩)) (nomatch ·)

theorem adds_var (konst : Bool) : Adds (fun stbl => if konst then STable_Add_Const stbl name desc
    else STable_Add_Var stbl name desc) name ⟨if konst then .SYM_CONST else .SYM_VAR, none⟩ := by
  cases konst
  · change Adds (fun stbl => stbl.addVar name desc fun index => .SYM_VAR index none) _ _
    exact adds_addVar (fun _ => rfl) fun _ => rfl
  · change Adds (fun stbl => stbl.addVar name desc fun index => .SYM_CONST index none) _ _
    exact adds_addVar (fun _ => rfl) fun _ => rfl

theorem adds_func {proto : TypeDesc} :
    Adds (fun stbl => STable_Add_Func stbl name proto) name ⟨.SYM_FUNC, some ([], none)⟩ :=
  adds_insert fun _ h => nomatch h

theorem adds_proto {proto : TypeDesc} (native : Bool) :
    Adds (fun stbl => if native then STable_Add_NFunc stbl name proto
      else STable_Add_IFunc stbl name proto) name
      ⟨if native then .SYM_NFUNC else .SYM_IFUNC, none⟩ := by
  cases native
  · exact adds_insert fun _ h => nomatch h
  · exact adds_insert fun _ h => nomatch h

theorem adds_class : Adds (fun stbl => STable_Add_Class stbl name) name ⟨.SYM_CLASS, none⟩ :=
  adds_insert fun _ h => by cases h; rfl

theorem adds_trait : Adds (fun stbl => STable_Add_Trait stbl name) name ⟨.SYM_TRAIT, none⟩ :=
  adds_insert fun _ h => by cases h; rfl

end adds

section lookup

variable {stbl : STable Symbol} {sym : Symbol}

theorem STable_Get_snoc (k : Nat) (other : CString) :
    STable_Get ⟨stbl.symbols ++ [sym], k⟩ other =
      (STable_Get stbl other).or (if sym.name = other then some sym else none) :=
  STable_Get_append other

/-- A symbol that was added to a table is seen there, and nothing else changes. -/
theorem viewOf_snoc {ps : ParserState} {t : TableRef} (k : Nat) (htable : ps.table t = some stbl)
    (hget : STable_Get stbl sym.name = none)
    (hempty : ∀ table, sym.stbl = some table → table.symbols = []) :
    viewOf ps.pkg ⟨t, sym.name⟩ = none ∧ ∀ ref,
      viewOf (ps.updateTable (fun _ => ⟨stbl.symbols ++ [sym], k⟩) t).pkg ref =
        if ref = ⟨t, sym.name⟩ then some sym.view else viewOf ps.pkg ref := by
  have hview : ∀ name, (STable_Get ⟨stbl.symbols ++ [sym], k⟩ name).map Symbol.view =
      if name = sym.name then some sym.view else (STable_Get stbl name).map Symbol.view := by
    intro name
    rw [STable_Get_snoc]
    by_cases hname : name = sym.name
    · rw [if_pos hname.symm, if_pos hname, hname, hget]
      rfl
    · rw [if_neg (Ne.symm hname), if_neg hname, Option.or_none]
  cases t with
  | pkg =>
    cases htable
    refine ⟨congrArg (Option.map Symbol.view) hget, fun ref => ?_⟩
    obtain ⟨t', name⟩ := ref
    cases t' with
    | pkg =>
      simp only [SymRef.mk.injEq, true_and]
      exact hview name
    | klass c =>
      simp only [SymRef.mk.injEq, reduceCtorEq, false_and, if_false]
      change (((STable_Get ⟨ps.pkg.symbols ++ [sym], k⟩ c).bind Symbol.stbl).bind
        fun stbl => STable_Get stbl name).map Symbol.view = _
      rw [STable_Get_snoc]
      by_cases hname : sym.name = c
      · have hnone : viewOf ps.pkg ⟨.klass c, name⟩ = none := by
          unfold viewOf lookup
          dsimp only
          rw [← hname, hget]
          rfl
        rw [hnone, if_pos hname, ← hname, hget, Option.none_or, Option.bind_some]
        cases hstbl : sym.stbl with
        | none => rfl
        | some table =>
          change (STable_Get table name).map Symbol.view = none
          unfold STable_Get
          rw [hempty table hstbl]
          rfl
      · rw [if_neg hname, Option.or_none]
        rfl
  | klass c =>
    have htable' : (STable_Get ps.pkg c).bind Symbol.stbl = some stbl := htable
    have hself : viewOf ps.pkg ⟨.klass c, sym.name⟩ = none := by
      unfold viewOf lookup
      dsimp only
      rw [htable']
      exact congrArg (Option.map Symbol.view) hget
    refine ⟨hself, fun ref => ?_⟩
    have hpkg : (ps.updateTable (fun _ => ⟨stbl.symbols ++ [sym], k⟩) (.klass c)).pkg =
        ps.pkg.update c (Symbol.mapStbl fun _ => ⟨stbl.symbols ++ [sym], k⟩) := rfl
    rw [hpkg]
    obtain ⟨t', name⟩ := ref
    cases t' with
    | pkg =>
      have hkeep : ∀ s, (Symbol.mapStbl (fun _ => ⟨stbl.symbols ++ [sym], k⟩) s).view =
          id s.view := Symbol.mapStbl_view _
      have hsame := STable_Get_update_view (Symbol.mapStbl_name _) hkeep ps.pkg c name
      simp only [ite_self, Option.map_id, id] at hsame
      simp only [SymRef.mk.injEq, reduceCtorEq, false_and, if_false]
      exact hsame
    | klass c' =>
      have hstbl := STable_Get_update_stbl (Symbol.mapStbl_name _)
        (Symbol.mapStbl_stbl fun _ => ⟨stbl.symbols ++ [sym], k⟩) ps.pkg c c'
      simp only [SymRef.mk.injEq, TableRef.klass.injEq]
      unfold viewOf lookup
      dsimp only
      rw [hstbl]
      by_cases hc : c' = c
      · rw [hc, htable']
        simp only [true_and]
        exact hview name
      · simp only [hc, false_and, if_false, Option.map_id, id]

end lookup

namespace Stmt

/-- The symbols that a member declares in the table of its class. -/
def member (t : TableRef) : Stmt → List (SymRef × View)
  | VAR id _ _ _ => [(⟨t, id.name⟩, ⟨.SYM_VAR, none⟩)]
  | FUNC id _ _ _ => [(⟨t, id.name⟩, ⟨.SYM_FUNC, some ([], none)⟩)]
  | _ => []

def variableView (konst : Bool) : View := ⟨if konst then .SYM_CONST else .SYM_VAR, none⟩

/-- The symbols that a statement of a module declares. -/
def symbols : Stmt → List (SymRef × View)
  | VAR id _ _ konst => [(⟨.pkg, id.name⟩, variableView konst)]
  | VARLIST ids _ _ konst => ids.map fun id => (⟨.pkg, id.name⟩, variableView konst)
  | FUNC id _ _ _ => [(⟨.pkg, id.name⟩, ⟨.SYM_FUNC, some ([], none)⟩)]
  | PROTO native id _ _ =>
    [(⟨.pkg, id.name⟩, ⟨if native then .SYM_NFUNC else .SYM_IFUNC, none⟩)]
  | CLASS id _ body => (⟨.pkg, id.name⟩, ⟨.SYM_CLASS, none⟩) :: body.flatMap (member (.klass id.name))
  | TRAIT id _ body => (⟨.pkg, id.name⟩, ⟨.SYM_TRAIT, none⟩) :: body.flatMap (member (.klass id.name))
  | _ => []

end Stmt

/-- Symbols were declared in the tables of a package: each of them is there, and
if the declarations are `clean` each is new. -/
structure Declares (clean : Prop) (new : List (SymRef × View)) (pkg pkg' : STable Symbol) :
    Prop where
  keeps : ∀ ref v, viewOf pkg ref = some v → viewOf pkg' ref = some v
  known : ∀ p ∈ new, (viewOf pkg' p.1).isSome = true
  among : ∀ ref v, viewOf pkg' ref = some v → viewOf pkg ref = some v ∨ (ref, v) ∈ new
  nodup : clean → (new.map Prod.fst).Nodup
  fresh : clean → ∀ p ∈ new, viewOf pkg p.1 = none ∧ viewOf pkg' p.1 = some p.2

/-- Statements were added to the tree, and their symbols to the tables unless
an error was reported. -/
structure Built (new : List (SymRef × View)) (stmts : List Stmt) (ps ps' : ParserState) : Prop where
  u : ps'.u = ps.u
  ustack : ps'.ustack = ps.ustack
  depth : ps'.depth = ps.depth
  stmts : ps'.stmts = ps.stmts ++ stmts
  errors : ps.errors <+: ps'.errors
  tables : Declares (ps'.errors = ps.errors) new ps.pkg ps'.pkg

section declares

variable {clean clean' both : Prop} {new new' : List (SymRef × View)}
  {pkg pkg₁ pkg' : STable Symbol}

theorem Declares.refl (clean : Prop) (pkg : STable Symbol) : Declares clean [] pkg pkg where
  keeps _ _ h := h
  known := List.forall_mem_nil _
  among _ _ h := .inl h
  nodup _ := List.nodup_nil
  fresh _ := List.forall_mem_nil _

theorem Declares.trans (h : Declares clean new pkg pkg₁) (h' : Declares clean' new' pkg₁ pkg')
    (hclean : both → clean) (hclean' : both → clean') : Declares both (new ++ new') pkg pkg' where
  keeps ref v hv := h'.keeps ref v (h.keeps ref v hv)
  known p hp := by
    rcases List.mem_append.mp hp with hp | hp
    · obtain ⟨v, hv⟩ := Option.isSome_iff_exists.mp (h.known p hp)
      exact Option.isSome_iff_exists.mpr ⟨v, h'.keeps p.1 v hv⟩
    · exact h'.known p hp
  among ref v hv := by
    rcases h'.among ref v hv with hv | hnew
    · exact (h.among ref v hv).imp_right fun hnew => List.mem_append_left new' hnew
    · exact .inr (List.mem_append_right new hnew)
  nodup hboth := by
    rw [List.map_append, List.nodup_append]
    refine ⟨h.nodup (hclean hboth), h'.nodup (hclean' hboth), fun ref href ref' href' heq => ?_⟩
    obtain ⟨p, hp, rfl⟩ := List.mem_map.mp href
    obtain ⟨p', hp', rfl⟩ := List.mem_map.mp href'
    have hsome := (h.fresh (hclean hboth) p hp).2
    rw [heq, (h'.fresh (hclean' hboth) p' hp').1] at hsome
    cases hsome
  fresh hboth p hp := by
    rcases List.mem_append.mp hp with hp | hp
    · have hfresh := h.fresh (hclean hboth) p hp
      exact ⟨hfresh.1, h'.keeps p.1 p.2 hfresh.2⟩
    · have hfresh := h'.fresh (hclean' hboth) p hp
      refine ⟨?_, hfresh.2⟩
      cases hview : viewOf pkg p.1 with
      | none => rfl
      | some v =>
        have hsome := h.keeps p.1 v hview
        rw [hfresh.1] at hsome
        cases hsome

/-- One symbol was added to a table. -/
theorem Declares.one {ref : SymRef} {v : View} (hnone : viewOf pkg ref = none)
    (hafter : ∀ ref', viewOf pkg' ref' = if ref' = ref then some v else viewOf pkg ref') :
    Declares clean [(ref, v)] pkg pkg' where
  keeps ref' w hw := by
    have hne : ref' ≠ ref := by
      rintro rfl
      rw [hnone] at hw
      cases hw
    rw [hafter, if_neg hne, hw]
  known p hp := by
    obtain rfl := List.mem_singleton.mp hp
    rw [hafter, if_pos rfl]
    rfl
  among ref' w hw := by
    rw [hafter] at hw
    split at hw
    · next href =>
      cases hw
      exact .inr (List.mem_singleton.mpr (href ▸ rfl))
    · exact .inl hw
  nodup _ := List.pairwise_singleton ..
  fresh _ p hp := by
    obtain rfl := List.mem_singleton.mp hp
    exact ⟨hnone, (hafter ref).trans (if_pos rfl)⟩

end declares

section built

variable {new new' : List (SymRef × View)} {stmts stmts' : List Stmt} {ps ps₁ ps' : ParserState}

theorem Built.refl (ps : ParserState) : Built [] [] ps ps :=
  ⟨rfl, rfl, rfl, (List.append_nil _).symm, List.prefix_refl _, .refl _ _⟩

theorem Built.error (ps : ParserState) (pos : Position) (msg : Message) :
    Built [] [] ps (Syntax_Error ps pos msg) :=
  ⟨rfl, rfl, rfl, (List.append_nil _).symm, List.prefix_append _ _, .refl _ _⟩

theorem Built.add (ps : ParserState) (stmt : Stmt) : Built [] [stmt] ps (__add_stmt ps stmt) :=
  ⟨rfl, rfl, rfl, rfl, List.prefix_refl _, .refl _ _⟩

theorem Built.trans (h : Built new stmts ps ps₁) (h' : Built new' stmts' ps₁ ps') :
    Built (new ++ new') (stmts ++ stmts') ps ps' where
  u := h'.u.trans h.u
  ustack := h'.ustack.trans h.ustack
  depth := h'.depth.trans h.depth
  stmts := by rw [h'.stmts, h.stmts, List.append_assoc]
  errors := h.errors.trans h'.errors
  tables := h.tables.trans h'.tables (fun hsame => (errors_between h.errors h'.errors hsame).1)
    fun hsame => (errors_between h.errors h'.errors hsame).2

end built

section declare

variable {ps : ParserState} {u : ParserUnit} {t : TableRef} {id : Ident}

theorem meta_writes (filename : Option CString) (pos : Position) :
    Writes (fun sym : Symbol => { sym with filename := filename, pos := pos }) fun v => v :=
  .keeps (fun _ => rfl) fun _ => rfl

theorem viewOf_meta (ps : ParserState) (ref ref' : SymRef) (filename : Option CString)
    (pos : Position) :
    viewOf (ps.updateSym ref fun sym => { sym with filename := filename, pos := pos }).pkg ref' =
      viewOf ps.pkg ref' := by
  refine (viewOf_updateSym (meta_writes filename pos) ps ref ref').trans ?_
  split <;> exact Option.map_id'

/-- A name is declared once; to declare it again is an error. -/
theorem declare_built {add : STable Symbol → Option (STable Symbol)} {v : View}
    (hu : ps.u = some u) (htable : u.stbl = some (.shared t)) (hadd : Adds add id.name v) :
    Post (Built [(⟨t, id.name⟩, v)] [] ps) (declare id add ps) := by
  unfold declare
  rw [hu]
  refine Post.bind fun u' hu' => Post.bind fun added hadded => ?_
  cases hu'
  unfold ParserState.addSym at hadded
  rw [htable] at hadded
  obtain ⟨table, htab, hadded⟩ := bind_eq_ok_iff.mp hadded
  cases htab
  obtain ⟨stbl, hstbl, hadded⟩ := bind_eq_ok_iff.mp hadded
  change deref (ps.table t) = _ at hstbl
  rw [deref_eq_ok_iff] at hstbl
  cases hresult : add stbl with
  | none =>
    rw [hresult] at hadded
    cases hadded
    obtain ⟨sym, hget⟩ := Option.isSome_iff_exists.mp (hadd.found stbl hresult)
    have hlookup : lookup ps.pkg ⟨t, id.name⟩ = some sym := by
      rw [← getSym_iff]
      unfold ParserState.getSym
      rw [show ps.table t = some stbl from hstbl]
      exact deref_eq_ok_iff.mpr hget
    refine Post.bind fun sym' _ => Post.ok ?_
    have hmore : ∀ msg, (Syntax_Error ps id.pos msg).errors ≠ ps.errors := fun msg hsame =>
      absurd (congrArg List.length hsame) (by simp [Syntax_Error])
    refine ⟨rfl, rfl, rfl, (List.append_nil _).symm, List.prefix_append _ _, fun _ _ hv => hv,
      fun p hp => ?_, fun _ _ hv => .inl hv, fun hsame => absurd hsame (hmore _),
      fun hsame => absurd hsame (hmore _)⟩
    obtain rfl := List.mem_singleton.mp hp
    change (viewOf ps.pkg _).isSome = true
    rw [viewOf, hlookup]
    rfl
  | some stbl' =>
    obtain ⟨sym, k, hname, hview, hempty, hget, rfl⟩ := hadd.added stbl stbl' hresult
    rw [hresult] at hadded
    cases hadded
    rw [← hname] at hget
    obtain ⟨hnone, hsnoc⟩ := viewOf_snoc k hstbl hget hempty
    refine Post.bind fun ps₁ hupdate => Post.ok ?_
    rw [shared_updateUnitSym htable] at hupdate
    cases hupdate
    have hafter : ∀ ref, viewOf (ParserState.updateSym
        (ps.updateTable (fun _ => ⟨stbl.symbols ++ [sym], k⟩) t) ⟨t, id.name⟩
        fun s => { s with
          filename := some (ps.updateTable (fun _ => ⟨stbl.symbols ++ [sym], k⟩) t).filename
          pos := id.pos }).pkg ref =
        if ref = ⟨t, id.name⟩ then some v else viewOf ps.pkg ref := by
      intro ref
      refine (viewOf_meta ..).trans ?_
      rw [hsnoc, hname, hview]
    refine ⟨?_, ?_, ?_, ?_, ?_, .one (hname ▸ hnone) hafter⟩
    · exact (updateSym_u ..).trans (updateTable_u ..)
    · exact (updateSym_ustack ..).trans (updateTable_ustack ..)
    · exact (updateSym_depth ..).trans (updateTable_depth ..)
    · exact ((updateSym_stmts ..).trans (updateTable_stmts ..)).trans (List.append_nil _).symm
    · exact ((updateSym_errors ..).trans (updateTable_errors ..)).symm ▸ List.prefix_refl _

end declare

end koala.parser
