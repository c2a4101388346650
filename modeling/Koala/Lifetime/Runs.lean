import Koala.Lifetime.Steps

open koala.hashtable
open koala.parser (SymKind ScopeKind deref name__init__)

namespace koala.lifetime

set_option linter.style.nameCheck false

variable {ps : ParserState} {scopes : List Nat} {u : ParserUnit} {name : CString}

theorem enter_module_progress (h : ps.Sound scopes) :
    Progress ps.pkg (.ok (some (Parser_Enter_Scope ps .SCOPE_MODULE none (some ps.pkg)))) := by
  have hsound : (Parser_Enter_Scope ps .SCOPE_MODULE none (some ps.pkg)).Sound scopes :=
    ⟨h.sound, .module h.units, fun hnone => nomatch hnone⟩
  exact Progress.reached hsound

section new

/-- Modules and classes declare in tables that are not those of scopes. -/
theorem declares_table (h : ps.Sound scopes) (hu : ps.u = some u) {kind : SymKind}
    (hdeclares : declares u.scope kind = true) :
    ∃ t table, u.stbl = some t ∧ ps.heap.tables t = some table ∧ t ∉ scopes ∧
      ((__symbol_new kind).IsKlass → t = ps.pkg) := by
  obtain ⟨t, table, hstbl, htable⟩ := h.table hu
  refine ⟨t, table, hstbl, htable, ?_⟩
  cases h.unit hu with
  | module hus =>
    cases hstbl
    exact ⟨(List.nodup_cons.mp h.sound.distinct).1, fun _ => rfl⟩
  | klass hc hkind hstbl' hus =>
    cases hstbl
    refine ⟨fun hmem => (h.sound.klass_table hc hstbl').2 (List.mem_cons_of_mem _ hmem), ?_⟩
    intro hklass
    rcases hklass with hk | hk
    · change kind = _ at hk
      subst hk
      exact absurd hdeclares (by simp [declares])
    · change kind = _ at hk
      subst hk
      exact absurd hdeclares (by simp [declares])
  | function hf hkind hus => exact absurd hdeclares (by simp [declares])
  | block hne hus => exact absurd hdeclares (by simp [declares])

/-- What is done with a new symbol, or without one. -/
theorem added_progress (h : ps.Sound scopes) {x : Res (Option Addr × Heap)}
    (hx : (∃ h', x = .ok (none, h')) ∨ ∃ a h', x = .ok (some a, h') ∧
      Sound ps.pkg scopes h' ∧ Keeps ps.heap h') :
    Progress ps.pkg (x >>= fun r => match r.1 with
      | none => .ok none
      | some _ => .ok (some { ps with heap := r.2 })) := by
  rcases hx with ⟨h', rfl⟩ | ⟨a, h', rfl, hs, hkeeps⟩
  · exact Progress.rejected
  · exact Progress.reached (h.write hs hkeeps)

theorem new_symbol_progress (h : ps.Sound scopes) (hu : ps.u = some u) {kind : SymKind}
    (hdeclares : declares u.scope kind = true) : Progress ps.pkg (new_symbol kind name ps u) := by
  obtain ⟨t, table, hstbl, htable, hscope, hpkg⟩ := declares_table h hu hdeclares
  by_cases hklass : (__symbol_new kind).IsKlass
  · obtain rfl := hpkg hklass
    have hadd := added_progress h (h.sound.add_klass htable hklass name)
    rcases hklass with hk | hk <;> change kind = _ at hk <;> subst hk
    all_goals
      rw [new_symbol, hstbl]
      exact hadd
  · have hadd := added_progress h
      ((h.sound.add htable hscope hklass name).imp And.right id)
    by_cases hother : kind = .SYM_PKG
    · subst hother
      exact Progress.rejected
    · cases kind with
      | SYM_CLASS => exact absurd (Or.inl rfl) hklass
      | SYM_TRAIT => exact absurd (Or.inr rfl) hklass
      | SYM_PKG => exact absurd rfl hother
      | _ =>
        rw [new_symbol, hstbl]
        exact hadd

end new

section enter

theorem enter_class_progress (h : ps.Sound scopes) (hu : ps.u = some u) :
    Progress ps.pkg (enter_class name ps u) := by
  obtain ⟨t, table, hstbl, htable⟩ := h.table hu
  obtain ⟨found, hget, hfound⟩ := h.sound.STable_Get_ok htable name
  rw [enter_class, hstbl, hget, ok_bind]
  cases found with
  | none => exact Progress.rejected
  | some a =>
    obtain ⟨sym, hsym, _⟩ := hfound a rfl
    change Progress _ (deref (ps.heap.syms a) >>= _)
    rw [hsym, deref_some, ok_bind]
    by_cases hkind : sym.kind = .SYM_CLASS ∨ sym.kind = .SYM_TRAIT
    · rw [if_pos hkind]
      obtain ⟨t', ht'⟩ := (h.sound.klass hsym).mp hkind
      have hsound : (Parser_Enter_Scope ps .SCOPE_CLASS (some a) sym.stbl).Sound scopes := by
        refine ⟨h.sound, ?_, fun hnone => nomatch hnone⟩
        rw [ht']
        exact .klass hsym hkind ht' h.units
      exact Progress.reached hsound
    · rw [if_neg hkind]
      exact Progress.rejected

theorem enter_function_progress (h : ps.Sound scopes) (hu : ps.u = some u) :
    Progress ps.pkg (enter_function name ps u) := by
  obtain ⟨t, table, hstbl, htable⟩ := h.table hu
  obtain ⟨found, hget, hfound⟩ := h.sound.STable_Get_ok htable name
  rw [enter_function, hstbl, hget, ok_bind]
  cases found with
  | none => exact Progress.rejected
  | some a =>
    obtain ⟨sym, hsym, _⟩ := hfound a rfl
    change Progress _ (deref (ps.heap.syms a) >>= _)
    rw [hsym, deref_some, ok_bind]
    by_cases hkind : sym.kind = .SYM_FUNC
    · rw [if_pos hkind]
      have hsound : (Parser_Enter_Scope { ps with heap := (STable_New ps.heap).2 } .SCOPE_FUNCTION
          (some a) (some ps.heap.ntables)).Sound (ps.heap.ntables :: scopes) := by
        refine ⟨h.sound.new_scope, ?_, fun hnone => nomatch hnone⟩
        exact .function hsym hkind (h.units.mono (Keeps.refl ps.heap))
      exact Progress.reached hsound
    · rw [if_neg hkind]
      exact Progress.rejected

theorem enter_block_progress (h : ps.Sound scopes) (hu : ps.u = some u) :
    Progress ps.pkg (.ok (some (enter_block ps))) := by
  have hsound : (enter_block ps).Sound (ps.heap.ntables :: scopes) := by
    refine ⟨h.sound.new_scope, ?_, fun hnone => nomatch hnone⟩
    refine .block ?_ (h.units.mono (Keeps.refl ps.heap))
    change ps.u.toList ++ ps.ustack ≠ []
    rw [hu]
    exact List.cons_ne_nil u ps.ustack
  exact Progress.reached hsound

end enter

section declare

/-- A variable is listed, or an error is reported. -/
theorem add_local_progress (h : ps.Sound scopes) {t : Nat} (hscope : t ∈ scopes) {uu : ParserUnit}
    (hfunc : uu.IsFunction ps.heap) : Progress ps.pkg (add_local ps (some t) uu.sym name) := by
  obtain ⟨f, funcSym, hsym, hf, hkind⟩ := hfunc
  obtain ⟨table, htable⟩ := (h.sound.live t).mpr (Or.inr (Or.inl hscope))
  rw [add_local, hsym]
  rcases h.sound.add_local htable hscope hf hkind name with
    ⟨h', hfail⟩ | ⟨a, h', h'', hadd, happend, hs, hkeeps⟩
  · rw [hfail, ok_bind]
    exact Progress.rejected
  · rw [hadd, ok_bind]
    change Progress _ (append_locvec h' (some f) a >>= _)
    rw [happend, ok_bind]
    exact Progress.reached (h.write hs hkeeps)

/-- A variable of a module or a class was declared before. -/
theorem update_variable_progress (h : ps.Sound scopes) (hu : ps.u = some u)
    (hscope : u.scope = .SCOPE_MODULE ∨ u.scope = .SCOPE_CLASS) :
    Progress ps.pkg (update_add_variable name ps u) := by
  obtain ⟨t, table, hstbl, htable⟩ := h.table hu
  obtain ⟨found, hget, hfound⟩ := h.sound.STable_Get_ok htable name
  have hupdate : update_add_variable name ps u = (do
      match found with
      | none => .ok none
      | some a => do
        let varSym ← deref (ps.heap.syms a)
        if varSym.kind = .SYM_CONST ∨ varSym.kind = .SYM_VAR then .ok (some ps) else .ok none) := by
    rw [update_add_variable]
    rcases hscope with hscope | hscope <;> rw [hscope, hstbl] <;> simp only [hget, ok_bind] <;> rfl
  rw [hupdate]
  cases found with
  | none => exact Progress.rejected
  | some a =>
    obtain ⟨sym, hsym, _⟩ := hfound a rfl
    change Progress _ (deref (ps.heap.syms a) >>= _)
    rw [hsym, deref_some, ok_bind]
    split
    · exact Progress.reached h
    · exact Progress.rejected

theorem update_add_variable_progress (h : ps.Sound scopes) (hu : ps.u = some u) :
    Progress ps.pkg (update_add_variable name ps u) := by
  have hunit := h.unit hu
  cases hunit with
  | module hus => exact update_variable_progress h hu (Or.inl rfl)
  | klass hc hkind hstbl hus => exact update_variable_progress h hu (Or.inr rfl)
  | @function _ _ f funcSym t hf hkind hus =>
    have hfunction : (⟨.SCOPE_FUNCTION, some f, some t⟩ : ParserUnit).IsFunction ps.heap :=
      ⟨f, funcSym, rfl, hf, hkind⟩
    exact add_local_progress h List.mem_cons_self hfunction
  | @block _ ts t hne hus =>
    obtain ⟨found, hfound, hfunc⟩ := hus.parse_block_variable_ok h.sound
      (List.subset_cons_self t ts) name
    rw [update_add_variable]
    change Progress _ (parse_block_variable ps.heap name ps.ustack >>= _)
    rw [hfound, ok_bind]
    cases found with
    | error => exact Progress.rejected
    | none => exact Progress.reached h
    | function uu => exact add_local_progress h List.mem_cons_self (hfunc uu rfl)

end declare

section leave

/-- What is left of the units when the innermost one is left. -/
theorem leave_sound {heap : Heap} {pkg : Nat} {us : List ParserUnit} (hs : Sound pkg scopes heap)
    (hus : Units heap pkg us scopes) : (ParserState.mk heap pkg us.head? us.tail).Sound scopes := by
  refine ⟨hs, ?_, fun hnone => ?_⟩
  · cases us with
    | nil => exact hus
    | cons u us => exact hus
  · cases us with
    | nil => rfl
    | cons u us => cases hnone

/-- A module is left: a function is declared, unless there is one. -/
theorem merge_module (h : ps.Sound scopes) :
    ∃ heap, merge_parser_unit ps ⟨.SCOPE_MODULE, none, some ps.pkg⟩ = .ok heap ∧
      Sound ps.pkg scopes heap ∧ Keeps ps.heap heap := by
  obtain ⟨table, htable⟩ := (h.sound.live ps.pkg).mpr (Or.inl rfl)
  have hscope : ps.pkg ∉ scopes := (List.nodup_cons.mp h.sound.distinct).1
  obtain ⟨found, hget, _⟩ := h.sound.STable_Get_ok htable name__init__
  simp only [merge_parser_unit, hget, ok_bind]
  cases found with
  | some a => exact ⟨_, rfl, h.sound, Keeps.refl _⟩
  | none =>
    have hkind : ¬ (__symbol_new .SYM_FUNC).IsKlass := by simp [Symbol.IsKlass, __symbol_new]
    rcases h.sound.add htable hscope hkind name__init__ with
      ⟨⟨a, hfound⟩, _⟩ | ⟨a, h', hadd, hs, hkeeps⟩
    · cases hget.symm.trans hfound
    · refine ⟨h', ?_, hs, hkeeps⟩
      rw [STable_Add_Func, hadd, ok_bind]
      rfl

/-- The table of the innermost function or block is freed. -/
theorem free_scope {t : Nat} (hs : Sound ps.pkg (t :: scopes) ps.heap) :
    ∃ heap, STable_Free (some t) ps.heap = .ok heap ∧ Sound ps.pkg scopes heap ∧
      Keeps ps.heap heap := by
  obtain ⟨table, htable⟩ := (hs.live t).mpr (Or.inr (Or.inl List.mem_cons_self))
  obtain ⟨l, hl, hmem⟩ := hs.holds htable
  refine ⟨_, hs.STable_Free_scope htable hl hmem, hs.close_scope hmem, fun a sym ha => ?_⟩
  change ∃ sym', (if a ∈ l then (ps.heap.syms a).map Symbol.dropped else ps.heap.syms a) =
    some sym' ∧ _
  rw [ha]
  split
  · exact ⟨_, rfl, rfl, rfl⟩
  · exact ⟨_, rfl, rfl, rfl⟩

theorem exit_progress (h : ps.Sound scopes) (hu : ps.u = some u) :
    ∃ ps', Parser_Exit_Scope ps u = .ok ps' ∧ ps'.pkg = ps.pkg ∧ ∃ scopes, ps'.Sound scopes := by
  have hunit := h.unit hu
  have hleave : ∀ {heap scopes}, merge_parser_unit ps u = .ok heap → Sound ps.pkg scopes heap →
      Units heap ps.pkg ps.ustack scopes →
      ∃ ps', Parser_Exit_Scope ps u = .ok ps' ∧ ps'.pkg = ps.pkg ∧ ∃ scopes, ps'.Sound scopes := by
    intro heap scopes hmerge hs hus
    refine ⟨⟨heap, ps.pkg, ps.ustack.head?, ps.ustack.tail⟩, ?_, rfl, scopes, leave_sound hs hus⟩
    rw [Parser_Exit_Scope, hmerge, ok_bind]
  cases hunit with
  | module hus =>
    obtain ⟨heap, hmerge, hs, hkeeps⟩ := merge_module h
    exact hleave hmerge hs (hus.mono hkeeps)
  | klass hc hkind hstbl hus =>
    refine hleave ?_ h.sound hus
    simp only [merge_parser_unit, deref_some, ok_bind, hc]
    exact if_pos ⟨hkind, hstbl.symm⟩
  | function hf hkind hus =>
    obtain ⟨heap, hfree, hs, hkeeps⟩ := free_scope h.sound
    refine hleave ?_ hs (hus.mono hkeeps)
    simp only [merge_parser_unit, deref_some, ok_bind, hf, if_pos hkind, hfree]
  | block hne hus =>
    obtain ⟨heap, hfree, hs, hkeeps⟩ := free_scope h.sound
    refine hleave ?_ hs (hus.mono hkeeps)
    obtain ⟨uu, us, hus⟩ := List.exists_cons_of_ne_nil hne
    simp only [merge_parser_unit, hus, List.head?_cons, deref_some, ok_bind, hfree]

end leave

/-- No action fails: a compilation ends with an error, or goes on. -/
theorem step_progress (h : ps.Sound scopes) (action : Action) :
    Progress ps.pkg (step ps action) := by
  cases hu : ps.u with
  | none =>
    cases action with
    | enter_module =>
      simp only [step, hu]
      exact enter_module_progress h
    | _ =>
      simp only [step, hu]
      exact Progress.rejected
  | some u =>
    cases action with
    | enter_module =>
      simp only [step, hu]
      exact Progress.rejected
    | new kind name =>
      simp only [step, hu]
      split
      · next hdeclares => exact new_symbol_progress h hu hdeclares
      · exact Progress.rejected
    | enter_class name =>
      simp only [step, hu]
      split
      · exact enter_class_progress h hu
      · exact Progress.rejected
    | enter_function name =>
      simp only [step, hu]
      split
      · exact enter_function_progress h hu
      · exact Progress.rejected
    | enter_block =>
      simp only [step, hu]
      exact enter_block_progress h hu
    | declare name =>
      simp only [step, hu]
      exact update_add_variable_progress h hu
    | exit =>
      obtain ⟨ps', hexit, hpkg, hsound⟩ := exit_progress h hu
      refine ⟨some ps', ?_, fun ps'' heq => Option.some.inj heq ▸ ⟨hpkg, hsound⟩⟩
      simp only [step, hu, hexit, ok_bind]

theorem run_progress (h : ps.Sound scopes) (actions : List Action) :
    Progress ps.pkg (run actions ps) := by
  induction actions generalizing ps scopes with
  | nil => exact Progress.reached h
  | cons action actions ih =>
    obtain ⟨r, hstep, hr⟩ := step_progress h action
    rw [run, hstep, ok_bind]
    cases r with
    | none => exact Progress.rejected
    | some ps' =>
      obtain ⟨hpkg, scopes', hsound⟩ := hr ps' rfl
      rw [← hpkg]
      exact ih hsound

theorem new_group_memory : Memory new_group.heap := by
  have hempty : Memory ⟨[], fun _ => none, 0, fun _ => none, []⟩ :=
    ⟨List.nodup_nil, by simp, by simp, List.nodup_nil, by simp, by simp, by simp⟩
  exact hempty.new_table (by simp [Heap.home])

/-- A package starts with an empty table. -/
theorem new_group_sound : new_group.Sound [] := by
  refine ⟨⟨new_group_memory, fun t => ?_, List.nodup_singleton _, ?_, ?_, ?_, ?_, List.nodup_nil,
    ?_, ?_⟩, .nil, fun _ => rfl⟩
  · change (∃ table, Function.update (fun _ : Nat => none) 0 (some HashTable_Init) t = some table) ↔
      t = 0 ∨ t ∈ ([] : List Nat) ∨ ∃ c sym, (none : Option Symbol) = some sym ∧ sym.stbl = some t
    rw [Function.update_apply]
    split
    · next heq => simp [heq]
    · next hne => simp [hne]
  · exact fun hc => nomatch hc
  · exact fun hc _ => nomatch hc
  · exact fun hc _ _ _ => nomatch hc
  · exact fun ha => nomatch ha
  · exact fun a ha => nomatch ha
  · exact fun hf _ => nomatch hf

end koala.lifetime
