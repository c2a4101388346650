import Koala.Lifetime.Closed

open koala.hashtable
open koala.parser (SymKind ScopeKind deref name__init__)

namespace koala.lifetime

set_option linter.style.nameCheck false

/-- The symbols of a heap are still there, of the same kind and with the same tables. -/
def Keeps (h h' : Heap) : Prop :=
  ∀ a sym, h.syms a = some sym →
    ∃ sym', h'.syms a = some sym' ∧ sym'.kind = sym.kind ∧ sym'.stbl = sym.stbl

theorem Keeps.refl (h : Heap) : Keeps h h := fun _ sym ha => ⟨sym, ha, rfl, rfl⟩

section add

variable {pkg : Nat} {scopes : List Nat} {h : Heap} {t : Nat} {table : HashTable Addr}
  {kind : SymKind} {name : CString}

theorem Sound.fresh_in (hs : Sound pkg scopes h) {l : List Addr}
    (hmem : ∀ a, a ∈ l ↔ h.home a = some t) : ∀ a ∈ l, a.addr < h.addrs.length := by
  intro a ha
  obtain ⟨sym, hsym, _⟩ := Option.bind_eq_some_iff.mp ((hmem a).mp ha)
  exact hs.fresh a (hs.alloc hsym)

theorem Memory.keeps_added (hm : Memory h) (sym : Symbol) (table' : HashTable Addr) :
    Keeps h (h.added ⟨h.addrs.length, name⟩ sym t table') := by
  intro a sym' ha
  refine ⟨sym', (added_syms_other ?_).trans ha, rfl, rfl⟩
  rintro rfl
  exact hm.not_new name (hm.alloc ha)

theorem added_live (htable : h.tables t = some table) (a : Addr) (sym : Symbol)
    (table' : HashTable Addr) (t' : Nat) :
    (∃ table, (h.added a sym t table').tables t' = some table) ↔
      ∃ table, h.tables t' = some table := by
  change (∃ table, Function.update h.tables t _ t' = some table) ↔ _
  rw [Function.update_apply]
  split
  · next heq => simp [heq, htable]
  · exact Iff.rfl

/-- What is no class is declared in the table of the package or of a class, or its name is
taken. -/
theorem Sound.add (hs : Sound pkg scopes h) (htable : h.tables t = some table) (hscope : t ∉ scopes)
    (hkind : ¬ (__symbol_new kind).IsKlass) (name : CString) :
    (∃ a, STable_Get h (some t) name = .ok (some a)) ∧
      (∃ h', STable_Add kind h (some t) name = .ok (none, h')) ∨
    ∃ a h', STable_Add kind h (some t) name = .ok (some a, h') ∧ Sound pkg scopes h' ∧
        Keeps h h' := by
  obtain ⟨l, hl, hmem⟩ := hs.holds htable
  rcases STable_Add_cases kind htable hl (hs.fresh_in hmem) with
    ⟨hfound, hfail⟩ | ⟨_, table', hl', hadd⟩
  · obtain ⟨a, ha⟩ := Option.isSome_iff_exists.mp hfound
    exact Or.inl ⟨⟨a, (STable_Get_eq htable hl).trans (congrArg Except.ok ha)⟩, hfail⟩
  · refine Or.inr ⟨_, _, hadd, ⟨hs.toMemory.added hmem (hs.bound htable) rfl hl', ?_⟩,
      hs.toMemory.keeps_added _ _⟩
    refine hs.toOwned.declare hs.toMemory (hs.not_new name) rfl rfl (fun t' => ?_) rfl hscope
      ⟨table, htable⟩ rfl rfl ?_ ?_
    · rw [added_live htable]
      exact (or_iff_left (nomatch ·)).symm
    · exact iff_of_false hkind (fun ⟨_, ht'⟩ => nomatch ht')
    · exact fun _ ht' => nomatch ht'

/-- A new symbol of a class, which has a new table. -/
def Heap.klassed (h : Heap) (kind : SymKind) (a : Addr) (t : Nat) (table : HashTable Addr) : Heap :=
  (STable_New (h.added a { __symbol_new kind with hnode := some t } t table)).2.setSym a
    { __symbol_new kind with hnode := some t, stbl := some h.ntables }

section klassed

variable {a : Addr} {table' : HashTable Addr}

theorem klassed_syms_self : (h.klassed kind a t table').syms a =
    some { __symbol_new kind with hnode := some t, stbl := some h.ntables } :=
  Function.update_self ..

theorem klassed_syms_other {b : Addr} (hne : b ≠ a) :
    (h.klassed kind a t table').syms b = h.syms b :=
  (Function.update_of_ne hne ..).trans (Function.update_of_ne hne ..)

theorem klassed_syms : (h.klassed kind a t table').syms = Function.update h.syms a
    (some { __symbol_new kind with hnode := some t, stbl := some h.ntables }) := by
  funext b
  by_cases hne : b = a
  · subst hne
    rw [klassed_syms_self, Function.update_self]
  · rw [klassed_syms_other hne, Function.update_of_ne hne]

theorem klassed_live (htable : h.tables t = some table) (t' : Nat) :
    (∃ table, (h.klassed kind a t table').tables t' = some table) ↔
      (∃ table, h.tables t' = some table) ∨ some h.ntables = some t' := by
  change (∃ table, Function.update (Function.update h.tables t _) h.ntables _ t' = some table) ↔ _
  rw [Function.update_apply, Option.some.injEq]
  split
  · next heq => simp [heq]
  · next hne =>
    rw [Function.update_apply, or_iff_left (Ne.symm hne)]
    split
    · next heq => simp [heq, htable]
    · exact Iff.rfl

end klassed

/-- A class is declared in the table of the package, with a table of its own. -/
theorem Sound.add_klass (hs : Sound pkg scopes h) (htable : h.tables pkg = some table)
    (hkind : (__symbol_new kind).IsKlass) (name : CString) :
    (∃ h', STable_Add_Klass kind h (some pkg) name = .ok (none, h')) ∨
      ∃ a h', STable_Add_Klass kind h (some pkg) name = .ok (some a, h') ∧ Sound pkg scopes h' ∧
        Keeps h h' := by
  obtain ⟨l, hl, hmem⟩ := hs.holds htable
  rcases STable_Add_cases kind htable hl (hs.fresh_in hmem) with
    ⟨_, h', hfail⟩ | ⟨_, table', hl', hadd⟩
  · exact Or.inl ⟨h', by rw [STable_Add_Klass, hfail, ok_bind]⟩
  · have hbound := hs.bound htable
    have hadded : Memory (h.added ⟨h.addrs.length, name⟩ { __symbol_new kind with hnode := some pkg }
        pkg table') := hs.toMemory.added hmem hbound rfl hl'
    have hhome : ∀ b, (h.added ⟨h.addrs.length, name⟩ { __symbol_new kind with hnode := some pkg } pkg
        table').home b ≠ some h.ntables := by
      intro b
      rw [added_home b rfl]
      split
      · exact fun heq => Nat.ne_of_lt hbound (Option.some.inj heq)
      · exact hs.home_ne_new b
    have hmemory : Memory (h.klassed kind ⟨h.addrs.length, name⟩ pkg table') := by
      refine (hadded.new_table hhome).congr rfl rfl rfl rfl (fun b => ?_) fun b => ?_
      · change _ ↔ (h.added _ _ pkg table').syms b = none
        by_cases hne : b = ⟨h.addrs.length, name⟩
        · subst hne
          rw [klassed_syms_self, added_syms_self]
          simp
        · rw [klassed_syms_other hne, added_syms_other hne]
      · change _ = (h.added _ _ pkg table').home b
        by_cases hne : b = ⟨h.addrs.length, name⟩
        · subst hne
          rw [home_eq klassed_syms_self, home_eq added_syms_self]
        · rw [Heap.home, Heap.home, klassed_syms_other hne, added_syms_other hne]
    have hunused : ¬ ∃ table, h.tables h.ntables = some table := by
      rintro ⟨_, htable⟩
      exact Nat.lt_irrefl _ (hs.bound htable)
    have howned : Owned pkg scopes (h.klassed kind ⟨h.addrs.length, name⟩ pkg table') := by
      refine hs.toOwned.declare hs.toMemory (hs.not_new name) rfl klassed_syms
        (klassed_live htable) rfl ?_ ⟨table, htable⟩ rfl rfl ?_ ?_
      · exact fun hmem => (List.nodup_cons.mp hs.distinct).1 hmem
      · exact iff_of_true hkind ⟨_, rfl⟩
      · intro t' ht'
        cases ht'
        exact ⟨rfl, hunused⟩
    refine Or.inr ⟨⟨h.addrs.length, name⟩, _, ?_, ⟨hmemory, howned⟩, ?_⟩
    · rw [STable_Add_Klass, hadd, ok_bind]
      change (deref ((h.added _ _ pkg table').syms _) >>= _) = _
      rw [added_syms_self, deref_some, ok_bind]
      rfl
    · intro b sym hb
      refine ⟨sym, (klassed_syms_other ?_).trans hb, rfl, rfl⟩
      rintro rfl
      exact hs.not_new name (hs.alloc hb)

theorem append_locvec_eq {f a : Addr} {funcSym varSym : Symbol} (hf : h.syms f = some funcSym)
    (hfunc : funcSym.kind = .SYM_FUNC) (ha : h.syms a = some varSym) (hne : a ≠ f) :
    append_locvec h (some f) a =
      .ok ((h.setSym f { funcSym with locvec := funcSym.locvec ++ [a] }).setSym a
        { varSym with refcnt := varSym.refcnt + 1 }) := by
  have hself : (h.setSym f { funcSym with locvec := funcSym.locvec ++ [a] }).syms a = some varSym :=
    (Function.update_of_ne hne ..).trans ha
  simp only [append_locvec, hf, deref_some, ok_bind, if_pos hfunc, hself]

/-- A local variable is declared in the table of its scope and listed by the function, or its name
is taken. -/
theorem Sound.add_local (hs : Sound pkg scopes h) (htable : h.tables t = some table)
    (hscope : t ∈ scopes) {f : Addr} {funcSym : Symbol} (hf : h.syms f = some funcSym)
    (hfunc : funcSym.kind = .SYM_FUNC) (name : CString) :
    (∃ h', STable_Add_Var h (some t) name = .ok (none, h')) ∨
      ∃ a h' h'', STable_Add_Var h (some t) name = .ok (some a, h') ∧
        append_locvec h' (some f) a = .ok h'' ∧ Sound pkg scopes h'' ∧ Keeps h h'' := by
  obtain ⟨l, hl, hmem⟩ := hs.holds htable
  rcases STable_Add_cases .SYM_VAR htable hl (hs.fresh_in hmem) with
    ⟨_, hfail⟩ | ⟨_, table', hl', hadd⟩
  · exact Or.inl hfail
  · have hne : f ≠ ⟨h.addrs.length, name⟩ := by
      rintro rfl
      exact hs.not_new name (hs.alloc hf)
    have hfadded : (h.added ⟨h.addrs.length, name⟩ { __symbol_new .SYM_VAR with hnode := some t } t
        table').syms f = some funcSym := (added_syms_other hne).trans hf
    have happend := append_locvec_eq hfadded hfunc added_syms_self hne.symm
    refine Or.inr ⟨_, _, _, hadd, happend, hs.declare_local hscope htable hmem hl' hf hfunc, ?_⟩
    intro b sym hb
    have hba : b ≠ ⟨h.addrs.length, name⟩ := by
      rintro rfl
      exact hs.not_new name (hs.alloc hb)
    by_cases hbf : b = f
    · subst hbf
      cases hf.symm.trans hb
      exact ⟨_, listed_syms_func hba, rfl, rfl⟩
    · exact ⟨sym, (listed_syms_other hba hbf).trans hb, rfl, rfl⟩

end add

end koala.lifetime

open koala.hashtable
open koala.parser (SymKind ScopeKind deref name__init__)

namespace koala.lifetime

set_option linter.style.nameCheck false

/-- The open scopes, the innermost one first, and the tables that functions and blocks have of
their own. -/
inductive Units (h : Heap) (pkg : Nat) : List ParserUnit → List Nat → Prop where
  | nil : Units h pkg [] []
  | module {us : List ParserUnit} {ts : List Nat} (hus : Units h pkg us ts) :
    Units h pkg (⟨.SCOPE_MODULE, none, some pkg⟩ :: us) ts
  | klass {us : List ParserUnit} {ts : List Nat} {c : Addr} {clsSym : Symbol} {t : Nat}
    (hc : h.syms c = some clsSym) (hkind : clsSym.IsKlass) (hstbl : clsSym.stbl = some t)
    (hus : Units h pkg us ts) : Units h pkg (⟨.SCOPE_CLASS, some c, some t⟩ :: us) ts
  | function {us : List ParserUnit} {ts : List Nat} {f : Addr} {funcSym : Symbol} {t : Nat}
    (hf : h.syms f = some funcSym) (hkind : funcSym.kind = .SYM_FUNC) (hus : Units h pkg us ts) :
    Units h pkg (⟨.SCOPE_FUNCTION, some f, some t⟩ :: us) (t :: ts)
  | block {us : List ParserUnit} {ts : List Nat} {t : Nat} (hne : us ≠ [])
    (hus : Units h pkg us ts) : Units h pkg (⟨.SCOPE_BLOCK, none, some t⟩ :: us) (t :: ts)

/-- What holds of the parser before and after each action. -/
structure ParserState.Sound (ps : ParserState) (scopes : List Nat) : Prop where
  sound : koala.lifetime.Sound ps.pkg scopes ps.heap
  units : Units ps.heap ps.pkg (ps.u.toList ++ ps.ustack) scopes
  empty : ps.u = none → ps.ustack = []

section units

variable {h h' : Heap} {pkg : Nat} {us : List ParserUnit} {ts : List Nat}

theorem Units.mono (hus : Units h pkg us ts) (hkeeps : Keeps h h') : Units h' pkg us ts := by
  induction hus with
  | nil => exact .nil
  | module _ ih => exact .module ih
  | klass hc hkind hstbl _ ih =>
    obtain ⟨sym', hsym', hsame, hstbl'⟩ := hkeeps _ _ hc
    exact .klass hsym' (by rwa [Symbol.IsKlass, hsame]) (hstbl'.trans hstbl) ih
  | function hf hkind _ ih =>
    obtain ⟨sym', hsym', hsame, _⟩ := hkeeps _ _ hf
    exact .function hsym' (hsame.trans hkind) ih
  | block hne _ ih => exact .block hne ih

/-- The table of a unit is there; it belongs to the scope where a function or a block has it. -/
theorem Units.table (hus : Units h pkg us ts) {scopes : List Nat} (hs : Sound pkg scopes h)
    (hscopes : ts ⊆ scopes) {uu : ParserUnit} (hmem : uu ∈ us) :
    ∃ t table, uu.stbl = some t ∧ h.tables t = some table := by
  have hlive : ∀ {t}, t = pkg ∨ t ∈ scopes ∨ (∃ c sym, h.syms c = some sym ∧ sym.stbl = some t) →
      ∃ t' table, some t = some t' ∧ h.tables t' = some table := by
    intro t ht
    obtain ⟨table, htable⟩ := (hs.live t).mpr ht
    exact ⟨t, table, rfl, htable⟩
  induction hus with
  | nil => cases hmem
  | module _ ih =>
    rcases List.mem_cons.mp hmem with rfl | hmem
    · exact hlive (Or.inl rfl)
    · exact ih hscopes hmem
  | klass hc _ hstbl _ ih =>
    rcases List.mem_cons.mp hmem with rfl | hmem
    · exact hlive (Or.inr (Or.inr ⟨_, _, hc, hstbl⟩))
    · exact ih hscopes hmem
  | function _ _ _ ih =>
    have hcons := List.cons_subset.mp hscopes
    rcases List.mem_cons.mp hmem with rfl | hmem
    · exact hlive (Or.inr (Or.inl hcons.1))
    · exact ih hcons.2 hmem
  | block _ _ ih =>
    have hcons := List.cons_subset.mp hscopes
    rcases List.mem_cons.mp hmem with rfl | hmem
    · exact hlive (Or.inr (Or.inl hcons.1))
    · exact ih hcons.2 hmem

/-- The name is looked up in the table of a unit. -/
theorem Sound.STable_Get_ok {scopes : List Nat} (hs : Sound pkg scopes h) {t : Nat}
    {table : HashTable Addr} (htable : h.tables t = some table) (name : CString) :
    ∃ found, STable_Get h (some t) name = .ok found ∧
      ∀ a, found = some a → ∃ sym, h.syms a = some sym ∧ sym.hnode = some t := by
  obtain ⟨l, hl, hmem⟩ := hs.holds htable
  refine ⟨_, STable_Get_eq htable hl, fun a ha => ?_⟩
  have hin := (ordered_map.find_eq_some ha).1
  obtain ⟨sym, hsym, hnode⟩ := Option.bind_eq_some_iff.mp ((hmem a).mp hin)
  exact ⟨sym, hsym, hnode⟩

/-- The unit is that of a function. -/
def ParserUnit.IsFunction (uu : ParserUnit) (h : Heap) : Prop :=
  ∃ f funcSym, uu.sym = some f ∧ h.syms f = some funcSym ∧ funcSym.kind = .SYM_FUNC

theorem parse_block_variable_cons {uu : ParserUnit} {name : CString}
    (hget : ∃ found, STable_Get h uu.stbl name = .ok found)
    (hfunc : uu.scope = .SCOPE_FUNCTION ∨ uu.scope = .SCOPE_CLOSURE → uu.IsFunction h)
    (hrest : ∃ found, parse_block_variable h name us = .ok found ∧
      ∀ uu, found = .function uu → uu.IsFunction h) :
    ∃ found, parse_block_variable h name (uu :: us) = .ok found ∧
      ∀ uu, found = .function uu → uu.IsFunction h := by
  obtain ⟨found, hget⟩ := hget
  rw [parse_block_variable, hget, ok_bind]
  cases found with
  | some a => exact ⟨.error, rfl, fun _ heq => nomatch heq⟩
  | none =>
    by_cases hscope : uu.scope = .SCOPE_FUNCTION ∨ uu.scope = .SCOPE_CLOSURE
    · refine ⟨.function uu, if_pos hscope, fun uu' heq => ?_⟩
      cases heq
      exact hfunc hscope
    · rw [if_neg hscope]
      exact hrest

/-- The search for the function ends, and what it finds is the unit of one. -/
theorem Units.parse_block_variable_ok (hus : Units h pkg us ts) {scopes : List Nat}
    (hs : Sound pkg scopes h) (hscopes : ts ⊆ scopes) (name : CString) :
    ∃ found, parse_block_variable h name us = .ok found ∧
      ∀ uu, found = .function uu → uu.IsFunction h := by
  have hget : ∀ {us ts} {uu : ParserUnit}, Units h pkg (uu :: us) ts → ts ⊆ scopes →
      ∃ found, STable_Get h uu.stbl name = .ok found := by
    intro us ts uu hus hscopes
    obtain ⟨t, table, hstbl, htable⟩ := hus.table hs hscopes List.mem_cons_self
    obtain ⟨found, hfound, _⟩ := hs.STable_Get_ok htable name
    exact ⟨found, hstbl ▸ hfound⟩
  induction hus with
  | nil => exact ⟨.none, rfl, fun _ heq => nomatch heq⟩
  | module hus ih =>
    exact parse_block_variable_cons (hget (.module hus) hscopes) (by simp) (ih hscopes)
  | klass hc hkind hstbl hus ih =>
    exact parse_block_variable_cons (hget (.klass hc hkind hstbl hus) hscopes) (by simp) (ih hscopes)
  | function hf hkind hus ih =>
    exact parse_block_variable_cons (hget (.function hf hkind hus) hscopes)
      (fun _ => ⟨_, _, rfl, hf, hkind⟩) (ih (List.cons_subset.mp hscopes).2)
  | block hne hus ih =>
    exact parse_block_variable_cons (hget (.block hne hus) hscopes) (by simp)
      (ih (List.cons_subset.mp hscopes).2)

end units

/-- An action ends without a fault, and keeps what holds of the parser. -/
def Progress (pkg : Nat) (x : Res (Option ParserState)) : Prop :=
  ∃ r, x = .ok r ∧ ∀ ps', r = some ps' → ps'.pkg = pkg ∧ ∃ scopes, ps'.Sound scopes

section progress

variable {ps : ParserState} {scopes : List Nat} {u : ParserUnit}

theorem Progress.rejected {pkg : Nat} : Progress pkg (.ok none) := ⟨none, rfl, fun _ h => nomatch h⟩

theorem Progress.reached (h : ps.Sound scopes) : Progress ps.pkg (.ok (some ps)) :=
  ⟨some ps, rfl, fun _ hps => Option.some.inj hps ▸ ⟨rfl, scopes, h⟩⟩

/-- The units stay where only the heap changes. -/
theorem ParserState.Sound.write (h : ps.Sound scopes) {heap : Heap}
    (hs : koala.lifetime.Sound ps.pkg scopes heap) (hkeeps : Keeps ps.heap heap) :
    { ps with heap }.Sound scopes := ⟨hs, h.units.mono hkeeps, h.empty⟩

theorem ParserState.Sound.unit (h : ps.Sound scopes) (hu : ps.u = some u) :
    Units ps.heap ps.pkg (u :: ps.ustack) scopes := by
  have hunits := h.units
  rw [hu] at hunits
  exact hunits

/-- The table of the current unit. -/
theorem ParserState.Sound.table (h : ps.Sound scopes) (hu : ps.u = some u) :
    ∃ t table, u.stbl = some t ∧ ps.heap.tables t = some table :=
  (h.unit hu).table h.sound (List.Subset.refl _) List.mem_cons_self

end progress

end koala.lifetime
