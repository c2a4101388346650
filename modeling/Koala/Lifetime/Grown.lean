import Koala.Lifetime.Sound

open koala.hashtable
open koala.parser (SymKind deref)

namespace koala.lifetime

set_option linter.style.nameCheck false

section memory

variable {h h' : Heap}

/-- What is stored in symbols matters only as far as their lists go. -/
theorem Memory.congr (hm : Memory h) (haddrs : h'.addrs = h.addrs) (hfreed : h'.freed = h.freed)
    (htables : h'.tables = h.tables) (hntables : h'.ntables = h.ntables)
    (hlive : ∀ a, h'.syms a = none ↔ h.syms a = none) (hhome : ∀ a, h'.home a = h.home a) :
    Memory h' where
  nodup := haddrs ▸ hm.nodup
  fresh := haddrs ▸ hm.fresh
  alloc := by
    intro a sym ha
    rw [haddrs]
    obtain ⟨sym', ha'⟩ : ∃ sym', h.syms a = some sym' := by
      rw [← Option.ne_none_iff_exists']
      intro hnone
      rw [(hlive a).mpr hnone] at ha
      cases ha
    exact hm.alloc ha'
  freed_nodup := hfreed ▸ hm.freed_nodup
  mem_freed a := by rw [hfreed, haddrs, hlive, hm.mem_freed]
  holds := by
    intro t table htable
    rw [htables] at htable
    obtain ⟨l, hl, hmem⟩ := hm.holds htable
    exact ⟨l, hl, fun a => by rw [hmem, hhome]⟩
  bound := by
    intro t table htable
    rw [htables] at htable
    rw [hntables]
    exact hm.bound htable

theorem Memory.not_new (hm : Memory h) (name : CString) :
    (⟨h.addrs.length, name⟩ : Addr) ∉ h.addrs := fun hmem => Nat.lt_irrefl _ (hm.fresh _ hmem)

theorem Memory.syms_new (hm : Memory h) (name : CString) :
    h.syms ⟨h.addrs.length, name⟩ = none := by
  cases hsym : h.syms ⟨h.addrs.length, name⟩ with
  | none => rfl
  | some sym => exact absurd (hm.alloc hsym) (hm.not_new name)

variable {t : Nat} {table' : HashTable Addr} {l : List Addr} {name : CString} {sym : Symbol}

theorem added_syms_self {a : Addr} : (h.added a sym t table').syms a = some sym :=
  Function.update_self ..

theorem added_syms_other {a b : Addr} (hne : b ≠ a) :
    (h.added a sym t table').syms b = h.syms b := Function.update_of_ne hne ..

theorem added_home (a : Addr) (hnode : sym.hnode = some t) :
    (h.added ⟨h.addrs.length, name⟩ sym t table').home a =
      if a = ⟨h.addrs.length, name⟩ then some t else h.home a := by
  change (Function.update h.syms _ (some sym) a).bind Symbol.hnode = _
  rw [Function.update_apply]
  split
  · exact hnode
  · rfl

/-- A new symbol comes to the end of a table. -/
theorem Memory.added (hm : Memory h) (hmem : ∀ a, a ∈ l ↔ h.home a = some t)
    (ht : t < h.ntables) (hnode : sym.hnode = some t)
    (hl : Holds table' (l ++ [⟨h.addrs.length, name⟩])) :
    Memory (h.added ⟨h.addrs.length, name⟩ sym t table') where
  nodup := by
    change (h.addrs ++ [_]).Nodup
    rw [← List.concat_eq_append]
    exact List.Nodup.concat (hm.not_new name) hm.nodup
  fresh := by
    intro a ha
    change a.addr < (h.addrs ++ [_]).length
    rw [List.length_append, List.length_singleton]
    rcases List.mem_append.mp ha with ha | ha
    · exact Nat.lt_succ_of_lt (hm.fresh a ha)
    · rw [List.mem_singleton.mp ha]
      exact Nat.lt_succ_self _
  alloc := by
    intro a sym' ha
    change Function.update h.syms _ _ a = _ at ha
    rw [Function.update_apply] at ha
    split at ha
    · next heq => exact heq ▸ List.mem_append_right _ List.mem_cons_self
    · exact List.mem_append_left _ (hm.alloc ha)
  freed_nodup := hm.freed_nodup
  mem_freed := by
    intro a
    change a ∈ h.freed ↔ a ∈ h.addrs ++ [_] ∧ Function.update h.syms _ _ a = none
    rw [hm.mem_freed, Function.update_apply, List.mem_append, List.mem_singleton]
    split
    · next heq =>
      subst heq
      have hnot := hm.not_new name
      simp [hnot]
    · next hne => simp [hne]
  holds := by
    intro t' table htable
    change Function.update h.tables t _ t' = _ at htable
    rw [Function.update_apply] at htable
    split at htable
    · next heq =>
      subst heq
      cases htable
      refine ⟨_, hl, fun a => ?_⟩
      rw [added_home a hnode, List.mem_append, List.mem_singleton, hmem]
      split
      · next heq => simp [heq]
      · next hne => simp [hne]
    · next hne =>
      obtain ⟨l', hl', hmem'⟩ := hm.holds htable
      refine ⟨l', hl', fun a => ?_⟩
      rw [added_home a hnode, hmem']
      split
      · next heq =>
        rw [heq, Heap.home, hm.syms_new name]
        have hother : t ≠ t' := Ne.symm hne
        simp [hother]
      · exact Iff.rfl
  bound := by
    intro t' table htable
    change Function.update h.tables t _ t' = _ at htable
    rw [Function.update_apply] at htable
    split at htable
    · next heq => exact heq ▸ ht
    · exact hm.bound htable

/-- A new table holds nothing. -/
theorem Memory.new_table (hm : Memory h) (hnew : ∀ a, h.home a ≠ some h.ntables) :
    Memory (STable_New h).2 where
  nodup := hm.nodup
  fresh := hm.fresh
  alloc := hm.alloc
  freed_nodup := hm.freed_nodup
  mem_freed := hm.mem_freed
  holds := by
    intro t table htable
    change Function.update h.tables _ _ t = _ at htable
    rw [Function.update_apply] at htable
    split at htable
    · next heq =>
      subst heq
      cases htable
      exact ⟨[], holds_init, fun a => iff_of_false List.not_mem_nil (hnew a)⟩
    · exact hm.holds htable
  bound := by
    intro t table htable
    change Function.update h.tables _ _ t = _ at htable
    change t < h.ntables + 1
    rw [Function.update_apply] at htable
    split at htable
    · next heq => omega
    · exact Nat.lt_succ_of_lt (hm.bound htable)

end memory

section owned

variable {pkg : Nat} {scopes : List Nat} {h h' : Heap}

theorem Sound.home_ne_new (hs : Sound pkg scopes h) (a : Addr) : h.home a ≠ some h.ntables := by
  intro ha
  obtain ⟨table, htable⟩ := hs.table_of_home ha
  exact Nat.lt_irrefl _ (hs.bound htable)

/-- A scope is opened with a table of its own. -/
theorem Sound.new_scope (hs : Sound pkg scopes h) :
    Sound pkg (h.ntables :: scopes) (STable_New h).2 where
  toMemory := hs.toMemory.new_table hs.home_ne_new
  live := by
    intro t
    change (∃ table, Function.update h.tables _ _ t = some table) ↔ _
    rw [Function.update_apply, List.mem_cons]
    split
    · next heq => simp [heq]
    · next hne =>
      rw [hs.live t]
      simp [hne]
      rfl
  distinct := by
    have hpkg := (hs.live pkg).mpr (Or.inl rfl)
    have hscope : ∀ t ∈ pkg :: scopes, t < h.ntables := by
      intro t ht
      obtain ⟨table, htable⟩ := (hs.live t).mpr (by
        rcases List.mem_cons.mp ht with rfl | ht
        · exact Or.inl rfl
        · exact Or.inr (Or.inl ht))
      exact hs.bound htable
    have hnew : h.ntables ∉ pkg :: scopes := fun hmem => Nat.lt_irrefl _ (hscope _ hmem)
    refine (List.Perm.swap _ _ _).nodup_iff.mp ?_
    exact List.nodup_cons.mpr ⟨hnew, hs.distinct⟩
  klass := hs.klass
  klass_table := by
    intro c sym t hc ht
    obtain ⟨hnode, hnot⟩ := hs.klass_table hc ht
    obtain ⟨table, htable⟩ := (hs.live t).mpr (Or.inr (Or.inr ⟨c, sym, hc, ht⟩))
    have hne : t ≠ h.ntables := Nat.ne_of_lt (hs.bound htable)
    refine ⟨hnode, ?_⟩
    simp only [List.mem_cons, not_or] at hnot ⊢
    exact ⟨hnot.1, hne, hnot.2⟩
  klass_unique := hs.klass_unique
  placed := by
    intro a sym ha
    cases hs.placed ha with
    | declared t hnode hscope hlive hlisted hcount =>
      obtain ⟨table, htable⟩ := hlive
      have hlt := hs.bound htable
      have hne : t ≠ h.ntables := Nat.ne_of_lt hlt
      refine .declared t hnode ?_ ⟨table, ?_⟩ hlisted hcount
      · simp only [List.mem_cons, not_or]
        exact ⟨hne, hscope⟩
      · exact (Function.update_of_ne hne ..).trans htable
    | inside t hkind hnode hscope hlisted hcount =>
      exact .inside t hkind hnode (List.mem_cons_of_mem _ hscope) hlisted hcount
    | listed hkind hnode hlisted hcount => exact .listed hkind hnode hlisted hcount
  once := hs.once
  listed := hs.listed
  func := hs.func

/-- A new symbol, which may be a class with a new table, is in the table of the package or of a
class. -/
theorem Owned.declare (hm : Memory h) (ho : Owned pkg scopes h) {a : Addr} {sym : Symbol} {t : Nat}
    (hnew : a ∉ h.addrs) (haddrs : h'.addrs = h.addrs ++ [a])
    (hsyms : h'.syms = Function.update h.syms a (some sym))
    (hlive : ∀ t', (∃ table, h'.tables t' = some table) ↔
      (∃ table, h.tables t' = some table) ∨ sym.stbl = some t')
    (hnode : sym.hnode = some t) (hscope : t ∉ scopes) (ht : ∃ table, h.tables t = some table)
    (hcount : sym.refcnt = 1) (hlocvec : sym.locvec = [])
    (hklass : sym.IsKlass ↔ ∃ t', sym.stbl = some t')
    (hstbl : ∀ t', sym.stbl = some t' → t = pkg ∧ ¬ ∃ table, h.tables t' = some table) :
    Owned pkg scopes h' := by
  have hfresh : h.syms a = none := by
    cases hsym : h.syms a with
    | none => rfl
    | some sym => exact absurd (hm.alloc hsym) hnew
  have hself : h'.syms a = some sym := by rw [hsyms, Function.update_self]
  have hother : ∀ {b}, b ≠ a → h'.syms b = h.syms b := fun hne => by
    rw [hsyms, Function.update_of_ne hne]
  have hold : ∀ {b sym'}, h.syms b = some sym' → h'.syms b = some sym' := by
    intro b sym' hb
    have hne : b ≠ a := by
      rintro rfl
      rw [hfresh] at hb
      cases hb
    rw [hother hne, hb]
  have hcases : ∀ {b sym'}, h'.syms b = some sym' → b = a ∧ sym' = sym ∨ h.syms b = some sym' := by
    intro b sym' hb
    by_cases hne : b = a
    · subst hne
      exact Or.inl ⟨rfl, Option.some.inj (hb.symm.trans hself)⟩
    · rw [hother hne] at hb
      exact Or.inr hb
  have hrefs : h'.references = h.references := by
    refine references_concat haddrs (fun f hf => ?_) ((locvec_eq hself).trans hlocvec)
    have hne : f ≠ a := by
      rintro rfl
      exact hnew hf
    rw [Heap.locvec, Heap.locvec, hother hne]
  have hunlisted : a ∉ h.references := by
    intro hmem
    obtain ⟨sym', hsym'⟩ := ho.listed a hmem
    rw [hfresh] at hsym'
    cases hsym'
  have hdead : ∀ {c sym' t'}, h.syms c = some sym' → sym'.stbl = some t' → sym.stbl ≠ some t' := by
    intro c sym' t' hc hc' ht'
    exact (hstbl t' ht').2 ((ho.live t').mpr (Or.inr (Or.inr ⟨c, sym', hc, hc'⟩)))
  refine ⟨fun t' => ?_, ho.distinct, ?_, ?_, ?_, ?_, hrefs ▸ ho.once, ?_, ?_⟩
  · rw [hlive, ho.live]
    constructor
    · rintro ((hpkg | hmem | ⟨c, sym', hc, hc'⟩) | ht')
      · exact Or.inl hpkg
      · exact Or.inr (Or.inl hmem)
      · exact Or.inr (Or.inr ⟨c, sym', hold hc, hc'⟩)
      · exact Or.inr (Or.inr ⟨a, sym, hself, ht'⟩)
    · rintro (hpkg | hmem | ⟨c, sym', hc, hc'⟩)
      · exact Or.inl (Or.inl hpkg)
      · exact Or.inl (Or.inr (Or.inl hmem))
      · rcases hcases hc with ⟨rfl, rfl⟩ | hc
        · exact Or.inr hc'
        · exact Or.inl (Or.inr (Or.inr ⟨c, sym', hc, hc'⟩))
  · intro c sym' hc
    rcases hcases hc with ⟨rfl, rfl⟩ | hc
    · exact hklass
    · exact ho.klass hc
  · intro c sym' t' hc ht'
    rcases hcases hc with ⟨rfl, rfl⟩ | hc
    · obtain ⟨rfl, hdead⟩ := hstbl t' ht'
      refine ⟨hnode, fun hmem => hdead ((ho.live t').mpr ?_)⟩
      rcases List.mem_cons.mp hmem with rfl | hmem
      · exact Or.inl rfl
      · exact Or.inr (Or.inl hmem)
    · exact ho.klass_table hc ht'
  · intro c c' sym₁ sym₂ t' hc hc' ht ht'
    rcases hcases hc with ⟨rfl, rfl⟩ | hc <;> rcases hcases hc' with ⟨rfl, rfl⟩ | hc'
    · rfl
    · exact absurd ht (hdead hc' ht')
    · exact absurd ht' (hdead hc ht)
    · exact ho.klass_unique hc hc' ht ht'
  · intro b sym' hb
    rcases hcases hb with ⟨rfl, rfl⟩ | hb
    · exact .declared t hnode hscope ((hlive t).mpr (Or.inl ht)) (hrefs ▸ hunlisted) hcount
    · cases ho.placed hb with
      | declared t' hnode hscope hlive' hlisted hcount =>
        exact .declared t' hnode hscope ((hlive t').mpr (Or.inl hlive')) (hrefs ▸ hlisted) hcount
      | inside t' hkind hnode hscope hlisted hcount =>
        exact .inside t' hkind hnode hscope (hrefs ▸ hlisted) hcount
      | listed hkind hnode hlisted hcount => exact .listed hkind hnode (hrefs ▸ hlisted) hcount
  · intro b hb
    rw [hrefs] at hb
    obtain ⟨sym', hsym'⟩ := ho.listed b hb
    exact ⟨sym', hold hsym'⟩
  · intro f sym' hf hne
    rcases hcases hf with ⟨rfl, rfl⟩ | hf
    · exact absurd hlocvec hne
    · exact ho.func hf hne

/-- The heap when a new variable of a scope is listed by its function. -/
def Heap.listed (h : Heap) (a f : Addr) (funcSym : Symbol) (t : Nat) (table : HashTable Addr) :
    Heap :=
  ((h.added a { __symbol_new .SYM_VAR with hnode := some t } t table).setSym f
    { funcSym with locvec := funcSym.locvec ++ [a] }).setSym a
    { __symbol_new .SYM_VAR with hnode := some t, refcnt := 2 }

section listed

variable {t : Nat} {table' : HashTable Addr} {a f : Addr} {funcSym : Symbol}

theorem listed_syms_self : (h.listed a f funcSym t table').syms a =
    some { __symbol_new .SYM_VAR with hnode := some t, refcnt := 2 } := Function.update_self ..

theorem listed_syms_func (hne : f ≠ a) : (h.listed a f funcSym t table').syms f =
    some { funcSym with locvec := funcSym.locvec ++ [a] } :=
  (Function.update_of_ne hne ..).trans (Function.update_self ..)

theorem listed_syms_other {b : Addr} (hne : b ≠ a) (hnef : b ≠ f) :
    (h.listed a f funcSym t table').syms b = h.syms b :=
  (Function.update_of_ne hne ..).trans
    ((Function.update_of_ne hnef ..).trans (Function.update_of_ne hne ..))

/-- Listing a variable changes nothing else of the function. -/
theorem listed_back (hf : h.syms f = some funcSym) (hfunc : funcSym.kind = .SYM_FUNC) {b : Addr}
    {sym' : Symbol} (hb : (h.listed a f funcSym t table').syms b = some sym') :
    b = a ∧ sym' = { __symbol_new .SYM_VAR with hnode := some t, refcnt := 2 } ∨
      b ≠ a ∧ ∃ sym, h.syms b = some sym ∧ sym'.kind = sym.kind ∧ sym'.hnode = sym.hnode ∧
        sym'.stbl = sym.stbl ∧ sym'.refcnt = sym.refcnt ∧
        (sym'.locvec = sym.locvec ∨ sym.kind = .SYM_FUNC) := by
  by_cases hba : b = a
  · subst hba
    exact Or.inl ⟨rfl, Option.some.inj (hb.symm.trans listed_syms_self)⟩
  · refine Or.inr ⟨hba, ?_⟩
    by_cases hbf : b = f
    · subst hbf
      cases hb.symm.trans (listed_syms_func hba)
      exact ⟨funcSym, hf, rfl, rfl, rfl, rfl, Or.inr hfunc⟩
    · rw [listed_syms_other hba hbf] at hb
      exact ⟨sym', hb, rfl, rfl, rfl, rfl, Or.inl rfl⟩

end listed

/-- A variable of an open scope is held by its table and listed by the function. -/
theorem Sound.declare_local (hs : Sound pkg scopes h) {t : Nat} {f : Addr} {funcSym : Symbol}
    {name : CString} {table table' : HashTable Addr} {l : List Addr} (hscope : t ∈ scopes)
    (htable : h.tables t = some table) (hmem : ∀ a, a ∈ l ↔ h.home a = some t)
    (hl : Holds table' (l ++ [⟨h.addrs.length, name⟩])) (hf : h.syms f = some funcSym)
    (hfunc : funcSym.kind = .SYM_FUNC) :
    Sound pkg scopes (h.listed ⟨h.addrs.length, name⟩ f funcSym t table') := by
  have hnew := hs.not_new name
  have hfresh := hs.syms_new name
  have hadded : Memory (h.added ⟨h.addrs.length, name⟩
      { __symbol_new .SYM_VAR with hnode := some t } t table') :=
    hs.toMemory.added hmem (hs.bound htable) rfl hl
  generalize (⟨h.addrs.length, name⟩ : Addr) = a at *
  have hne : f ≠ a := by
    rintro rfl
    exact hnew (hs.alloc hf)
  have hother : ∀ {b}, b ≠ a → b ≠ f → (h.listed a f funcSym t table').syms b = h.syms b :=
    listed_syms_other
  have hself := @listed_syms_self h t table' a f funcSym
  have hfself := @listed_syms_func h t table' a f funcSym hne
  have hback := @listed_back h t table' a f funcSym hf hfunc
  have hforth : ∀ {b sym}, h.syms b = some sym →
      ∃ sym', (h.listed a f funcSym t table').syms b = some sym' ∧ sym'.stbl = sym.stbl := by
    intro b sym hb
    by_cases hbf : b = f
    · subst hbf
      cases hf.symm.trans hb
      exact ⟨_, hfself, rfl⟩
    · have hba : b ≠ a := by
        rintro rfl
        exact hnew (hs.alloc hb)
      exact ⟨sym, (hother hba hbf).trans hb, rfl⟩
  have hlive : ∀ t', (∃ table, (h.listed a f funcSym t table').tables t' = some table) ↔
      ∃ table, h.tables t' = some table := by
    intro t'
    change (∃ table, Function.update h.tables t _ t' = some table) ↔ _
    rw [Function.update_apply]
    split
    · next heq => simp [heq, htable]
    · exact Iff.rfl
  have hrefs : (h.listed a f funcSym t table').references.Perm (a :: h.references) := by
    have hsame := @references_concat h
      (h.added a { __symbol_new .SYM_VAR with hnode := some t } t table') a rfl
      (fun g hg => by
        have hga : g ≠ a := fun heq => hnew (heq ▸ hg)
        rw [Heap.locvec, Heap.locvec, added_syms_other hga])
      (locvec_eq added_syms_self)
    rw [← hsame]
    refine references_perm rfl hadded.nodup (List.mem_append_left _ (hs.alloc hf)) ?_ ?_
    · intro g hg hgf
      by_cases hga : g = a
      · subst hga
        rw [locvec_eq hself, locvec_eq added_syms_self]
      · rw [Heap.locvec, Heap.locvec, hother hga hgf, added_syms_other hga]
    · rw [locvec_eq hfself, locvec_eq ((added_syms_other hne).trans hf)]
  have hunlisted : a ∉ h.references := by
    intro hmem
    obtain ⟨sym', hsym'⟩ := hs.listed a hmem
    rw [hfresh] at hsym'
    cases hsym'
  have hlisted : ∀ {b}, b ≠ a → (b ∈ (h.listed a f funcSym t table').references ↔
      b ∈ h.references) := by
    intro b hba
    rw [hrefs.mem_iff, List.mem_cons]
    exact or_iff_right hba
  have hmemory : Memory (h.listed a f funcSym t table') := by
    refine hadded.congr rfl rfl rfl rfl (fun b => ?_) fun b => ?_
    · by_cases hba : b = a
      · subst hba
        rw [hself, added_syms_self]
        simp
      · rw [added_syms_other hba]
        by_cases hbf : b = f
        · subst hbf
          rw [hfself, hf]
          simp
        · rw [hother hba hbf]
    · by_cases hba : b = a
      · subst hba
        rw [home_eq hself, home_eq added_syms_self]
      · rw [Heap.home, Heap.home, added_syms_other hba]
        by_cases hbf : b = f
        · subst hbf
          rw [hfself, hf]
          rfl
        · rw [hother hba hbf]
  refine ⟨hmemory, fun t' => ?_, hs.distinct, ?_, ?_, ?_, ?_, ?_, ?_, ?_⟩
  · rw [hlive, hs.live]
    refine or_congr Iff.rfl (or_congr Iff.rfl ⟨?_, ?_⟩)
    · rintro ⟨c, sym, hc, hc'⟩
      obtain ⟨sym', hsym', hstbl⟩ := hforth hc
      exact ⟨c, sym', hsym', hstbl.trans hc'⟩
    · rintro ⟨c, sym', hc, hc'⟩
      rcases hback hc with ⟨rfl, rfl⟩ | ⟨_, sym, hsym, _, _, hstbl, _⟩
      · cases hc'
      · exact ⟨c, sym, hsym, hstbl.symm.trans hc'⟩
  · intro c sym' hc
    rcases hback hc with ⟨rfl, rfl⟩ | ⟨_, sym, hsym, hkind, _, hstbl, _⟩
    · exact iff_of_false (by simp [Symbol.IsKlass, __symbol_new]) (by simp [__symbol_new])
    · rw [Symbol.IsKlass, hkind, hstbl]
      exact hs.klass hsym
  · intro c sym' t' hc ht'
    rcases hback hc with ⟨rfl, rfl⟩ | ⟨_, sym, hsym, _, hnode, hstbl, _⟩
    · cases ht'
    · rw [hnode]
      exact hs.klass_table hsym (hstbl ▸ ht')
  · intro c c' sym₁ sym₂ t' hc hc' ht ht'
    rcases hback hc with ⟨rfl, rfl⟩ | ⟨_, sym, hsym, _, _, hstbl, _⟩
    · cases ht
    · rcases hback hc' with ⟨rfl, rfl⟩ | ⟨_, sym', hsym', _, _, hstbl', _⟩
      · cases ht'
      · exact hs.klass_unique hsym hsym' (hstbl ▸ ht) (hstbl' ▸ ht')
  · intro b sym' hb
    rcases hback hb with ⟨rfl, rfl⟩ | ⟨hba, sym, hsym, hkind, hnode, _, hcount, _⟩
    · exact .inside t rfl rfl hscope (hrefs.mem_iff.mpr List.mem_cons_self) rfl
    · cases hs.placed hsym with
      | declared t' hnode' hscope' hlive' hnot hcount' =>
        exact .declared t' (hnode.trans hnode') hscope' ((hlive t').mpr hlive')
          (mt (hlisted hba).mp hnot) (hcount.trans hcount')
      | inside t' hkind' hnode' hscope' hin hcount' =>
        exact .inside t' (hkind.trans hkind') (hnode.trans hnode') hscope' ((hlisted hba).mpr hin)
          (hcount.trans hcount')
      | listed hkind' hnode' hin hcount' =>
        exact .listed (hkind.trans hkind') (hnode.trans hnode') ((hlisted hba).mpr hin)
          (hcount.trans hcount')
  · rw [hrefs.nodup_iff]
    exact List.nodup_cons.mpr ⟨hunlisted, hs.once⟩
  · intro b hb
    by_cases hba : b = a
    · subst hba
      exact ⟨_, hself⟩
    · obtain ⟨sym, hsym⟩ := hs.listed b ((hlisted hba).mp hb)
      obtain ⟨sym', hsym', _⟩ := hforth hsym
      exact ⟨sym', hsym'⟩
  · intro g sym' hg hlocvec
    rcases hback hg with ⟨rfl, rfl⟩ | ⟨_, sym, hsym, hkind, _, _, _, hsame | hfuncs⟩
    · exact absurd rfl hlocvec
    · exact hkind.trans (hs.func hsym (hsame ▸ hlocvec))
    · exact hkind.trans hfuncs

end owned

end koala.lifetime
