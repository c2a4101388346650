import Koala.Lifetime.Grown

open koala.hashtable
open koala.parser (SymKind deref)

namespace koala.lifetime

set_option linter.style.nameCheck false

/-- A symbol that its table gave up. -/
def Symbol.dropped (sym : Symbol) : Symbol :=
  { sym with refcnt := sym.refcnt - 1, hnode := none }

namespace Heap

/-- The heap when the symbols `l` were given up, with a table as it is then, or without it. -/
def dropped (h : Heap) (l : List Addr) (t : Nat) (table : Option (HashTable Addr)) : Heap :=
  { h with
    syms := fun a => if a ∈ l then (h.syms a).map Symbol.dropped else h.syms a
    tables := Function.update h.tables t table }

end Heap

section free

variable {h : Heap} {a : Addr} {sym : Symbol} {t : Nat} {table : HashTable Addr}

theorem Remove_HashNode_eq (ha : h.syms a = some sym) (hnode : sym.hnode = some t)
    (htable : h.tables t = some table) : Remove_HashNode h a =
      .ok ((h.setTable t (unlink table a)).setSym a { sym with hnode := none }) := by
  rw [Remove_HashNode, ha, deref_some, ok_bind]
  simp only [hnode, htable, deref_some, ok_bind]

/-- A node that is in no list stays as it is. -/
theorem Remove_HashNode_unlinked (ha : h.syms a = some sym) (hnode : sym.hnode = none) :
    Remove_HashNode h a = .ok h := by
  rw [Remove_HashNode, ha, deref_some, ok_bind]
  simp only [hnode]

theorem Symbol_Free_counted (ha : h.syms a = some sym) (hcount : 1 < sym.refcnt) :
    Symbol_Free h a = .ok (h.setSym a { sym with refcnt := sym.refcnt - 1 }) := by
  rw [Symbol_Free, DEPTH, Symbol_Free.loop, ha, deref_some, ok_bind, if_neg (by omega)]

/-- A table without symbols has nothing to visit. -/
theorem HashTable_Fini_empty (htable : h.tables t = some table) (hleft : Left table []) :
    HashTable_Fini t h = .ok h := by
  have hfirst : table.llink.next none = none := hleft.1.first
  rw [HashTable_Fini, STable_Visit]
  change (deref (h.tables t) >>= _) = _
  rw [htable, deref_some, ok_bind, hfirst, STable_Visit.loop]

variable {l : List Addr}

/-- A symbol with another owner is given up by its table. -/
theorem symbol_free_fn_dropped {done rest : List Addr} (hnodup : (done ++ a :: rest).Nodup)
    (ha : h.syms a = some sym) (hnode : sym.hnode = some t) (hcount : 1 < sym.refcnt) :
    __symbol_free_fn (h.dropped done t (some table)) a =
      .ok (h.dropped (done ++ [a]) t (some (unlink table a))) := by
  have hnot : a ∉ done := fun hmem => List.disjoint_of_nodup_append hnodup hmem List.mem_cons_self
  have hsym : (h.dropped done t (some table)).syms a = some sym := (if_neg hnot).trans ha
  have htable : (h.dropped done t (some table)).tables t = some table := Function.update_self ..
  have hunlinked : (((h.dropped done t (some table)).setTable t (unlink table a)).setSym a
      { sym with hnode := none }).syms a = some { sym with hnode := none } :=
    Function.update_self ..
  rw [__symbol_free_fn, symbol_free_fn, Remove_HashNode_eq hsym hnode htable, ok_bind,
    Symbol_Free_counted hunlinked hcount]
  have htables : Function.update (Function.update h.tables t (some table)) t
      (some (unlink table a)) = Function.update h.tables t (some (unlink table a)) :=
    Function.update_idem ..
  refine congrArg Except.ok ?_
  simp only [Heap.dropped, Heap.setSym, Heap.setTable, htables, Function.update_idem]
  congr 1
  funext b
  rw [Function.update_apply]
  by_cases hb : b = a
  · subst hb
    rw [if_pos rfl, if_pos (List.mem_append_right _ List.mem_cons_self), ha]
    rfl
  · have hmem : b ∈ done ++ [a] ↔ b ∈ done := by simp [hb]
    rw [if_neg hb]
    simp only [hmem]

/-- A table all of whose symbols have other owners gives them up, and is freed. -/
theorem STable_Free_dropped (htable : h.tables t = some table) (hl : Holds table l)
    (hcounted : ∀ a ∈ l, ∃ sym, h.syms a = some sym ∧ sym.hnode = some t ∧ 1 < sym.refcnt) :
    STable_Free (some t) h = .ok (h.dropped l t none) := by
  have hstart : h = h.dropped [] t (some table) := by
    have htables : Function.update h.tables t (some table) = h.tables := by
      rw [← htable, Function.update_eq_self]
    simp [Heap.dropped, htables]
  let P : List Addr → Heap → Prop := fun rest s => ∃ done table', done ++ rest = l ∧
    Left table' rest ∧ s = h.dropped done t (some table')
  have hnext : ∀ a rest s, P (a :: rest) s → ∃ sym table, s.syms a = some sym ∧
      s.tables t = some table ∧ table.llink.next (some a) = rest.head? := by
    rintro a rest s ⟨done, table', rfl, hleft, rfl⟩
    obtain ⟨sym, hsym, -⟩ := hcounted a (List.mem_append_right _ List.mem_cons_self)
    have hnot : a ∉ done :=
      fun hmem => List.disjoint_of_nodup_append hl.nodup hmem List.mem_cons_self
    exact ⟨sym, table', (if_neg hnot).trans hsym, Function.update_self .., hleft.1.next⟩
  have hvisit : ∀ a rest s, P (a :: rest) s → ∃ s', __symbol_free_fn s a = .ok s' ∧ P rest s' := by
    rintro a rest s ⟨done, table', rfl, hleft, rfl⟩
    obtain ⟨sym, hsym, hnode, hcount⟩ := hcounted a (List.mem_append_right _ List.mem_cons_self)
    refine ⟨_, symbol_free_fn_dropped hl.nodup hsym hnode hcount, done ++ [a], _, ?_, hleft.unlink,
      rfl⟩
    rw [List.append_assoc, List.singleton_append]
  have hvisited : ∃ s', STable_Visit id __symbol_free_fn t h = .ok s' ∧ P [] s' :=
    STable_Visit_spec P hnext hvisit htable hl.left ⟨[], table, rfl, hl.left, hstart⟩
  obtain ⟨s', hrun, done, table', hdone, hleft, rfl⟩ := hvisited
  rw [List.append_nil] at hdone
  subst hdone
  have hfini := HashTable_Fini_empty (h := h.dropped done t (some table')) (Function.update_self ..)
    hleft
  simp only [STable_Free, __STable_Free, hrun, ok_bind, hfini]
  refine congrArg Except.ok ?_
  simp only [Heap.dropped, Function.update_idem]

end free

section sound

variable {pkg t : Nat} {scopes : List Nat} {h : Heap} {table : HashTable Addr} {l : List Addr}

theorem Sound.inside (hs : Sound pkg (t :: scopes) h) {a : Addr} (ha : h.home a = some t) :
    ∃ sym, h.syms a = some sym ∧ sym.kind = .SYM_VAR ∧ sym.hnode = some t ∧
      a ∈ h.references ∧ sym.refcnt = 2 := by
  obtain ⟨sym, hsym, hnode⟩ := Option.bind_eq_some_iff.mp ha
  refine ⟨sym, hsym, ?_⟩
  cases hs.placed hsym with
  | declared t' hnode' hscope =>
    cases hnode'.symm.trans hnode
    exact absurd List.mem_cons_self hscope
  | inside t' hkind hnode' hscope hlisted hcount => exact ⟨hkind, hnode, hlisted, hcount⟩
  | listed hkind hnode' => cases hnode'.symm.trans hnode

/-- The table of the innermost scope gives up its symbols, and those only. -/
theorem Sound.STable_Free_scope (hs : Sound pkg (t :: scopes) h)
    (htable : h.tables t = some table) (hl : Holds table l)
    (hmem : ∀ a, a ∈ l ↔ h.home a = some t) :
    STable_Free (some t) h = .ok (h.dropped l t none) := by
  refine STable_Free_dropped htable hl fun a ha => ?_
  obtain ⟨sym, hsym, _, hnode, _, hcount⟩ := hs.inside ((hmem a).mp ha)
  exact ⟨sym, hsym, hnode, by omega⟩

theorem Sound.close_scope (hs : Sound pkg (t :: scopes) h) (hmem : ∀ a, a ∈ l ↔ h.home a = some t) :
    Sound pkg scopes (h.dropped l t none) := by
  have hlive : ∀ {a sym'}, (h.dropped l t none).syms a = some sym' → ∃ sym, h.syms a = some sym ∧
      (a ∈ l ∧ sym' = sym.dropped ∨ a ∉ l ∧ sym' = sym) := by
    intro a sym' ha
    change (if a ∈ l then (h.syms a).map Symbol.dropped else h.syms a) = some sym' at ha
    split at ha
    · next hin =>
      obtain ⟨sym, hsym, rfl⟩ := Option.map_eq_some_iff.mp ha
      exact ⟨sym, hsym, Or.inl ⟨hin, rfl⟩⟩
    · next hnot => exact ⟨sym', ha, Or.inr ⟨hnot, rfl⟩⟩
  have hkept : ∀ {a sym'}, (h.dropped l t none).syms a = some sym' → ∃ sym, h.syms a = some sym ∧
      sym'.kind = sym.kind ∧ sym'.stbl = sym.stbl ∧ sym'.locvec = sym.locvec := by
    intro a sym' ha
    obtain ⟨sym, hsym, ⟨_, rfl⟩ | ⟨_, rfl⟩⟩ := hlive ha
    · exact ⟨sym, hsym, rfl, rfl, rfl⟩
    · exact ⟨sym', hsym, rfl, rfl, rfl⟩
  have hforth : ∀ {a sym}, h.syms a = some sym → ∃ sym', (h.dropped l t none).syms a = some sym' ∧
      sym'.stbl = sym.stbl := by
    intro a sym ha
    change ∃ sym', (if a ∈ l then (h.syms a).map Symbol.dropped else h.syms a) = some sym' ∧ _
    rw [ha]
    split
    · exact ⟨_, rfl, rfl⟩
    · exact ⟨_, rfl, rfl⟩
  have hnone : ∀ a, (h.dropped l t none).syms a = none ↔ h.syms a = none := by
    intro a
    change (if a ∈ l then (h.syms a).map Symbol.dropped else h.syms a) = none ↔ _
    split
    · exact Option.map_eq_none_iff
    · exact Iff.rfl
  have hhome : ∀ a t', (h.dropped l t none).home a = some t' ↔ h.home a = some t' ∧ t' ≠ t := by
    intro a t'
    change (if a ∈ l then (h.syms a).map Symbol.dropped else h.syms a).bind _ = _ ↔ _
    split
    · next hin =>
      rw [(hmem a).mp hin]
      cases h.syms a with
      | none => simp [eq_comm]
      | some sym => simp [Symbol.dropped, eq_comm]
    · next hnot =>
      rw [hmem] at hnot
      refine ⟨fun ha => ⟨ha, ?_⟩, And.left⟩
      rintro rfl
      exact hnot ha
  have hrefs : (h.dropped l t none).references = h.references := by
    refine references_congr rfl fun f _ => ?_
    change ((if f ∈ l then (h.syms f).map Symbol.dropped else h.syms f)).elim [] _ = _
    rw [Heap.locvec]
    split
    · cases h.syms f <;> rfl
    · rfl
  have htables : ∀ t' table, (h.dropped l t none).tables t' = some table ↔
      h.tables t' = some table ∧ t' ≠ t := by
    intro t' table
    change Function.update h.tables t none t' = some table ↔ _
    rw [Function.update_apply]
    split
    · next heq => simp [heq]
    · next hne => simp [hne]
  have hdistinct := List.nodup_cons.mp hs.distinct
  have hscopes := List.nodup_cons.mp hdistinct.2
  have hpkg : pkg ≠ t := fun heq => hdistinct.1 (heq ▸ List.mem_cons_self)
  refine ⟨⟨hs.nodup, hs.fresh, ?_, hs.freed_nodup, ?_, ?_, ?_⟩,
    ⟨fun t' => ?_, ?_, ?_, ?_, ?_, ?_, hrefs ▸ hs.once, ?_, ?_⟩⟩
  · intro a sym' ha
    obtain ⟨sym, hsym, _⟩ := hkept ha
    exact hs.alloc hsym
  · intro a
    rw [hnone]
    exact hs.mem_freed a
  · intro t' table htable
    obtain ⟨htable, hne⟩ := (htables t' table).mp htable
    obtain ⟨l', hl', hmem'⟩ := hs.holds htable
    refine ⟨l', hl', fun a => ?_⟩
    rw [hmem', hhome]
    exact (and_iff_left hne).symm
  · intro t' table htable
    exact hs.bound ((htables t' table).mp htable).1
  · have hopen : (∃ table, (h.dropped l t none).tables t' = some table) ↔
        (∃ table, h.tables t' = some table) ∧ t' ≠ t := by
      constructor
      · rintro ⟨table, htable⟩
        obtain ⟨htable, hne⟩ := (htables t' table).mp htable
        exact ⟨⟨table, htable⟩, hne⟩
      · rintro ⟨⟨table, htable⟩, hne⟩
        exact ⟨table, (htables t' table).mpr ⟨htable, hne⟩⟩
    rw [hopen, hs.live, List.mem_cons]
    constructor
    · rintro ⟨hsame | (hsame | hin) | ⟨c, sym, hc, ht'⟩, hne⟩
      · exact Or.inl hsame
      · exact absurd hsame hne
      · exact Or.inr (Or.inl hin)
      · obtain ⟨sym', hsym', hstbl⟩ := hforth hc
        exact Or.inr (Or.inr ⟨c, sym', hsym', hstbl.trans ht'⟩)
    · rintro (hsame | hin | ⟨c, sym', hc, ht'⟩)
      · exact ⟨Or.inl hsame, hsame ▸ hpkg⟩
      · refine ⟨Or.inr (Or.inl (Or.inr hin)), ?_⟩
        rintro rfl
        exact hscopes.1 hin
      · obtain ⟨sym, hsym, _, hstbl, _⟩ := hkept hc
        rw [hstbl] at ht'
        refine ⟨Or.inr (Or.inr ⟨c, sym, hsym, ht'⟩), ?_⟩
        rintro rfl
        exact (hs.klass_table hsym ht').2 (List.mem_cons_of_mem _ List.mem_cons_self)
  · refine List.nodup_cons.mpr ⟨fun hin => hdistinct.1 (List.mem_cons_of_mem _ hin), hscopes.2⟩
  · intro c sym' hc
    obtain ⟨sym, hsym, hkind, hstbl, _⟩ := hkept hc
    rw [Symbol.IsKlass, hkind, hstbl]
    exact hs.klass hsym
  · intro c sym' t' hc ht'
    obtain ⟨sym, hsym, ⟨hin, rfl⟩ | ⟨_, rfl⟩⟩ := hlive hc
    · -- a symbol of the scope is no class
      obtain ⟨hnode, hnot⟩ := hs.klass_table hsym ht'
      obtain ⟨sym₁, hsym₁, _, hnode₁, _⟩ := hs.inside ((hmem c).mp hin)
      cases hsym.symm.trans hsym₁
      exact absurd (Option.some.inj (hnode.symm.trans hnode₁)) hpkg
    · obtain ⟨hnode, hnot⟩ := hs.klass_table hsym ht'
      refine ⟨hnode, fun hin => hnot ?_⟩
      rcases List.mem_cons.mp hin with rfl | hin
      · exact List.mem_cons_self
      · exact List.mem_cons_of_mem _ (List.mem_cons_of_mem _ hin)
  · intro c c' sym₁ sym₂ t' hc hc' ht ht'
    obtain ⟨sym, hsym, _, hstbl, _⟩ := hkept hc
    obtain ⟨sym', hsym', _, hstbl', _⟩ := hkept hc'
    exact hs.klass_unique hsym hsym' (hstbl.symm.trans ht) (hstbl'.symm.trans ht')
  · intro a sym' ha
    obtain ⟨sym, hsym, ⟨hin, rfl⟩ | ⟨hnot, rfl⟩⟩ := hlive ha
    · obtain ⟨sym₁, hsym₁, hkind, _, hlisted, hcount⟩ := hs.inside ((hmem a).mp hin)
      cases hsym.symm.trans hsym₁
      refine .listed hkind rfl (hrefs ▸ hlisted) ?_
      change sym.refcnt - 1 = 1
      omega
    · cases hs.placed hsym with
      | declared t' hnode hscope hlive' hlisted hcount =>
        obtain ⟨table, htable⟩ := hlive'
        rw [List.mem_cons, not_or] at hscope
        exact .declared t' hnode hscope.2 ⟨table, (htables t' table).mpr ⟨htable, hscope.1⟩⟩
          (hrefs ▸ hlisted) hcount
      | inside t' hkind hnode hscope hlisted hcount =>
        refine .inside t' hkind hnode ?_ (hrefs ▸ hlisted) hcount
        refine (List.mem_cons.mp hscope).resolve_left ?_
        rintro rfl
        exact hnot ((hmem a).mpr ((home_eq hsym).trans hnode))
      | listed hkind hnode hlisted hcount => exact .listed hkind hnode (hrefs ▸ hlisted) hcount
  · intro a ha
    rw [hrefs] at ha
    obtain ⟨sym, hsym⟩ := hs.listed a ha
    obtain ⟨sym', hsym', _⟩ := hforth hsym
    exact ⟨sym', hsym'⟩
  · intro f sym' hf hlocvec
    obtain ⟨sym, hsym, hkind, _, hsame⟩ := hkept hf
    exact hkind.trans (hs.func hsym (hsame ▸ hlocvec))

end sound

end koala.lifetime
