import Koala.Lifetime.Released
import Mathlib.Data.List.Pairwise

open koala.hashtable
open koala.parser (SymKind deref)

namespace koala.lifetime

set_option linter.style.nameCheck false

theorem nodup_flatMap_of {α β : Type} {f : α → List β} {l : List α} (hl : l.Nodup)
    (hf : ∀ x ∈ l, (f x).Nodup)
    (hunique : ∀ x ∈ l, ∀ x' ∈ l, ∀ y, y ∈ f x → y ∈ f x' → x = x') : (l.flatMap f).Nodup := by
  refine List.nodup_flatMap.mpr ⟨hf, ?_⟩
  refine List.Pairwise.imp_of_mem (fun hx hx' hne => ?_) hl
  intro y hy hy'
  exact hne (hunique _ hx _ hx' y hy hy')

theorem eq_of_mem_flatMap {α β : Type} {f : α → List β} {l : List α} (hnodup : (l.flatMap f).Nodup)
    {x x' : α} (hx : x ∈ l) (hx' : x' ∈ l) {y : β} (hy : y ∈ f x) (hy' : y ∈ f x') : x = x' := by
  by_contra hne
  have hsymm : Std.Symm (Function.onFun List.Disjoint f) := ⟨fun _ _ hd => List.Disjoint.symm hd⟩
  have hpairwise : l.Pairwise (Function.onFun List.Disjoint f) := (List.nodup_flatMap.mp hnodup).2
  exact hpairwise.forall hx hx' hne hy hy'

namespace Heap

variable (h : Heap)

/-- A symbol and the variables that are freed with it. -/
def own (a : Addr) : List Addr := h.locvec a ++ [a]

/-- The table of a class. -/
def klass (a : Addr) : Option Nat := (h.syms a).bind Symbol.stbl

/-- What is declared in a class. -/
def members (a : Addr) : List Addr := (h.klass a).elim [] h.symbols

/-- What is freed with a symbol of the package. -/
def freed_with (a : Addr) : List Addr := (h.members a ++ [a]).flatMap h.own

/-- All that is declared: what is in the package, and what is in its classes. -/
def declared (pkg : Nat) : List Addr := (h.symbols pkg).flatMap fun a => h.members a ++ [a]

end Heap

section own

variable {pkg : Nat} {h : Heap}

theorem klass_eq {c : Addr} {sym : Symbol} (hc : h.syms c = some sym) : h.klass c = sym.stbl := by
  rw [Heap.klass, hc]
  rfl

/-- What a table declares when all scopes were left. -/
theorem Sound.declared (hs : Sound pkg [] h) {a : Addr} {t : Nat} (ha : h.home a = some t) :
    ∃ sym, h.syms a = some sym ∧ sym.hnode = some t ∧ a ∉ h.references ∧ sym.refcnt = 1 := by
  obtain ⟨sym, hsym, hnode⟩ := Option.bind_eq_some_iff.mp ha
  refine ⟨sym, hsym, hnode, ?_⟩
  cases hs.placed hsym with
  | declared _ _ _ _ hlisted hcount => exact ⟨hlisted, hcount⟩
  | inside _ _ _ hscope => cases hscope
  | listed _ hnode' => cases hnode'.symm.trans hnode

/-- What is listed when all scopes were left. -/
theorem Sound.local_listed (hs : Sound pkg [] h) {a : Addr} (ha : a ∈ h.references) :
    ∃ sym, h.syms a = some sym ∧ sym.kind = .SYM_VAR ∧ sym.hnode = none ∧ sym.refcnt = 1 := by
  obtain ⟨sym, hsym⟩ := hs.listed a ha
  refine ⟨sym, hsym, ?_⟩
  cases hs.placed hsym with
  | declared _ _ _ _ hlisted => exact absurd ha hlisted
  | inside _ _ _ hscope => cases hscope
  | listed hkind hnode _ hcount => exact ⟨hkind, hnode, hcount⟩

theorem Memory.listed_of_locvec (hm : Memory h) {f b : Addr} (hb : b ∈ h.locvec f) :
    f ∈ h.addrs ∧ b ∈ h.references := by
  rw [Heap.locvec] at hb
  cases hf : h.syms f with
  | none =>
    rw [hf] at hb
    cases hb
  | some sym =>
    refine ⟨hm.alloc hf, mem_references.mpr ⟨f, hm.alloc hf, ?_⟩⟩
    rw [Heap.locvec]
    exact hb

/-- A declared symbol is the only one that owns what it owns. -/
theorem Sound.own_unique (hs : Sound pkg [] h) {f f' b : Addr} {t t' : Nat}
    (hf : h.home f = some t) (hf' : h.home f' = some t') (hb : b ∈ h.own f) (hb' : b ∈ h.own f') :
    f = f' := by
  obtain ⟨_, _, _, hlisted, _⟩ := hs.declared hf
  obtain ⟨_, _, _, hlisted', _⟩ := hs.declared hf'
  rcases List.mem_append.mp hb with hb | hb <;> rcases List.mem_append.mp hb' with hb' | hb'
  · exact eq_of_mem_flatMap hs.once (hs.listed_of_locvec hb).1 (hs.listed_of_locvec hb').1 hb hb'
  · rw [List.mem_singleton] at hb'
    exact absurd (hb' ▸ (hs.listed_of_locvec hb).2) hlisted'
  · rw [List.mem_singleton] at hb
    exact absurd (hb ▸ (hs.listed_of_locvec hb').2) hlisted
  · rw [List.mem_singleton] at hb hb'
    exact hb.symm.trans hb'

theorem Sound.own_nodup (hs : Sound pkg [] h) {f : Addr} {t : Nat} (hf : h.home f = some t) :
    (h.own f).Nodup := by
  obtain ⟨sym, hsym, _, hlisted, _⟩ := hs.declared hf
  have hvec : (h.locvec f).Nodup := (List.nodup_flatMap.mp hs.once).1 f (hs.alloc hsym)
  refine List.nodup_append.mpr ⟨hvec, List.nodup_singleton f, fun b hb b' hb' => ?_⟩
  rw [List.mem_singleton] at hb'
  rintro rfl
  exact hlisted (hb' ▸ (hs.listed_of_locvec hb).2)

theorem mem_own_self (a : Addr) : a ∈ h.own a := List.mem_append_right _ List.mem_cons_self

/-- A symbol that is no class is freed with the variables that it lists. -/
theorem Sound.frees_own (hs : Sound pkg [] h) {a : Addr} {t : Nat} (ha : h.home a = some t)
    (hklass : h.klass a = none) (depth : Nat) :
    Frees (Symbol_Free.loop (depth + 2)) h a (h.own a) [] := by
  obtain ⟨sym, hsym, _, _, hcount⟩ := hs.declared ha
  have hnot : ¬ sym.IsKlass := by
    rw [hs.klass hsym, ← klass_eq hsym, hklass]
    rintro ⟨t, ht⟩
    cases ht
  have hnodup := hs.own_nodup ha
  rw [Heap.own, locvec_eq hsym] at hnodup ⊢
  by_cases hfunc : sym.kind = .SYM_FUNC
  · refine frees_func hsym hcount hfunc hnodup fun b hb => ?_
    rw [← locvec_eq hsym] at hb
    exact hs.local_listed (hs.listed_of_locvec hb).2
  · have hvec : sym.locvec = [] := by
      by_contra hne
      exact hfunc (hs.func hsym hne)
    rw [hvec]
    exact frees_plain hsym hcount hfunc hnot

end own

section package

variable {pkg : Nat} {h : Heap}

theorem Memory.symbols_nodup (hm : Memory h) (t : Nat) : (h.symbols t).Nodup := by
  rw [Heap.symbols]
  cases htable : h.tables t with
  | none => exact List.nodup_nil
  | some table =>
    obtain ⟨l, hl, _⟩ := hm.holds htable
    have hvisit : HashTable_Visit table = some l := hl.left.1.visit hl.left.2
    simp only [Option.bind_some, hvisit, Option.getD_some]
    exact hl.nodup

/-- What a class declares is in its table, which is not that of the package. -/
theorem Sound.mem_members (hs : Sound pkg [] h) {c b : Addr} :
    b ∈ h.members c ↔ ∃ t, h.klass c = some t ∧ h.home b = some t ∧ t ≠ pkg := by
  rw [Heap.members]
  cases hklass : h.klass c with
  | none => simp
  | some t =>
    obtain ⟨sym, hsym, hstbl⟩ := Option.bind_eq_some_iff.mp hklass
    have hne : t ≠ pkg := fun heq => (hs.klass_table hsym hstbl).2 (heq ▸ List.mem_cons_self)
    have hlive := (hs.live t).mpr (Or.inr (Or.inr ⟨c, sym, hsym, hstbl⟩))
    change b ∈ h.symbols t ↔ _
    rw [hs.symbols_iff]
    constructor
    · rintro ⟨hb, _⟩
      exact ⟨t, rfl, hb, hne⟩
    · rintro ⟨t', ht', hb, _⟩
      cases ht'
      exact ⟨hb, hlive⟩

/-- What is declared in a class is no class. -/
theorem Sound.klass_of_member (hs : Sound pkg [] h) {b : Addr} {t : Nat} (hb : h.home b = some t)
    (hne : t ≠ pkg) : h.klass b = none := by
  obtain ⟨sym, hsym, hnode, _⟩ := hs.declared hb
  rw [klass_eq hsym]
  cases hstbl : sym.stbl with
  | none => rfl
  | some t' =>
    have hhome := hnode.symm.trans (hs.klass_table hsym hstbl).1
    exact absurd (Option.some.inj hhome) hne

theorem Sound.mem_declared (hs : Sound pkg [] h) {a : Addr} :
    a ∈ h.declared pkg ↔ ∃ t, h.home a = some t := by
  have hpkg : ∃ table, h.tables pkg = some table := (hs.live pkg).mpr (Or.inl rfl)
  rw [Heap.declared, List.mem_flatMap]
  constructor
  · rintro ⟨c, hc, hmem⟩
    rcases List.mem_append.mp hmem with hmem | hmem
    · obtain ⟨t, _, ha, _⟩ := hs.mem_members.mp hmem
      exact ⟨t, ha⟩
    · rw [List.mem_singleton] at hmem
      exact ⟨pkg, hmem ▸ (hs.symbols_iff.mp hc).1⟩
  · rintro ⟨t, ha⟩
    rcases (hs.live t).mp (hs.table_of_home ha) with rfl | hscope | ⟨c, sym, hsym, hstbl⟩
    · exact ⟨a, hs.symbols_iff.mpr ⟨ha, hpkg⟩, List.mem_append_right _ List.mem_cons_self⟩
    · cases hscope
    · obtain ⟨hnode, hnot⟩ := hs.klass_table hsym hstbl
      have hne : t ≠ pkg := fun heq => hnot (heq ▸ List.mem_cons_self)
      refine ⟨c, hs.symbols_iff.mpr ⟨(home_eq hsym).trans hnode, hpkg⟩, List.mem_append_left _ ?_⟩
      exact hs.mem_members.mpr ⟨t, (klass_eq hsym).trans hstbl, ha, hne⟩

theorem Sound.declared_nodup (hs : Sound pkg [] h) : (h.declared pkg).Nodup := by
  have hhome : ∀ {c}, c ∈ h.symbols pkg → h.home c = some pkg := fun hc => (hs.symbols_iff.mp hc).1
  have hmembers : ∀ {c}, (h.members c).Nodup := by
    intro c
    rw [Heap.members]
    cases h.klass c with
    | none => exact List.nodup_nil
    | some t => exact hs.symbols_nodup t
  refine nodup_flatMap_of (hs.symbols_nodup pkg) (fun c hc => ?_) fun c hc c' hc' b hb hb' => ?_
  · refine List.nodup_append.mpr ⟨hmembers, List.nodup_singleton c, fun b hb b' hb' => ?_⟩
    rw [List.mem_singleton] at hb'
    obtain ⟨t, _, hin, hne⟩ := hs.mem_members.mp hb
    rintro rfl
    rw [hb', hhome hc] at hin
    exact hne (Option.some.inj hin).symm
  · rcases List.mem_append.mp hb with hb | hb <;> rcases List.mem_append.mp hb' with hb' | hb'
    · obtain ⟨t, hklass, hin, _⟩ := hs.mem_members.mp hb
      obtain ⟨t', hklass', hin', _⟩ := hs.mem_members.mp hb'
      cases hin.symm.trans hin'
      obtain ⟨sym, hsym, hstbl⟩ := Option.bind_eq_some_iff.mp hklass
      obtain ⟨sym', hsym', hstbl'⟩ := Option.bind_eq_some_iff.mp hklass'
      exact hs.klass_unique hsym hsym' hstbl hstbl'
    · rw [List.mem_singleton] at hb'
      obtain ⟨t, _, hin, hne⟩ := hs.mem_members.mp hb
      rw [hb', hhome hc'] at hin
      exact absurd (Option.some.inj hin).symm hne
    · rw [List.mem_singleton] at hb
      obtain ⟨t, _, hin, hne⟩ := hs.mem_members.mp hb'
      rw [hb, hhome hc] at hin
      exact absurd (Option.some.inj hin).symm hne
    · rw [List.mem_singleton] at hb hb'
      exact hb.symm.trans hb'

/-- What is freed with the package: each symbol once. -/
theorem Sound.all_owned (hs : Sound pkg [] h) :
    ((h.declared pkg).flatMap h.own).Nodup ∧
      ∀ a, a ∈ (h.declared pkg).flatMap h.own ↔ ∃ sym, h.syms a = some sym := by
  constructor
  · refine nodup_flatMap_of hs.declared_nodup (fun f hf => ?_) fun f hf f' hf' b hb hb' => ?_
    · obtain ⟨t, ht⟩ := hs.mem_declared.mp hf
      exact hs.own_nodup ht
    · obtain ⟨t, ht⟩ := hs.mem_declared.mp hf
      obtain ⟨t', ht'⟩ := hs.mem_declared.mp hf'
      exact hs.own_unique ht ht' hb hb'
  · intro a
    rw [List.mem_flatMap]
    constructor
    · rintro ⟨f, hf, ha⟩
      rcases List.mem_append.mp ha with ha | ha
      · exact hs.listed a (hs.listed_of_locvec ha).2
      · obtain ⟨t, ht⟩ := hs.mem_declared.mp hf
        obtain ⟨sym, hsym, _⟩ := hs.declared ht
        rw [List.mem_singleton] at ha
        exact ⟨sym, ha ▸ hsym⟩
    · rintro ⟨sym, hsym⟩
      cases hs.placed hsym with
      | declared t hnode _ _ _ _ =>
        exact ⟨a, hs.mem_declared.mpr ⟨t, (home_eq hsym).trans hnode⟩, mem_own_self a⟩
      | inside _ _ _ hscope => cases hscope
      | listed _ _ hlisted _ =>
        obtain ⟨f, _, ha⟩ := mem_references.mp hlisted
        obtain ⟨symf, hf⟩ : ∃ symf, h.syms f = some symf := by
          rw [Heap.locvec] at ha
          cases hf : h.syms f with
          | none =>
            rw [hf] at ha
            cases ha
          | some symf => exact ⟨symf, rfl⟩
        have hne : symf.locvec ≠ [] := by
          rw [← locvec_eq hf]
          exact List.ne_nil_of_mem ha
        have hkind := hs.func hf hne
        cases hs.placed hf with
        | declared t hnode _ _ _ _ =>
          exact ⟨f, hs.mem_declared.mpr ⟨t, (home_eq hf).trans hnode⟩, List.mem_append_left _ ha⟩
        | inside _ _ _ hscope => cases hscope
        | listed hkind' => cases hkind.symm.trans hkind'

/-- A symbol of the package is freed with its members, and they with their variables. -/
theorem Sound.frees_freed_with (hs : Sound pkg [] h) {a : Addr} (ha : h.home a = some pkg)
    (hnodup : (h.freed_with a).Nodup) :
    Frees (Symbol_Free.loop DEPTH) h a (h.freed_with a) (h.klass a).toList := by
  have hself : h.freed_with a = (h.members a).flatMap h.own ++ h.own a := by
    rw [Heap.freed_with, List.flatMap_append, List.flatMap_singleton]
  rw [hself] at hnodup ⊢
  cases hklass : h.klass a with
  | none =>
    have hmembers : h.members a = [] := by
      rw [Heap.members, hklass]
      rfl
    rw [hmembers]
    exact hs.frees_own ha hklass 1
  | some t =>
    obtain ⟨sym, hsym, hnode, _, hcount⟩ := hs.declared ha
    have hstbl : sym.stbl = some t := (klass_eq hsym).symm.trans hklass
    have hkind : sym.IsKlass := (hs.klass hsym).mpr ⟨t, hstbl⟩
    have hne : t ≠ pkg := fun heq => (hs.klass_table hsym hstbl).2 (heq ▸ List.mem_cons_self)
    obtain ⟨table, htable⟩ := (hs.live t).mpr (Or.inr (Or.inr ⟨a, sym, hsym, hstbl⟩))
    obtain ⟨l, hl, hmem⟩ := hs.holds htable
    have hvisit : HashTable_Visit table = some l := hl.left.1.visit hl.left.2
    have hmembers : h.members a = l := by
      rw [Heap.members, hklass]
      change h.symbols t = l
      rw [Heap.symbols, htable]
      exact congrArg (Option.getD · []) hvisit
    have hvec : sym.locvec = [] := by
      by_contra hne
      have hfunc := hs.func hsym hne
      rcases hkind with hkind | hkind
      · cases hfunc.symm.trans hkind
      · cases hfunc.symm.trans hkind
    have hown : h.own a = [a] := by
      rw [Heap.own, locvec_eq hsym, hvec]
      rfl
    rw [hown, hmembers] at hnodup ⊢
    refine frees_klass hsym hcount hkind hstbl htable hl (fun b hb => ?_) (fun b _ => mem_own_self b)
      (fun b hb => ?_) hnodup
    · obtain ⟨symb, hsymb, hnodeb, _⟩ := hs.declared ((hmem b).mp hb)
      exact ⟨symb, hsymb, hnodeb⟩
    · exact hs.frees_own ((hmem b).mp hb) (hs.klass_of_member ((hmem b).mp hb) hne) 0

/-- When all scopes were left, freeing the table of the package frees each symbol, and each
once. -/
theorem Sound.STable_Free_package (hs : Sound pkg [] h) :
    ∃ h', STable_Free (some pkg) h = .ok h' ∧ (∀ a, h'.syms a = none) ∧
      (∀ t, h'.tables t = none) ∧ ∀ a ∈ h.addrs, h'.freed.count a = 1 := by
  obtain ⟨table, htable⟩ := (hs.live pkg).mpr (Or.inl rfl)
  obtain ⟨l, hl, hmem⟩ := hs.holds htable
  have hvisit : HashTable_Visit table = some l := hl.left.1.visit hl.left.2
  have hsymbols : h.symbols pkg = l := by
    rw [Heap.symbols, htable]
    exact congrArg (Option.getD · []) hvisit
  have hall : l.flatMap h.freed_with = (h.declared pkg).flatMap h.own := by
    rw [Heap.declared, hsymbols, List.flatMap_assoc]
    rfl
  obtain ⟨hnodup, hlive⟩ := hs.all_owned
  rw [← hall] at hnodup hlive
  have hklass : ∀ a ∈ l, ∀ t ∈ (h.klass a).toList, ∃ sym, h.syms a = some sym ∧
      sym.stbl = some t := by
    intro a _ t ht
    exact Option.bind_eq_some_iff.mp (Option.mem_toList.mp ht)
  have htables : (pkg :: l.flatMap fun a => (h.klass a).toList).Nodup := by
    refine List.nodup_cons.mpr ⟨fun hin => ?_, nodup_flatMap_of hl.nodup (fun a _ => ?_) ?_⟩
    · obtain ⟨a, ha, hin⟩ := List.mem_flatMap.mp hin
      obtain ⟨sym, hsym, hstbl⟩ := hklass a ha _ hin
      exact (hs.klass_table hsym hstbl).2 List.mem_cons_self
    · cases h.klass a with
      | none => exact List.nodup_nil
      | some t => exact List.nodup_singleton t
    · intro a ha a' ha' t ht ht'
      obtain ⟨sym, hsym, hstbl⟩ := hklass a ha t ht
      obtain ⟨sym', hsym', hstbl'⟩ := hklass a' ha' t ht'
      exact hs.klass_unique hsym hsym' hstbl hstbl'
  have hself : ∀ a ∈ l, a ∈ h.freed_with a := fun a _ =>
    List.mem_flatMap.mpr ⟨a, List.mem_append_right _ List.mem_cons_self, mem_own_self a⟩
  have hnode : ∀ a ∈ l, ∃ sym, h.syms a = some sym ∧ sym.hnode = some pkg := by
    intro a ha
    obtain ⟨sym, hsym, hnode, _⟩ := hs.declared ((hmem a).mp ha)
    exact ⟨sym, hsym, hnode⟩
  have hrun := STable_Free_released htable hl hnode hself (fun a ha => hs.frees_freed_with
    ((hmem a).mp ha) ((List.nodup_flatMap.mp hnodup).1 a ha)) hnodup htables
  refine ⟨_, hrun, fun a => ?_, fun t => ?_, fun a ha => ?_⟩
  · change (if a ∈ l.flatMap h.freed_with then none else h.syms a) = none
    split
    · rfl
    · next hnot =>
      rw [hlive] at hnot
      exact Option.eq_none_iff_forall_ne_some.mpr fun sym hsym => hnot ⟨sym, hsym⟩
  · change (if t ∈ (l.flatMap fun a => (h.klass a).toList) ++ [pkg] then none else h.tables t) = none
    split
    · rfl
    · next hnot =>
      refine Option.eq_none_iff_forall_ne_some.mpr fun table' htable' => hnot ?_
      rw [List.mem_append, List.mem_singleton]
      rcases (hs.live t).mp ⟨table', htable'⟩ with heq | hscope | ⟨c, sym, hsym, hstbl⟩
      · exact Or.inr heq
      · cases hscope
      · have hc : h.home c = some pkg := (home_eq hsym).trans (hs.klass_table hsym hstbl).1
        refine Or.inl (List.mem_flatMap.mpr ⟨c, (hmem c).mpr hc, ?_⟩)
        exact Option.mem_toList.mpr ((klass_eq hsym).trans hstbl)
  · refine List.count_eq_one_of_mem ?_ ?_
    · refine List.nodup_append.mpr ⟨hs.freed_nodup, hnodup, fun b hb b' hb' => ?_⟩
      rintro rfl
      obtain ⟨sym, hsym⟩ := (hlive b).mp hb'
      cases ((hs.mem_freed b).mp hb).2.symm.trans hsym
    · change a ∈ h.freed ++ _
      rw [List.mem_append, hs.mem_freed, hlive]
      cases hsym : h.syms a with
      | none => exact Or.inl ⟨ha, rfl⟩
      | some sym => exact Or.inr ⟨sym, rfl⟩

end package

end koala.lifetime
