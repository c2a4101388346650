import Koala.Lifetime.Scopes
import Mathlib.Data.List.Perm.Basic
import Mathlib.Data.List.Perm.Lattice

open koala.hashtable
open koala.parser (SymKind deref)

namespace koala.lifetime

set_option linter.style.nameCheck false

namespace Heap

variable (h : Heap)

/-- The table in whose lists a symbol is. -/
def home (a : Addr) : Option Nat := (h.syms a).bind Symbol.hnode

/-- The variables that a function lists. -/
def locvec (f : Addr) : List Addr := (h.syms f).elim [] Symbol.locvec

/-- What is listed by functions. -/
def references : List Addr := h.addrs.flatMap h.locvec

/-- The symbols that a table goes through. -/
def symbols (t : Nat) : List Addr := ((h.tables t).bind HashTable_Visit).getD []

/-- The owners of a symbol: the tables that hold it, and the functions that list it. -/
def owners (a : Addr) : Nat :=
  (List.range h.ntables).countP (fun t => a ∈ h.symbols t) + h.references.count a

end Heap

/-- What the memory of symbols and tables keeps: an address is used once, and freed once. -/
structure Memory (h : Heap) : Prop where
  nodup : h.addrs.Nodup
  fresh : ∀ a ∈ h.addrs, a.addr < h.addrs.length
  alloc : ∀ {a sym}, h.syms a = some sym → a ∈ h.addrs
  freed_nodup : h.freed.Nodup
  mem_freed : ∀ a, a ∈ h.freed ↔ a ∈ h.addrs ∧ h.syms a = none
  holds : ∀ {t table}, h.tables t = some table →
    ∃ l, Holds table l ∧ ∀ a, a ∈ l ↔ h.home a = some t
  bound : ∀ {t table}, h.tables t = some table → t < h.ntables

/-- Where a symbol is, and what counts it: in the table of a package or a class, in that of an
open scope and listed by the function, or listed only. -/
inductive Placed (scopes : List Nat) (h : Heap) (a : Addr) (sym : Symbol) : Prop where
  | declared (t : Nat) (hnode : sym.hnode = some t) (hscope : t ∉ scopes)
    (hlive : ∃ table, h.tables t = some table) (hlisted : a ∉ h.references) (hcount : sym.refcnt = 1)
  | inside (t : Nat) (hkind : sym.kind = .SYM_VAR) (hnode : sym.hnode = some t) (hscope : t ∈ scopes)
    (hlisted : a ∈ h.references) (hcount : sym.refcnt = 2)
  | listed (hkind : sym.kind = .SYM_VAR) (hnode : sym.hnode = none) (hlisted : a ∈ h.references)
    (hcount : sym.refcnt = 1)

/-- A symbol of a class or a trait. -/
def Symbol.IsKlass (sym : Symbol) : Prop := sym.kind = .SYM_CLASS ∨ sym.kind = .SYM_TRAIT

/-- Who owns symbols and tables while the scopes with the tables `scopes` are open. -/
structure Owned (pkg : Nat) (scopes : List Nat) (h : Heap) : Prop where
  live : ∀ t, (∃ table, h.tables t = some table) ↔
    t = pkg ∨ t ∈ scopes ∨ ∃ c sym, h.syms c = some sym ∧ sym.stbl = some t
  distinct : (pkg :: scopes).Nodup
  klass : ∀ {c sym}, h.syms c = some sym → (sym.IsKlass ↔ ∃ t, sym.stbl = some t)
  klass_table : ∀ {c sym t}, h.syms c = some sym → sym.stbl = some t →
    sym.hnode = some pkg ∧ t ∉ pkg :: scopes
  klass_unique : ∀ {c c' sym sym' t}, h.syms c = some sym → h.syms c' = some sym' →
    sym.stbl = some t → sym'.stbl = some t → c = c'
  placed : ∀ {a sym}, h.syms a = some sym → Placed scopes h a sym
  once : h.references.Nodup
  listed : ∀ a ∈ h.references, ∃ sym, h.syms a = some sym
  func : ∀ {f sym}, h.syms f = some sym → sym.locvec ≠ [] → sym.kind = .SYM_FUNC

structure Sound (pkg : Nat) (scopes : List Nat) (h : Heap) : Prop extends
  Memory h, Owned pkg scopes h

section references

variable {h h' : Heap}

theorem home_eq {a : Addr} {sym : Symbol} (ha : h.syms a = some sym) : h.home a = sym.hnode := by
  rw [Heap.home, ha]
  rfl

theorem locvec_eq {f : Addr} {sym : Symbol} (hf : h.syms f = some sym) :
    h.locvec f = sym.locvec := by
  rw [Heap.locvec, hf]
  rfl

theorem mem_references {a : Addr} :
    a ∈ h.references ↔ ∃ f ∈ h.addrs, a ∈ h.locvec f := List.mem_flatMap

theorem references_congr (haddrs : h'.addrs = h.addrs)
    (hlocvec : ∀ f ∈ h.addrs, h'.locvec f = h.locvec f) : h'.references = h.references := by
  rw [Heap.references, haddrs]
  exact List.flatMap_congr hlocvec

/-- A new symbol lists nothing. -/
theorem references_concat {a : Addr} (haddrs : h'.addrs = h.addrs ++ [a])
    (hlocvec : ∀ f ∈ h.addrs, h'.locvec f = h.locvec f) (hnew : h'.locvec a = []) :
    h'.references = h.references := by
  rw [Heap.references, haddrs, List.flatMap_append, List.flatMap_singleton, hnew, List.append_nil]
  exact List.flatMap_congr hlocvec

theorem flatMap_concat_perm {v v' : Addr → List Addr} {f a : Addr} {l : List Addr}
    (hnodup : l.Nodup) (hf : f ∈ l) (hother : ∀ g ∈ l, g ≠ f → v' g = v g)
    (hself : v' f = v f ++ [a]) : (l.flatMap v').Perm (a :: l.flatMap v) := by
  induction l with
  | nil => cases hf
  | cons g l ih =>
    obtain ⟨hg, hnodup⟩ := List.nodup_cons.mp hnodup
    rw [List.flatMap_cons, List.flatMap_cons]
    rcases List.mem_cons.mp hf with rfl | hf
    · have hrest : l.flatMap v' = l.flatMap v := by
        refine List.flatMap_congr fun g hmem => hother g (List.mem_cons_of_mem _ hmem) ?_
        rintro rfl
        exact hg hmem
      rw [hself, hrest, List.append_assoc]
      exact List.perm_middle
    · have hne : g ≠ f := by
        rintro rfl
        exact hg hf
      have hrest := ih hnodup hf fun g hmem => hother g (List.mem_cons_of_mem _ hmem)
      rw [hother g List.mem_cons_self hne]
      exact (hrest.append_left (v g)).trans List.perm_middle

/-- A function lists one more variable. -/
theorem references_perm {f a : Addr} (haddrs : h'.addrs = h.addrs) (hnodup : h.addrs.Nodup)
    (hf : f ∈ h.addrs) (hother : ∀ g ∈ h.addrs, g ≠ f → h'.locvec g = h.locvec g)
    (hself : h'.locvec f = h.locvec f ++ [a]) : h'.references.Perm (a :: h.references) := by
  rw [Heap.references, haddrs]
  exact flatMap_concat_perm hnodup hf hother hself

end references

section owners

variable {pkg : Nat} {scopes : List Nat} {h : Heap}

theorem Memory.symbols_iff (hm : Memory h) {t : Nat} {a : Addr} :
    a ∈ h.symbols t ↔ h.home a = some t ∧ ∃ table, h.tables t = some table := by
  rw [Heap.symbols]
  cases htable : h.tables t with
  | none => simp
  | some table =>
    obtain ⟨l, hl, hmem⟩ := hm.holds htable
    have hvisit : HashTable_Visit table = some l := hl.left.1.visit hl.left.2
    simp [hvisit, hmem]

theorem countP_range {n t : Nat} (ht : t < n) {p : Nat → Bool} (hp : ∀ i, p i = true ↔ i = t) :
    (List.range n).countP p = 1 := by
  have hsame : p = fun i => i == t := by
    funext i
    rw [Bool.eq_iff_iff, hp, beq_iff_eq]
  rw [hsame]
  exact List.count_eq_one_of_mem List.nodup_range (List.mem_range.mpr ht)

theorem Sound.table_of_home (hs : Sound pkg scopes h) {a : Addr} {t : Nat}
    (ha : h.home a = some t) : ∃ table, h.tables t = some table := by
  obtain ⟨sym, hsym, hnode⟩ := Option.bind_eq_some_iff.mp ha
  cases hs.placed hsym with
  | declared t' hnode' _ hlive =>
    cases hnode'.symm.trans hnode
    exact hlive
  | inside t' _ hnode' hscope =>
    cases hnode'.symm.trans hnode
    exact (hs.live t).mpr (Or.inr (Or.inl hscope))
  | listed _ hnode' =>
    cases hnode'.symm.trans hnode

/-- A symbol is counted by its owners. -/
theorem Sound.refcnt_eq (hs : Sound pkg scopes h) {a : Addr} {sym : Symbol}
    (ha : h.syms a = some sym) : sym.refcnt = h.owners a := by
  have hin : ∀ {t}, sym.hnode = some t →
      (List.range h.ntables).countP (fun t => a ∈ h.symbols t) = 1 := by
    intro t hnode
    have hhome : h.home a = some t := (home_eq ha).trans hnode
    obtain ⟨table, htable⟩ := hs.table_of_home hhome
    refine countP_range (hs.bound htable) fun i => ?_
    rw [decide_eq_true_iff, hs.symbols_iff, hhome]
    constructor
    · rintro ⟨hsame, _⟩
      exact (Option.some.inj hsame).symm
    · rintro rfl
      exact ⟨rfl, table, htable⟩
  have hout : sym.hnode = none →
      (List.range h.ntables).countP (fun t => a ∈ h.symbols t) = 0 := by
    intro hnode
    refine List.countP_eq_zero.mpr fun t _ => ?_
    rw [decide_eq_true_iff, hs.symbols_iff, home_eq ha, hnode]
    rintro ⟨hsame, _⟩
    cases hsame
  rw [Heap.owners]
  cases hs.placed ha with
  | declared t hnode _ _ hlisted hcount =>
    rw [hcount, hin hnode, List.count_eq_zero.mpr hlisted]
    rfl
  | inside t _ hnode _ hlisted hcount =>
    rw [hcount, hin hnode, List.count_eq_one_of_mem hs.once hlisted]
    rfl
  | listed _ hnode hlisted hcount =>
    rw [hcount, hout hnode, List.count_eq_one_of_mem hs.once hlisted]
    rfl

end owners

end koala.lifetime
