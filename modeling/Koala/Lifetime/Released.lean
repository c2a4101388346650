import Koala.Lifetime.Closed

open koala.hashtable
open koala.parser (SymKind deref)

namespace koala.lifetime

set_option linter.style.nameCheck false

/-- The heap without some symbols and tables. -/
def Heap.released (h : Heap) (p : List Addr) (ts : List Nat) : Heap :=
  { h with
    syms := fun a => if a ∈ p then none else h.syms a
    tables := fun t => if t ∈ ts then none else h.tables t
    freed := h.freed ++ p }

theorem released_released (h : Heap) (p p' : List Addr) (ts ts' : List Nat) :
    (h.released p ts).released p' ts' = h.released (p ++ p') (ts ++ ts') := by
  simp only [Heap.released, List.append_assoc, List.mem_append]
  congr 1
  · funext a
    by_cases ha : a ∈ p <;> by_cases ha' : a ∈ p' <;> simp [ha, ha']
  · funext t
    by_cases ht : t ∈ ts <;> by_cases ht' : t ∈ ts' <;> simp [ht, ht']

theorem released_nil (h : Heap) : h.released [] [] = h := by simp [Heap.released]

/-- Freeing a symbol frees these symbols and tables, wherever they are as they are now. -/
def Frees (free : Heap → Addr → Res Heap) (h : Heap) (a : Addr) (p : List Addr) (ts : List Nat) :
    Prop :=
  ∀ h' sym, h.syms a = some sym → h'.syms a = some { sym with hnode := none } →
    (∀ b ∈ p, b ≠ a → h'.syms b = h.syms b) → (∀ t ∈ ts, h'.tables t = h.tables t) →
    free h' a = .ok (h'.released p ts)

section symbols

variable {h : Heap} {a : Addr} {sym : Symbol} {depth : Nat}

/-- The last owner gives a symbol up. -/
theorem Symbol_Free_last (ha : h.syms a = some sym) (hcount : sym.refcnt = 1) :
    Symbol_Free.loop (depth + 1) h a = symops_free (Symbol_Free.loop depth) sym
      (h.setSym a { sym with refcnt := 0 }) a := by
  rw [Symbol_Free.loop, ha, deref_some, ok_bind, hcount]
  rfl

theorem __symbol_free_eq (ha : h.syms a = some sym) :
    __symbol_free h a = .ok (h.released [a] []) := by
  rw [__symbol_free, ha, deref_some, ok_bind]
  have hsyms : Function.update h.syms a none = fun b => if b ∈ [a] then none else h.syms b := by
    funext b
    rw [Function.update_apply]
    simp only [List.mem_singleton]
  simp only [Heap.released, hsyms, List.not_mem_nil, if_false]

/-- Writing to a symbol that is freed makes no difference. -/
theorem released_setSym (sym : Symbol) {p : List Addr} {ts : List Nat} (ha : a ∈ p) :
    (h.setSym a sym).released p ts = h.released p ts := by
  simp only [Heap.released, Heap.setSym]
  congr 1
  funext b
  rw [Function.update_apply]
  by_cases hb : b = a
  · rw [hb, if_pos ha, if_pos ha]
  · rw [if_neg hb]

theorem symops_free_plain (free : Heap → Addr → Res Heap) (hfunc : sym.kind ≠ .SYM_FUNC)
    (hklass : ¬ sym.IsKlass) : symops_free free sym h a = __symbol_free h a := by
  rw [symops_free]
  split
  · next hkind => exact absurd hkind hfunc
  · next hkind => exact absurd (Or.inl hkind) hklass
  · next hkind => exact absurd (Or.inr hkind) hklass
  · rfl

/-- A symbol that is neither a function nor a class is freed alone. -/
theorem frees_plain (ha : h.syms a = some sym) (hcount : sym.refcnt = 1)
    (hfunc : sym.kind ≠ .SYM_FUNC) (hklass : ¬ sym.IsKlass) :
    Frees (Symbol_Free.loop (depth + 1)) h a [a] [] := by
  intro h' sym' hsym ha' _ _
  cases ha.symm.trans hsym
  rw [Symbol_Free_last ha' hcount]
  have hself : (h'.setSym a { sym with hnode := none, refcnt := 0 }).syms a =
      some { sym with hnode := none, refcnt := 0 } := Function.update_self ..
  have hfree := __symbol_free_eq hself
  rw [released_setSym _ List.mem_cons_self] at hfree
  exact (symops_free_plain _ hfunc hklass).trans hfree

/-- The variables that only a function lists are freed, one after the other. -/
theorem free_locvec {vec : List Addr} (hnodup : vec.Nodup)
    (hvec : ∀ b ∈ vec, ∃ sym, h.syms b = some sym ∧ sym.kind = .SYM_VAR ∧ sym.hnode = none ∧
      sym.refcnt = 1) :
    vec.foldlM (symbol_free_fn (Symbol_Free.loop (depth + 1))) h = .ok (h.released vec []) := by
  induction vec generalizing h with
  | nil =>
    rw [released_nil]
    rfl
  | cons b vec ih =>
    obtain ⟨hb, hnodup⟩ := List.nodup_cons.mp hnodup
    obtain ⟨sym, hsym, hkind, hnode, hcount⟩ := hvec b List.mem_cons_self
    have hfrees : Frees (Symbol_Free.loop (depth + 1)) h b [b] [] := by
      refine frees_plain hsym hcount ?_ ?_ <;> simp [Symbol.IsKlass, hkind]
    have hsame : h.syms b = some { sym with hnode := none } := by rw [hsym, ← hnode]
    have hfree := hfrees h sym hsym hsame (fun _ _ _ => rfl) (fun _ _ => rfl)
    have hrest : ∀ c ∈ vec, ∃ sym, (h.released [b] []).syms c = some sym ∧ sym.kind = .SYM_VAR ∧
        sym.hnode = none ∧ sym.refcnt = 1 := by
      intro c hc
      obtain ⟨sym, hsym, hsym'⟩ := hvec c (List.mem_cons_of_mem _ hc)
      have hne : c ∉ [b] := by
        rw [List.mem_singleton]
        rintro rfl
        exact hb hc
      exact ⟨sym, (if_neg hne).trans hsym, hsym'⟩
    rw [List.foldlM_cons, symbol_free_fn, Remove_HashNode_unlinked hsym hnode, ok_bind, hfree,
      ok_bind, ih hnodup hrest, released_released]
    rfl

/-- A function is freed with the variables that it lists. -/
theorem frees_func (ha : h.syms a = some sym) (hcount : sym.refcnt = 1)
    (hfunc : sym.kind = .SYM_FUNC) (hnodup : (sym.locvec ++ [a]).Nodup)
    (hvec : ∀ b ∈ sym.locvec, ∃ sym, h.syms b = some sym ∧ sym.kind = .SYM_VAR ∧
      sym.hnode = none ∧ sym.refcnt = 1) :
    Frees (Symbol_Free.loop (depth + 2)) h a (sym.locvec ++ [a]) [] := by
  intro h' sym' hsym ha' hsame _
  cases ha.symm.trans hsym
  have hnot : a ∉ sym.locvec := fun hmem =>
    List.disjoint_of_nodup_append hnodup hmem List.mem_cons_self
  rw [Symbol_Free_last ha' hcount]
  have hvec' : ∀ b ∈ sym.locvec, ∃ sym', (h'.setSym a { sym with hnode := none, refcnt := 0 }).syms
      b = some sym' ∧ sym'.kind = .SYM_VAR ∧ sym'.hnode = none ∧ sym'.refcnt = 1 := by
    intro b hb
    have hne : b ≠ a := by
      rintro rfl
      exact hnot hb
    obtain ⟨sym', hsym', hrest⟩ := hvec b hb
    refine ⟨sym', ?_, hrest⟩
    exact (Function.update_of_ne hne ..).trans ((hsame b (List.mem_append_left _ hb) hne).trans hsym')
  have hfold : sym.locvec.foldlM (symbol_free_fn (Symbol_Free.loop (depth + 1)))
      (h'.setSym a { sym with hnode := none, refcnt := 0 }) = .ok ((h'.setSym a
        { sym with hnode := none, refcnt := 0 }).released sym.locvec []) :=
    free_locvec (List.nodup_append.mp hnodup).1 hvec'
  have hself : ((h'.setSym a { sym with hnode := none, refcnt := 0 }).released sym.locvec []).syms a =
      some { sym with hnode := none, refcnt := 0 } := (if_neg hnot).trans (Function.update_self ..)
  have hfree := __symbol_free_eq hself
  have hmem : a ∈ sym.locvec ++ [a] := List.mem_append_right _ List.mem_cons_self
  rw [released_released, List.append_nil, released_setSym _ hmem] at hfree
  rw [symops_free]
  simp only [hfunc]
  rw [hfunc] at hfold hfree
  rw [hfold, ok_bind]
  exact hfree

end symbols

section tables

variable {h : Heap} {a : Addr} {free : Heap → Addr → Res Heap} {t : Nat} {table : HashTable Addr}

/-- What freeing a symbol does depends on what it frees only. -/
theorem Frees.congr {p : List Addr} {ts : List Nat} (hfrees : Frees free h a p ts) {h₁ : Heap}
    (hself : h₁.syms a = h.syms a) (hsyms : ∀ b ∈ p, b ≠ a → h₁.syms b = h.syms b)
    (htables : ∀ t ∈ ts, h₁.tables t = h.tables t) : Frees free h₁ a p ts := by
  intro h' sym hsym ha hsame hsame'
  refine hfrees h' sym (hself.symm.trans hsym) ha (fun b hb hne => ?_) fun t ht => ?_
  · exact (hsame b hb hne).trans (hsyms b hb hne)
  · exact (hsame' t ht).trans (htables t ht)

theorem released_setTable {p : List Addr} {ts : List Nat} (ht : t ∉ ts) :
    (h.setTable t table).released p ts = (h.released p ts).setTable t table := by
  simp only [Heap.released, Heap.setTable]
  congr 1
  funext t'
  simp only [Function.update_apply]
  by_cases heq : t' = t
  · rw [heq, if_neg ht, if_pos rfl, if_pos rfl]
  · rw [if_neg heq, if_neg heq]

theorem not_mem_flatMap_of_nodup {α β : Type} {f : α → List β} {done rest : List α} {x : α}
    (hnodup : ((done ++ x :: rest).flatMap f).Nodup) {y : β} (hy : y ∈ f x) :
    y ∉ done.flatMap f := by
  rw [List.flatMap_append, List.flatMap_cons] at hnodup
  intro hmem
  exact List.disjoint_of_nodup_append hnodup hmem (List.mem_append_left _ hy)

variable {p : Addr → List Addr} {ts : Addr → List Nat} {l : List Addr}

/-- A symbol of a table is unlinked and freed while the table is gone through. -/
theorem symbol_free_fn_released {done rest : List Addr} {sym : Symbol}
    (hsym : h.syms a = some sym) (hnode : sym.hnode = some t) (hself : a ∈ p a)
    (hfrees : Frees free h a (p a) (ts a)) (hnodup : ((done ++ a :: rest).flatMap p).Nodup)
    (htables : (t :: (done ++ a :: rest).flatMap ts).Nodup) :
    symbol_free_fn free ((h.released (done.flatMap p) (done.flatMap ts)).setTable t table) a =
      .ok ((h.released ((done ++ [a]).flatMap p) ((done ++ [a]).flatMap ts)).setTable t
        (unlink table a)) := by
  obtain ⟨hnot, htables⟩ := List.nodup_cons.mp htables
  have hkept : ∀ b ∈ p a, (h.released (done.flatMap p) (done.flatMap ts)).syms b = h.syms b :=
    fun b hb => if_neg (not_mem_flatMap_of_nodup hnodup hb)
  have hin : ∀ t' ∈ ts a, t' ≠ t := by
    rintro t' ht' rfl
    exact hnot (List.mem_flatMap.mpr ⟨a, List.mem_append_right _ List.mem_cons_self, ht'⟩)
  have hremove : Remove_HashNode ((h.released (done.flatMap p) (done.flatMap ts)).setTable t table)
      a = .ok ((((h.released (done.flatMap p) (done.flatMap ts)).setTable t table).setTable t
        (unlink table a)).setSym a { sym with hnode := none }) :=
    Remove_HashNode_eq ((hkept a hself).trans hsym) hnode (Function.update_self ..)
  have hsame : ((h.released (done.flatMap p) (done.flatMap ts)).setTable t table).setTable t
      (unlink table a) = (h.released (done.flatMap p) (done.flatMap ts)).setTable t
        (unlink table a) := by
    simp only [Heap.setTable, Function.update_idem]
  rw [hsame] at hremove
  have hfreed := hfrees (((h.released (done.flatMap p) (done.flatMap ts)).setTable t
    (unlink table a)).setSym a { sym with hnode := none }) sym hsym (Function.update_self ..)
    (fun b hb hne => (Function.update_of_ne hne ..).trans (hkept b hb))
    (fun t' ht' => (Function.update_of_ne (hin t' ht') ..).trans
      (if_neg (not_mem_flatMap_of_nodup htables ht')))
  rw [symbol_free_fn, hremove, ok_bind, hfreed, released_setSym _ hself,
    released_setTable fun hmem => hin t hmem rfl, released_released]
  simp only [List.flatMap_append, List.flatMap_singleton]

/-- A table is freed with its symbols, and with what they are freed with. -/
theorem STable_Free_released (htable : h.tables t = some table) (hl : Holds table l)
    (hnode : ∀ a ∈ l, ∃ sym, h.syms a = some sym ∧ sym.hnode = some t) (hself : ∀ a ∈ l, a ∈ p a)
    (hfrees : ∀ a ∈ l, Frees free h a (p a) (ts a)) (hnodup : (l.flatMap p).Nodup)
    (htables : (t :: l.flatMap ts).Nodup) :
    __STable_Free (symbol_free_fn free) (some t) h =
      .ok (h.released (l.flatMap p) (l.flatMap ts ++ [t])) := by
  have hstart : h = (h.released [] []).setTable t table := by
    rw [released_nil, Heap.setTable, ← htable, Function.update_eq_self]
  let P : List Addr → Heap → Prop := fun rest s => ∃ done table', done ++ rest = l ∧
    Left table' rest ∧ s = (h.released (done.flatMap p) (done.flatMap ts)).setTable t table'
  have hnext : ∀ a rest s, P (a :: rest) s → ∃ sym table, s.syms a = some sym ∧
      s.tables t = some table ∧ table.llink.next (some a) = rest.head? := by
    rintro a rest s ⟨done, table', rfl, hleft, rfl⟩
    have hmem : a ∈ done ++ a :: rest := List.mem_append_right _ List.mem_cons_self
    obtain ⟨sym, hsym, -⟩ := hnode a hmem
    exact ⟨sym, table', (if_neg (not_mem_flatMap_of_nodup hnodup (hself a hmem))).trans hsym,
      Function.update_self .., hleft.1.next⟩
  have hvisit : ∀ a rest s, P (a :: rest) s →
      ∃ s', symbol_free_fn free s a = .ok s' ∧ P rest s' := by
    rintro a rest s ⟨done, table', rfl, hleft, rfl⟩
    have hmem : a ∈ done ++ a :: rest := List.mem_append_right _ List.mem_cons_self
    obtain ⟨sym, hsym, hnode⟩ := hnode a hmem
    refine ⟨_, symbol_free_fn_released hsym hnode (hself a hmem) (hfrees a hmem) hnodup htables,
      done ++ [a], _, ?_, hleft.unlink, rfl⟩
    rw [List.append_assoc, List.singleton_append]
  have hvisited : ∃ s', STable_Visit id (symbol_free_fn free) t h = .ok s' ∧ P [] s' :=
    STable_Visit_spec P hnext hvisit htable hl.left ⟨[], table, rfl, hl.left, hstart⟩
  obtain ⟨s', hrun, done, table', hdone, hleft, rfl⟩ := hvisited
  rw [List.append_nil] at hdone
  subst hdone
  have hfini : HashTable_Fini t ((h.released (done.flatMap p) (done.flatMap ts)).setTable t table') =
      .ok ((h.released (done.flatMap p) (done.flatMap ts)).setTable t table') :=
    HashTable_Fini_empty (Function.update_self ..) hleft
  simp only [__STable_Free, hrun, ok_bind, hfini]
  refine congrArg Except.ok ?_
  simp only [Heap.released, Heap.setTable, Function.update_idem]
  congr 1
  funext t'
  rw [Function.update_apply]
  by_cases heq : t' = t <;> simp [heq]

/-- A class is freed with its table and what is declared there. -/
theorem frees_klass {depth : Nat} {sym : Symbol} (ha : h.syms a = some sym)
    (hcount : sym.refcnt = 1) (hklass : sym.IsKlass) (hstbl : sym.stbl = some t)
    (htable : h.tables t = some table) (hl : Holds table l)
    (hnode : ∀ b ∈ l, ∃ sym, h.syms b = some sym ∧ sym.hnode = some t) (hself : ∀ b ∈ l, b ∈ p b)
    (hfrees : ∀ b ∈ l, Frees (Symbol_Free.loop depth) h b (p b) [])
    (hnodup : (l.flatMap p ++ [a]).Nodup) :
    Frees (Symbol_Free.loop (depth + 1)) h a (l.flatMap p ++ [a]) [t] := by
  intro h' sym' hsym ha' hsame htables
  cases ha.symm.trans hsym
  rw [Symbol_Free_last ha' hcount]
  have hnot : a ∉ l.flatMap p := fun hmem =>
    List.disjoint_of_nodup_append hnodup hmem List.mem_cons_self
  have hkept : ∀ b ∈ l, ∀ c ∈ p b, (h'.setSym a { sym with hnode := none, refcnt := 0 }).syms c =
      h.syms c := by
    intro b hb c hc
    have hmem : c ∈ l.flatMap p := List.mem_flatMap.mpr ⟨b, hb, hc⟩
    have hne : c ≠ a := by
      rintro rfl
      exact hnot hmem
    exact (Function.update_of_ne hne ..).trans (hsame c (List.mem_append_left _ hmem) hne)
  have htable' : (h'.setSym a { sym with hnode := none, refcnt := 0 }).tables t = some table :=
    (htables t List.mem_cons_self).trans htable
  have hnone : l.flatMap (fun _ => ([] : List Nat)) = [] := by simp
  have hfree : __STable_Free (symbol_free_fn (Symbol_Free.loop depth)) (some t)
      (h'.setSym a { sym with hnode := none, refcnt := 0 }) = .ok ((h'.setSym a
        { sym with hnode := none, refcnt := 0 }).released (l.flatMap p) [t]) := by
    have hnode' : ∀ b ∈ l, ∃ symb, (h'.setSym a { sym with hnode := none, refcnt := 0 }).syms b =
        some symb ∧ symb.hnode = some t := by
      intro b hb
      obtain ⟨symb, hsymb, hnodeb⟩ := hnode b hb
      exact ⟨symb, (hkept b hb b (hself b hb)).trans hsymb, hnodeb⟩
    have hfrees' : ∀ b ∈ l, Frees (Symbol_Free.loop depth)
        (h'.setSym a { sym with hnode := none, refcnt := 0 }) b (p b) [] := fun b hb =>
      (hfrees b hb).congr (hkept b hb b (hself b hb)) (fun c hc _ => hkept b hb c hc)
        fun _ hmem => nomatch hmem
    have hnodup' : (t :: l.flatMap fun _ => ([] : List Nat)).Nodup := by
      rw [hnone]
      exact List.nodup_singleton t
    have hrun := STable_Free_released htable' hl hnode' hself hfrees'
      (List.nodup_append.mp hnodup).1 hnodup'
    rw [hnone] at hrun
    exact hrun
  have hself' : ((h'.setSym a { sym with hnode := none, refcnt := 0 }).released (l.flatMap p)
      [t]).syms a = some { sym with hnode := none, refcnt := 0 } :=
    (if_neg hnot).trans (Function.update_self ..)
  have hlast := __symbol_free_eq hself'
  have hmem : a ∈ l.flatMap p ++ [a] := List.mem_append_right _ List.mem_cons_self
  rw [released_released, List.append_nil, released_setSym _ hmem] at hlast
  rw [symops_free]
  rcases hklass with hkind | hkind <;>
  · simp only [hkind, hstbl]
    rw [hkind, hstbl] at hfree hlast
    rw [hfree, ok_bind]
    exact hlast

end tables

end koala.lifetime
