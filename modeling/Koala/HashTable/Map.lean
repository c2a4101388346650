import Koala.HashTable.Refinement
import Koala.HashTable.Model
import Koala.Basic

set_option linter.style.nameCheck false

open intrusive koala.list

namespace koala.hashtable

variable {ν κ : Type} {key : ν → κ} {hash : κ → Nat} {equal : κ → κ → Bool}

/-- The calls made on a table. -/
inductive Op (ν κ : Type) where
  | insert (hnode : ν)
  | remove (hnode : ν)
  | find (k : κ)

/-- What a call returns: an error code or the node found. -/
inductive Answer (ν : Type) where
  | code (r : Int)
  | node (found : Option ν)

section runs

variable [DecidableEq ν] (key : ν → κ) (hash : κ → Nat) (equal : κ → κ → Bool)

def HashTable.step (t : HashTable ν) : Op ν κ → Option (HashTable ν × Answer ν)
  | .insert hnode => do
    let (r, t) ← HashTable_Insert key hash equal t hnode
    some (t, .code r)
  | .remove hnode => do
    let (r, t) ← HashTable_Remove key equal t hnode
    some (t, .code r)
  | .find k => do
    let found ← HashTable_Find key hash equal t k
    some (t, .node found)

def HashTable.run (t : HashTable ν) : List (Op ν κ) → Option (HashTable ν × List (Answer ν))
  | [] => some (t, [])
  | op :: ops => do
    let (t, a) ← t.step key hash equal op
    let (t, as) ← t.run ops
    some (t, a :: as)

/-- The purpose of the table: a finite map from keys to nodes, kept as the list
of its nodes in insertion order. -/
def mapStep (l : List ν) : Op ν κ → List ν × Answer ν
  | .insert hnode =>
    if hnode ∈ l ∨ (ordered_map.find key equal l (key hnode)).isSome then (l, .code (-1))
    else (l ++ [hnode], .code 0)
  | .remove hnode => if hnode ∈ l then (l.erase hnode, .code 0) else (l, .code (-1))
  | .find k => (l, .node (ordered_map.find key equal l k))

def mapRun (l : List ν) : List (Op ν κ) → List ν × List (Answer ν)
  | [] => (l, [])
  | op :: ops =>
    let (l, a) := mapStep key equal l op
    let (l, as) := mapRun l ops
    (l, a :: as)

end runs

/-- The table's links spell out some buckets whose order list is `l`, and the
keys of `l` are distinct. -/
def MapRep (key : ν → κ) (hash : κ → Nat) (equal : κ → κ → Bool) (t : HashTable ν)
    (l : List ν) : Prop :=
  ∃ b, Rep key hash t b ∧ b.order = l ∧ ordered_map.Distinct key equal l

/-- Unlinking a node from its chain and from the order list removes it from the
buckets. -/
theorem Rep.unlink [DecidableEq ν] {t : HashTable ν} {b : Buckets ν} (h : Rep key hash t b) {n : ν}
    (hn : n ∈ b.order) :
    Rep key hash { t with
      hlink := hlist_del t.hlink n
      llink := list_del t.llink (some n)
      nr_nodes := t.nr_nodes - 1 }
      { b with chain := fun i => (b.chain i).erase n, order := b.order.erase n } := by
  have hnodup := h.order_nodup
  have hchainNodup : ∀ i, (b.chain i).Nodup := by
    intro i
    by_cases hi : i < b.nr_entries
    · exact h.chains.nodup (t.entries, i) ⟨rfl, hi⟩
    · have hempty : b.chain i = [] := by
        rw [List.eq_nil_iff_forall_not_mem]
        intro x hx
        rw [h.wf.place i x hx] at hi
        exact hi (Nat.mod_lt _ h.wf.nr_entries_pos)
      simp [hempty]
  refine ⟨⟨h.wf.prime_index_lt, ?_, ?_⟩, h.prime_index, ?_, ?_, ?_, ?_⟩
  · exact fun i x hx => h.wf.place i x (List.mem_of_mem_erase hx)
  · intro x
    simp only [hnodup.mem_erase_iff, (hchainNodup _).mem_erase_iff, h.wf.mem_order]
    exact ⟨fun ⟨hne, i, hi⟩ => ⟨i, hne, hi⟩, fun ⟨i, hne, hi⟩ => ⟨hne, i, hi⟩⟩
  · simp [h.nr_nodes, List.length_erase_of_mem hn]
  · obtain ⟨l, r, hsplit⟩ := List.append_of_mem hn
    have hl : n ∉ l := by
      rw [hsplit] at hnodup
      exact fun hmem => List.disjoint_of_nodup_append hnodup hmem (by simp)
    have hring := h.ring
    rw [hsplit, List.map_append, List.map_cons] at hring
    have hdel := list_del_ring hring
    simp only [hsplit, List.erase_append_right _ hl, List.erase_cons_head, List.map_append]
    exact hdel
  · have hmem := (h.wf.mem_order_iff n).mp hn
    obtain ⟨l, r, hsplit⟩ := List.append_of_mem hmem
    refine (hlist_del_chains h.chains (h.inUse (hash (key n))) hsplit).congr ?_
    intro c hc
    have hl : n ∉ l := by
      have hcn := hchainNodup (hash (key n) % b.nr_entries)
      rw [hsplit] at hcn
      exact fun hin => List.disjoint_of_nodup_append hcn hin (by simp)
    by_cases hidx : c = (t.entries, hash (key n) % b.nr_entries)
    · subst hidx
      dsimp only
      rw [Function.update_self, hsplit, List.erase_append_right _ hl, List.erase_cons_head]
    · have hnot : n ∉ b.chain c.2 := fun hin => hidx (Prod.ext hc.1 (h.wf.place c.2 n hin))
      dsimp only
      rw [Function.update_of_ne hidx, List.erase_of_not_mem hnot]
  · exact fun x hx => h.hashed x (List.mem_of_mem_erase hx)

section refinement

variable (hequal : Equivalence fun a b => equal a b = true)
variable (hhash : ∀ a b, equal a b = true → hash a = hash b)

include hequal hhash

/-- The bucket of a key holds its unique node, whichever chain order the
expansions have left. -/
theorem find_bucket_eq {b : Buckets ν} (hb : b.WF key hash)
    (hdistinct : ordered_map.Distinct key equal b.order) (k : κ) :
    b.find key equal (hash k) k = ordered_map.find key equal b.order k := by
  cases hfind : b.find key equal (hash k) k with
  | none =>
    have hnone := (hb.find_eq_none_iff fun x _ hx => hhash _ _ hx).mp hfind
    exact (ordered_map.find_eq_none_iff.mpr hnone).symm
  | some x =>
    obtain ⟨hx, hk⟩ := hb.find_some hfind
    exact (hdistinct.find_unique hequal hx hk).symm

theorem mapRep_find {t : HashTable ν} {l : List ν} (h : MapRep key hash equal t l) (k : κ) :
    HashTable_Find key hash equal t k = some (ordered_map.find key equal l k) := by
  obtain ⟨b, hrep, rfl, hdistinct⟩ := h
  rw [HashTable_Find, hrep.find_eq, find_bucket_eq hequal hhash hrep.wf hdistinct]

variable [DecidableEq ν]

theorem mapRep_insert {t : HashTable ν} {l : List ν} (h : MapRep key hash equal t l) (n : ν) :
    ∃ r t', HashTable_Insert key hash equal t n = some (r, t') ∧
      (mapStep key equal l (.insert n)).2 = .code r ∧
      MapRep key hash equal t' (mapStep key equal l (.insert n)).1 := by
  obtain ⟨b, hrep, rfl, hdistinct⟩ := h
  by_cases hn : n ∈ b.order
  · refine ⟨-1, t, hrep.insert_linked hn, by simp [mapStep, hn], b, hrep, ?_, ?_⟩ <;>
      simp [mapStep, hn, hdistinct]
  · obtain ⟨r, t', hinsert, hcase⟩ := hrep.insert_unlinked equal hn
    refine ⟨r, t', hinsert, ?_⟩
    have hfind := find_bucket_eq hequal hhash hrep.wf hdistinct (key n)
    cases hb : b.insert key hash equal n with
    | none =>
      rw [hb] at hcase
      have hsome := Buckets.insert_eq_none_iff.mp hb
      rw [hfind] at hsome
      obtain ⟨rfl, hrep'⟩ := hcase
      refine ⟨by simp [mapStep, hsome], b, hrep', ?_, ?_⟩ <;> simp [mapStep, hsome, hdistinct]
    | some b' =>
      rw [hb] at hcase
      obtain ⟨hnone, horder, _⟩ := hrep.wf.insert hb
      rw [hfind] at hnone
      obtain ⟨rfl, hrep'⟩ := hcase
      have hmap : mapStep key equal b.order (.insert n) = (b.order ++ [n], .code 0) := by
        simp [mapStep, hn, hnone]
      rw [hmap]
      exact ⟨rfl, b', hrep', horder, hdistinct.append hequal hnone⟩

theorem mapRep_remove {t : HashTable ν} {l : List ν} (h : MapRep key hash equal t l) (n : ν) :
    ∃ r t', HashTable_Remove key equal t n = some (r, t') ∧
      (mapStep key equal l (.remove n)).2 = .code r ∧
      MapRep key hash equal t' (mapStep key equal l (.remove n)).1 := by
  have hfind := mapRep_find hequal hhash h (key n)
  obtain ⟨b, hrep, rfl, hdistinct⟩ := h
  by_cases hn : n ∈ b.order
  · have hlinked : hlist_unhashed t.hlink n = false := by
      simpa [hlist_unhashed] using (hrep.isLinked_iff n).mpr hn
    rw [hdistinct.find_unique hequal hn (hequal.refl _), HashTable_Find,
      ← hrep.hashed n hn] at hfind
    refine ⟨0, _, ?_, by simp [mapStep, hn], _, hrep.unlink hn, ?_, ?_⟩
    · simp [HashTable_Remove, hlinked, hfind]
    · simp [mapStep, hn]
    · simpa [mapStep, hn] using hdistinct.subset List.erase_subset
  · have hunlinked : hlist_unhashed t.hlink n = true := by
      have hnot := mt (hrep.isLinked_iff n).mp hn
      simpa [hlist_unhashed] using hnot
    refine ⟨-1, t, by simp [HashTable_Remove, hunlinked], by simp [mapStep, hn], b, hrep, ?_, ?_⟩ <;>
      simp [mapStep, hn, hdistinct]

/-- One call on the table answers as the map does and keeps representing it. -/
theorem mapRep_step {t : HashTable ν} {l : List ν} (h : MapRep key hash equal t l)
    (op : Op ν κ) :
    ∃ t', t.step key hash equal op = some (t', (mapStep key equal l op).2) ∧
      MapRep key hash equal t' (mapStep key equal l op).1 := by
  cases op with
  | insert n =>
    obtain ⟨r, t', hinsert, hanswer, hrep⟩ := mapRep_insert hequal hhash h n
    exact ⟨t', by simp [HashTable.step, hinsert, hanswer], hrep⟩
  | remove n =>
    obtain ⟨r, t', hremove, hanswer, hrep⟩ := mapRep_remove hequal hhash h n
    exact ⟨t', by simp [HashTable.step, hremove, hanswer], hrep⟩
  | find k =>
    exact ⟨t, by simp [HashTable.step, mapRep_find hequal hhash h k, mapStep], h⟩

theorem mapRep_run {t : HashTable ν} {l : List ν} (h : MapRep key hash equal t l)
    (ops : List (Op ν κ)) :
    ∃ t', t.run key hash equal ops = some (t', (mapRun key equal l ops).2) ∧
      MapRep key hash equal t' (mapRun key equal l ops).1 := by
  induction ops generalizing t l with
  | nil => exact ⟨t, rfl, h⟩
  | cons op ops ih =>
    obtain ⟨t₁, hstep, h₁⟩ := mapRep_step hequal hhash h op
    obtain ⟨t₂, hrun, h₂⟩ := ih h₁
    exact ⟨t₂, by simp [HashTable.run, hstep, hrun, mapRun], h₂⟩

end refinement

/-- Visiting a table follows the order list from its head back to it. -/
theorem visit_loop_eq {m : Links (Option ν)} {x : Option ν} {l : List ν}
    (h : m.Seg x (l.map some) none) {fuel : Nat} (hfuel : l.length ≤ fuel) :
    HashTable_Visit.loop m fuel (m.next x) = some l := by
  induction l generalizing x fuel with
  | nil =>
    obtain ⟨hnext, _⟩ := h
    rw [hnext, HashTable_Visit.loop]
  | cons n l ih =>
    obtain ⟨hnext, _, hrest⟩ := h
    cases fuel with
    | zero => simp at hfuel
    | succ fuel =>
      have hlength : l.length ≤ fuel := by simpa using hfuel
      have htail := ih hrest hlength
      rw [hnext, HashTable_Visit.loop, htail]
      rfl

theorem Rep.visit_eq {t : HashTable ν} {b : Buckets ν} (h : Rep key hash t b) :
    HashTable_Visit t = some b.order :=
  visit_loop_eq h.ring.seg (Nat.le_of_eq h.nr_nodes.symm)

/-- Any run of calls on a new table, across any number of expansions, answers
as the insertion-ordered finite map does. Afterwards the nodes visited are the
map's nodes in insertion order, they are counted by `nr_nodes`, they are the
linked ones, and no two of them have equal keys. -/
theorem HashTable_refines_map [DecidableEq ν]
    (hequal : Equivalence fun a b => equal a b = true)
    (hhash : ∀ a b, equal a b = true → hash a = hash b) (ops : List (Op ν κ)) :
    ∃ t, HashTable_Init.run key hash equal ops = some (t, (mapRun key equal [] ops).2) ∧
      HashTable_Visit t = some (mapRun key equal [] ops).1 ∧
      t.nr_nodes = (mapRun key equal [] ops).1.length ∧
      (∀ n, hlist_unhashed t.hlink n = false ↔ n ∈ (mapRun key equal [] ops).1) ∧
      (mapRun key equal [] ops).1.Nodup ∧
      ordered_map.Distinct key equal (mapRun key equal [] ops).1 := by
  have hinit : MapRep key hash equal (HashTable_Init : HashTable ν) [] :=
    ⟨Buckets.init, rep_init, rfl, ordered_map.distinct_nil⟩
  obtain ⟨t, hrun, b, hrep, horder, hdistinct⟩ := mapRep_run hequal hhash hinit ops
  refine ⟨t, hrun, ?_, ?_, ?_, ?_, hdistinct⟩
  · rw [← horder, hrep.visit_eq]
  · rw [← horder, hrep.nr_nodes]
  · intro n
    rw [← horder, ← hrep.isLinked_iff]
    simp [hlist_unhashed]
  · rw [← horder]
    exact hrep.order_nodup

/-- Numbers hashed by their remainder: a colliding insertion, a duplicate, a
search and a removal. -/
theorem HashTable_refines_map_numbers :
    ∃ t, (HashTable_Init (ν := Nat)).run id (· % 7) (· == ·)
        [.insert 3, .insert 10, .insert 3, .find 10, .remove 3, .remove 3] =
          some (t, [.code 0, .code 0, .code (-1), .node (some 10), .code 0, .code (-1)]) ∧
      HashTable_Visit t = some [10] ∧ t.nr_nodes = 1 := by
  have hequal : Equivalence fun a b : Nat => (a == b) = true := by
    simpa using (⟨fun _ => rfl, Eq.symm, Eq.trans⟩ : Equivalence (Eq (α := Nat)))
  obtain ⟨t, hrun, hvisit, hcount, _⟩ := @HashTable_refines_map _ _ id (· % 7) _ _ hequal
    (fun a b h => by rw [beq_iff_eq.mp h])
    [.insert 3, .insert 10, .insert 3, .find 10, .remove 3, .remove 3]
  exact ⟨t, hrun, hvisit, hcount⟩

end koala.hashtable

namespace koala.hashtable

section model

variable {ν σ : Type} [DecidableEq ν]

/-- The two `del`s of `HashTable_Fini`. The number of nodes stays as it is. -/
def unlink (t : HashTable ν) (hnode : ν) : HashTable ν :=
  { t with llink := list_del t.llink (some hnode), hlink := hlist_del t.hlink hnode }

/-- `list_for_each_safe` of `HashTable_Fini`: the next node is read before the
current one is visited. A visit may change the table and what is around it. -/
def HashTable_Fini.loop (visit : HashTable ν × σ → ν → Res (HashTable ν × σ)) :
    Nat → HashTable ν × σ → Option ν → Res (HashTable ν × σ)
  | _, s, none => .ok s
  | 0, _, some _ => .error .fuel
  | fuel + 1, (t, x), some hnode => do
    let n := t.llink.next (some hnode)
    let s ← visit (unlink t hnode, x) hnode
    loop visit fuel s n

def HashTable_Fini (visit : HashTable ν × σ → ν → Res (HashTable ν × σ)) (s : HashTable ν × σ) :
    Res (HashTable ν × σ) := do
  let (t, x) ← HashTable_Fini.loop visit s.1.nr_nodes s (s.1.llink.next none)
  .ok ({ t with prime_index := 0, nr_nodes := 0 }, x)

end model

section linked

variable {ν κ σ : Type} {key : ν → κ} {hash : κ → Nat} {equal : κ → κ → Bool}

/-- The nodes `l` are linked, and no others, whatever their number is said to be. -/
def Linked (key : ν → κ) (hash : κ → Nat) (equal : κ → κ → Bool) (t : HashTable ν)
    (l : List ν) : Prop :=
  MapRep key hash equal { t with nr_nodes := l.length } l

theorem MapRep.linked {t : HashTable ν} {l : List ν} (h : MapRep key hash equal t l) :
    Linked key hash equal t l := by
  obtain ⟨b, hrep, rfl, hdistinct⟩ := h
  refine ⟨b, ?_, rfl, hdistinct⟩
  rw [← hrep.nr_nodes]
  exact hrep

theorem Linked.unhashed_iff {t : HashTable ν} {l : List ν} (h : Linked key hash equal t l) (n : ν) :
    hlist_unhashed t.hlink n = true ↔ n ∉ l := by
  obtain ⟨b, hrep, rfl, _⟩ := h
  have hlinked := hrep.isLinked_iff n
  rw [← hlinked]
  simp [hlist_unhashed]

theorem Linked.visit {t : HashTable ν} {l : List ν} (h : Linked key hash equal t l)
    (hroom : l.length ≤ t.nr_nodes) : HashTable_Visit t = some l := by
  obtain ⟨b, hrep, rfl, _⟩ := h
  exact visit_loop_eq hrep.ring.seg hroom

theorem Linked.nodup {t : HashTable ν} {l : List ν} (h : Linked key hash equal t l) : l.Nodup := by
  obtain ⟨b, hrep, rfl, _⟩ := h
  exact hrep.order_nodup

/-- The list starts at the head of the table. -/
theorem Linked.first {t : HashTable ν} {l : List ν} (h : Linked key hash equal t l) :
    t.llink.next none = l.head? := by
  obtain ⟨b, hrep, rfl, _⟩ := h
  have hseg := hrep.ring.seg
  cases horder : b.order with
  | nil =>
    rw [horder] at hseg
    exact hseg.1
  | cons n l =>
    rw [horder] at hseg
    exact hseg.1

theorem Linked.next {t : HashTable ν} {n : ν} {l : List ν}
    (h : Linked key hash equal t (n :: l)) : t.llink.next (some n) = l.head? := by
  obtain ⟨b, hrep, horder, _⟩ := h
  have hseg := hrep.ring.seg
  rw [horder] at hseg
  cases l with
  | nil => exact hseg.2.2.1
  | cons m l => exact hseg.2.2.1

variable [DecidableEq ν]

theorem Linked.unlink {t : HashTable ν} {n : ν} {l : List ν}
    (h : Linked key hash equal t (n :: l)) : Linked key hash equal (unlink t n) l := by
  obtain ⟨b, hrep, horder, hdistinct⟩ := h
  have hunlink := hrep.unlink (n := n) (by rw [horder]; exact List.mem_cons_self)
  refine ⟨_, hunlink, ?_, hdistinct.subset (List.subset_cons_self n l)⟩
  show b.order.erase n = l
  rw [horder, List.erase_cons_head]

/-- Where each visit keeps the rest of the table and takes what holds of the
remaining nodes one step further, all nodes are visited. -/
theorem HashTable_Fini_spec {visit : HashTable ν × σ → ν → Res (HashTable ν × σ)}
    {P : List ν → σ → Prop} (hvisit : ∀ {t x n l}, Linked key hash equal t l →
      l.length ≤ t.nr_nodes → n ∉ l → P (n :: l) x → ∃ x', visit (t, x) n = .ok (t, x') ∧ P l x')
    {t : HashTable ν} {l : List ν} (h : MapRep key hash equal t l) {x : σ} (hP : P l x) :
    ∃ t' x', HashTable_Fini visit (t, x) = .ok (t', x') ∧ P [] x' := by
  have hloop : ∀ (fuel : Nat) (l : List ν) (t : HashTable ν) (x : σ), l.length ≤ fuel →
      l.length ≤ t.nr_nodes → Linked key hash equal t l → P l x →
      ∃ t' x', HashTable_Fini.loop visit fuel (t, x) l.head? = .ok (t', x') ∧ P [] x' := by
    intro fuel l
    induction l generalizing fuel with
    | nil =>
      intro t x _ _ _ hP
      exact ⟨t, x, by rw [List.head?_nil, HashTable_Fini.loop], hP⟩
    | cons n l ih =>
      intro t x hfuel hroom hlinked hP
      obtain ⟨fuel, rfl⟩ : ∃ f, fuel = f + 1 := ⟨fuel - 1, by rw [List.length_cons] at hfuel; omega⟩
      have hnotin : n ∉ l := (List.nodup_cons.mp hlinked.nodup).1
      have hroom' : l.length ≤ (unlink t n).nr_nodes := Nat.le_of_succ_le hroom
      obtain ⟨x₁, hx₁, hP₁⟩ := hvisit hlinked.unlink hroom' hnotin hP
      obtain ⟨t', x', hrest, hP'⟩ := ih fuel (unlink t n) x₁ (Nat.le_of_succ_le_succ hfuel) hroom'
        hlinked.unlink hP₁
      refine ⟨t', x', ?_, hP'⟩
      rw [List.head?_cons, HashTable_Fini.loop, hlinked.next, hx₁, ok_bind, hrest]
  have hroom : l.length ≤ t.nr_nodes := by
    obtain ⟨b, hrep, rfl, _⟩ := h
    exact Nat.le_of_eq hrep.nr_nodes.symm
  obtain ⟨t', x', hrun, hP'⟩ := hloop t.nr_nodes l t x hroom hroom h.linked hP
  refine ⟨{ t' with prime_index := 0, nr_nodes := 0 }, x', ?_, hP'⟩
  rw [HashTable_Fini, h.linked.first, hrun, ok_bind]

end linked

end koala.hashtable
