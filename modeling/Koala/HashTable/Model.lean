import Mathlib.Data.List.Nodup
import Mathlib.Logic.Basic
import Mathlib.Tactic.Common
import Koala.HashTable.Buckets
import Koala.List

/-! Finite maps that remember the order of insertion, as lists of nodes. -/

namespace ordered_map

variable {ν κ : Type} {key : ν → κ} {equal : κ → κ → Bool}

/-- No two nodes have equal keys. -/
def Distinct (key : ν → κ) (equal : κ → κ → Bool) (l : List ν) : Prop :=
  ∀ x ∈ l, ∀ y ∈ l, equal (key x) (key y) = true → x = y

def find (key : ν → κ) (equal : κ → κ → Bool) (l : List ν) (k : κ) : Option ν :=
  l.find? fun x => equal (key x) k

theorem distinct_nil : Distinct key equal [] := by
  intro x hx
  cases hx

theorem Distinct.subset {l l' : List ν} (h : Distinct key equal l) (hsub : l' ⊆ l) :
    Distinct key equal l' := fun x hx y hy => h x (hsub hx) y (hsub hy)

theorem find_eq_none_iff {l : List ν} {k : κ} :
    find key equal l k = none ↔ ∀ x ∈ l, equal (key x) k = false := by
  simp [find]

theorem find_eq_some {l : List ν} {k : κ} {x : ν} (h : find key equal l k = some x) :
    x ∈ l ∧ equal (key x) k = true :=
  ⟨List.mem_of_find?_eq_some h, List.find?_some (p := fun x => equal (key x) k) h⟩

section equivalence

variable (hequal : Equivalence fun a b => equal a b = true)

include hequal

/-- Distinct keys make the search independent of the order: a node with an
equal key is the one found. -/
theorem Distinct.find_unique {l : List ν} (h : Distinct key equal l) {k : κ} {x : ν} (hx : x ∈ l)
    (hk : equal (key x) k = true) : find key equal l k = some x := by
  cases hfind : find key equal l k with
  | none =>
    have hnone := find_eq_none_iff.mp hfind x hx
    rw [hk] at hnone
    cases hnone
  | some y =>
    obtain ⟨hy, hyk⟩ := find_eq_some hfind
    rw [h x hx y hy (hequal.trans hk (hequal.symm hyk))]

theorem Distinct.append {l : List ν} (h : Distinct key equal l) {n : ν}
    (hn : find key equal l (key n) = none) : Distinct key equal (l ++ [n]) := by
  have hnone := find_eq_none_iff.mp hn
  intro x hx y hy heq
  rcases List.mem_append.mp hx with hx | hx <;> rcases List.mem_append.mp hy with hy | hy
  · exact h x hx y hy heq
  · rw [List.mem_singleton.mp hy, hnone x hx] at heq
    cases heq
  · rw [List.mem_singleton.mp hx] at heq
    have hsymm := hnone y hy
    rw [hequal.symm heq] at hsymm
    cases hsymm
  · rw [List.mem_singleton.mp hx, List.mem_singleton.mp hy]

end equivalence

end ordered_map

set_option linter.style.nameCheck false

open intrusive koala.list

namespace koala.hashtable

/-- A table together with the memory of the nodes `ν`. In the order list,
`none` is the address of the table's own list head; a bucket head is addressed
by its array and its index in it. -/
structure HashTable (ν : Type) where
  prime_index : Nat
  nr_nodes : Nat
  entries : Nat
  llink : Links (Option ν)
  hlink : Cells (Nat × Nat) ν
  hash : ν → Nat

variable {ν κ : Type} [DecidableEq ν]

omit [DecidableEq ν] in
def get_entries_size (t : HashTable ν) : Nat := get_prime t.prime_index

/-- A fresh array of bucket heads, all empty. -/
def new_entries (m : Cells (Nat × Nat) ν) (entries nr_entries : Nat) : Cells (Nat × Nat) ν :=
  { m with first := fun h => if h.1 = entries ∧ h.2 < nr_entries then none else m.first h }

/-- The table set up by the C function while every node is as `Init_HashNode`
leaves it: unlinked and with hash 0. -/
def HashTable_Init : HashTable ν where
  prime_index := 0
  nr_nodes := 0
  entries := 0
  llink := init_list_head ⟨id, id⟩ none
  hlink := new_entries ⟨fun _ => none, fun _ => none, fun _ => none⟩ 0 (get_prime 0)
  hash := fun _ => 0

variable (key : ν → κ) (hash : κ → Nat) (equal : κ → κ → Bool)

/-- `hlist_for_each` with the test of `__HashTable_Find`. The outer `none` is a
walk of more than `fuel` nodes. -/
def __HashTable_Find.loop (m : Cells (Nat × Nat) ν) (k : κ) :
    Nat → Option ν → Option (Option ν)
  | _, none => some none
  | 0, some _ => none
  | fuel + 1, some node =>
    if equal (key node) k then some (some node) else loop m k fuel (m.next node)

def __HashTable_Find (t : HashTable ν) (hash : Nat) (k : κ) : Option (Option ν) :=
  let idx := hash % get_entries_size t
  __HashTable_Find.loop key equal t.hlink k t.nr_nodes (t.hlink.first (t.entries, idx))

def HashTable_Find (t : HashTable ν) (k : κ) : Option (Option ν) :=
  __HashTable_Find key equal t (hash k) k

def HashTable_Remove (t : HashTable ν) (hnode : ν) : Option (Int × HashTable ν) :=
  if hlist_unhashed t.hlink hnode then some (-1, t)
  else do
    let temp ← __HashTable_Find key equal t (t.hash hnode) (key hnode)
    if temp ≠ some hnode then some (-1, t)
    else some (0, { t with
      hlink := hlist_del t.hlink hnode
      llink := list_del t.llink (some hnode)
      nr_nodes := t.nr_nodes - 1 })

/-- The inner loop of `htable_expand`: `hlist_for_each_safe` reads the next
node before the current one moves to the new array. -/
def htable_expand.moveChain (hashes : ν → Nat) (entries new_nr_entries : Nat) :
    Nat → Cells (Nat × Nat) ν → Option ν → Option (Cells (Nat × Nat) ν)
  | _, m, none => some m
  | 0, _, some _ => none
  | fuel + 1, m, some node =>
    let nxt := m.next node
    let m := hlist_del m node
    let index := hashes node % new_nr_entries
    moveChain hashes entries new_nr_entries fuel (hlist_add m node (entries, index)) nxt

/-- The outer loop of `htable_expand`, over the old buckets. -/
def htable_expand.moveAll (t : HashTable ν) (entries new_nr_entries : Nat) :
    List Nat → Cells (Nat × Nat) ν → Option (Cells (Nat × Nat) ν)
  | [], m => some m
  | i :: rest, m => do
    let m ← moveChain t.hash entries new_nr_entries t.nr_nodes m (m.first (t.entries, i))
    moveAll t entries new_nr_entries rest m

def htable_expand (t : HashTable ν) (new_prime_index : Nat) : Option (HashTable ν) := do
  let nr_entries := get_entries_size t
  let new_nr_entries := get_prime new_prime_index
  let entries := t.entries + 1
  let m ← htable_expand.moveAll t entries new_nr_entries (List.range nr_entries)
    (new_entries t.hlink entries new_nr_entries)
  some { t with prime_index := new_prime_index, entries := entries, hlink := m }

def htable_maybe_expand (t : HashTable ν) : Option (HashTable ν) :=
  if t.prime_index ≥ good_primes.length then some t
  else if belowLoad t.nr_nodes (get_entries_size t) then some t
  else
    let new_prime_index := get_proper_prime_index t.prime_index t.nr_nodes
    if new_prime_index ≤ t.prime_index then some t else htable_expand t new_prime_index

def HashTable_Insert (t : HashTable ν) (hnode : ν) : Option (Int × HashTable ν) :=
  if !hlist_unhashed t.hlink hnode then some (-1, t)
  else do
    let h := hash (key hnode)
    let t := { t with hash := Function.update t.hash hnode h }
    let found ← __HashTable_Find key equal t h (key hnode)
    if found.isSome then some (-1, t)
    else
      let t ← htable_maybe_expand t
      let index := h % get_entries_size t
      some (0, { t with
        hlink := hlist_add t.hlink hnode (t.entries, index)
        llink := list_add_tail t.llink (some hnode) none
        nr_nodes := t.nr_nodes + 1 })

/-- `list_for_each_safe` over the order list, collecting the nodes visited. -/
def HashTable_Visit.loop (m : Links (Option ν)) : Nat → Option ν → Option (List ν)
  | _, none => some []
  | 0, some _ => none
  | fuel + 1, some hnode => do
    let rest ← loop m fuel (m.next (some hnode))
    some (hnode :: rest)

def HashTable_Visit (t : HashTable ν) : Option (List ν) :=
  HashTable_Visit.loop t.llink t.nr_nodes (t.llink.next none)

end koala.hashtable
