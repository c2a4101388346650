import Mathlib.Data.List.Basic
import Mathlib.Logic.Function.Basic
import Mathlib.Tactic.Common

namespace koala.hashtable

def good_primes : List Nat :=
  [19, 31, 53, 97, 193, 389, 769, 1543, 3079, 6151, 12289, 24593, 49157, 98317, 196613, 393241,
    786433, 1572869, 3145739, 6291469, 12582917, 25165843, 50331653, 100663319, 201326611,
    402653189, 805306457, 1610612741]

def get_prime (idx : Nat) : Nat := good_primes.getD idx 0

/-- `nr_nodes < prime * LOAD_FACTOR`, with `LOAD_FACTOR` read as 13/20. No
prime of the table is a multiple of 20, so no rounding of the C product can
reach an integer. -/
def belowLoad (nr_nodes prime : Nat) : Bool := 20 * nr_nodes < 13 * prime

def get_proper_prime_index.loop (nr_nodes : Nat) : Nat → Nat → Nat
  | 0, new_prime_index => new_prime_index
  | left + 1, new_prime_index =>
    if belowLoad nr_nodes (get_prime new_prime_index) then new_prime_index
    else loop nr_nodes left (new_prime_index + 1)

def get_proper_prime_index (prime_index nr_nodes : Nat) : Nat :=
  let size := good_primes.length
  let new_prime_index := get_proper_prime_index.loop nr_nodes (size - prime_index) prime_index
  -- too many nodes?
  if new_prime_index ≥ size then size - 1 else new_prime_index

theorem get_proper_prime_index_lt (prime_index nr_nodes : Nat) :
    get_proper_prime_index prime_index nr_nodes < good_primes.length := by
  have hpos : 0 < good_primes.length := by decide
  unfold get_proper_prime_index
  simp only
  split <;> omega

theorem get_prime_pos {idx : Nat} (h : idx < good_primes.length) : 0 < get_prime idx := by
  have hall : ∀ p ∈ good_primes, 0 < p := by decide
  have heq : get_prime idx = good_primes[idx] := by
    simp [get_prime, List.getD_eq_getElem?_getD, h]
  rw [heq]
  exact hall _ (List.getElem_mem h)

/-- The contents of a table without its links: the chain of every bucket, in
chain order, and all nodes in the order they were added. -/
structure Buckets (ν : Type) where
  prime_index : Nat
  chain : Nat → List ν
  order : List ν

namespace Buckets

variable {ν κ : Type}

def init : Buckets ν where
  prime_index := 0
  chain := fun _ => []
  order := []

/-- The number of buckets. -/
def nr_entries (b : Buckets ν) : Nat := get_prime b.prime_index

section operations

variable (key : ν → κ) (hash : κ → Nat) (equal : κ → κ → Bool)

/-- The first node of the bucket of `hash` whose key equals `k`. -/
def find (b : Buckets ν) (h : Nat) (k : κ) : Option ν :=
  (b.chain (h % b.nr_entries)).find? fun x => equal (key x) k

/-- Putting a node in front of its bucket, among `n` buckets. -/
def push (n : Nat) (chain : Nat → List ν) (x : ν) : Nat → List ν :=
  let i := hash (key x) % n
  Function.update chain i (x :: chain i)

/-- Moving every node, bucket by bucket, to `get_prime new_prime_index` new
buckets. -/
def expand (b : Buckets ν) (new_prime_index : Nat) : Buckets ν where
  prime_index := new_prime_index
  chain := ((List.range b.nr_entries).flatMap b.chain).foldl
    (push key hash (get_prime new_prime_index)) fun _ => []
  order := b.order

def maybe_expand (b : Buckets ν) : Buckets ν :=
  if b.prime_index ≥ good_primes.length then b
  else if belowLoad b.order.length b.nr_entries then b
  else
    let new_prime_index := get_proper_prime_index b.prime_index b.order.length
    if new_prime_index ≤ b.prime_index then b else b.expand key hash new_prime_index

/-- Adding an unlinked node; `none` when its key is present. -/
def insert (b : Buckets ν) (x : ν) : Option (Buckets ν) :=
  if (b.find key equal (hash (key x)) (key x)).isSome then none
  else
    let b := b.maybe_expand key hash
    some { b with chain := push key hash b.nr_entries b.chain x, order := b.order ++ [x] }

end operations

section spec

variable {key : ν → κ} {hash : κ → Nat} {equal : κ → κ → Bool}

/-- Every node lies in the bucket of its hash, and the buckets hold exactly the
nodes of the order list. -/
structure WF (key : ν → κ) (hash : κ → Nat) (b : Buckets ν) : Prop where
  prime_index_lt : b.prime_index < good_primes.length
  place : ∀ i, ∀ x ∈ b.chain i, i = hash (key x) % b.nr_entries
  mem_order : ∀ x, x ∈ b.order ↔ ∃ i, x ∈ b.chain i

theorem wf_init : (init : Buckets ν).WF key hash where
  prime_index_lt := show 0 < good_primes.length by decide
  place := by simp [init]
  mem_order := by simp [init]

theorem WF.nr_entries_pos {b : Buckets ν} (h : b.WF key hash) : 0 < b.nr_entries :=
  get_prime_pos h.prime_index_lt

theorem WF.mem_order_iff {b : Buckets ν} (h : b.WF key hash) (x : ν) :
    x ∈ b.order ↔ x ∈ b.chain (hash (key x) % b.nr_entries) := by
  rw [h.mem_order]
  constructor
  · rintro ⟨i, hi⟩
    rwa [← h.place i x hi]
  · exact fun hx => ⟨_, hx⟩

theorem WF.find_some {b : Buckets ν} (h : b.WF key hash) {hk : Nat} {k : κ} {x : ν}
    (hfind : b.find key equal hk k = some x) : x ∈ b.order ∧ equal (key x) k = true := by
  have hmem := List.mem_of_find?_eq_some hfind
  have heq := List.find?_some hfind
  exact ⟨(h.mem_order x).mpr ⟨_, hmem⟩, heq⟩

/-- A node with an equal key and the searched hash cannot be missed. -/
theorem WF.find_none {b : Buckets ν} (h : b.WF key hash) {hk : Nat} {k : κ}
    (hfind : b.find key equal hk k = none) {x : ν} (hx : x ∈ b.order)
    (hhash : hash (key x) = hk) : equal (key x) k = false := by
  rw [h.mem_order_iff, hhash] at hx
  have hnone := List.find?_eq_none.mp hfind x hx
  simpa using hnone

/-- Searching with compatible hashes finds nothing exactly when no node has an
equal key. -/
theorem WF.find_eq_none_iff {b : Buckets ν} (h : b.WF key hash) {k : κ}
    (hcompat : ∀ x ∈ b.order, equal (key x) k = true → hash (key x) = hash k) :
    b.find key equal (hash k) k = none ↔ ∀ x ∈ b.order, equal (key x) k = false := by
  constructor
  · intro hfind x hx
    by_contra hne
    have heq : equal (key x) k = true := by simpa using hne
    have hfalse := h.find_none hfind hx (hcompat x hx heq)
    rw [heq] at hfalse
    cases hfalse
  · intro hall
    cases hfind : b.find key equal (hash k) k with
    | none => rfl
    | some x =>
      obtain ⟨hx, heq⟩ := h.find_some hfind
      rw [hall x hx] at heq
      cases heq

theorem mem_push {n : Nat} {chain : Nat → List ν} {x y : ν} {i : Nat} :
    y ∈ push key hash n chain x i ↔ (y = x ∧ i = hash (key x) % n) ∨ y ∈ chain i := by
  unfold push
  by_cases hi : i = hash (key x) % n
  · subst hi
    simp
  · simp [hi]

theorem mem_foldl_push {n : Nat} {chain : Nat → List ν} {l : List ν} {y : ν} {i : Nat} :
    y ∈ l.foldl (push key hash n) chain i ↔
      (y ∈ l ∧ i = hash (key y) % n) ∨ y ∈ chain i := by
  induction l generalizing chain with
  | nil => simp
  | cons a l ih =>
    rw [List.foldl_cons, ih, mem_push]
    constructor
    · rintro (⟨hy, hi⟩ | ⟨rfl, hi⟩ | hy)
      · exact Or.inl ⟨List.mem_cons_of_mem a hy, hi⟩
      · exact Or.inl ⟨by simp, hi⟩
      · exact Or.inr hy
    · rintro (⟨hy, hi⟩ | hy)
      · rcases List.mem_cons.mp hy with rfl | hy
        · exact Or.inr (Or.inl ⟨rfl, hi⟩)
        · exact Or.inl ⟨hy, hi⟩
      · exact Or.inr (Or.inr hy)

/-- The nodes met by the walk over all buckets are those of the table. -/
theorem WF.mem_walk {b : Buckets ν} (h : b.WF key hash) (x : ν) :
    x ∈ (List.range b.nr_entries).flatMap b.chain ↔ x ∈ b.order := by
  rw [h.mem_order, List.mem_flatMap]
  constructor
  · rintro ⟨i, _, hx⟩
    exact ⟨i, hx⟩
  · rintro ⟨i, hx⟩
    refine ⟨i, List.mem_range.mpr ?_, hx⟩
    rw [h.place i x hx]
    exact Nat.mod_lt _ h.nr_entries_pos

theorem WF.expand {b : Buckets ν} (h : b.WF key hash) {new_prime_index : Nat}
    (hnew : new_prime_index < good_primes.length) :
    (b.expand key hash new_prime_index).WF key hash where
  prime_index_lt := hnew
  place := by
    intro i x hx
    rcases mem_foldl_push.mp hx with ⟨_, hi⟩ | hx
    · exact hi
    · cases hx
  mem_order := by
    intro x
    change x ∈ b.order ↔ _
    rw [← h.mem_walk]
    constructor
    · exact fun hx => ⟨_, mem_foldl_push.mpr (Or.inl ⟨hx, rfl⟩)⟩
    · rintro ⟨i, hx⟩
      rcases mem_foldl_push.mp hx with ⟨hx, _⟩ | hx
      · exact hx
      · cases hx

@[simp] theorem maybe_expand_order (b : Buckets ν) :
    (b.maybe_expand key hash).order = b.order := by
  unfold maybe_expand
  split
  · rfl
  split
  · rfl
  dsimp only
  split <;> rfl

theorem WF.maybe_expand {b : Buckets ν} (h : b.WF key hash) :
    (b.maybe_expand key hash).WF key hash := by
  unfold Buckets.maybe_expand
  split
  · exact h
  split
  · exact h
  dsimp only
  split
  · exact h
  · exact h.expand (get_proper_prime_index_lt _ _)

theorem insert_eq_none_iff {b : Buckets ν} {x : ν} :
    b.insert key hash equal x = none ↔
      (b.find key equal (hash (key x)) (key x)).isSome = true := by
  unfold insert
  split
  · next h => exact ⟨fun _ => h, fun _ => rfl⟩
  · next h => exact ⟨nofun, fun hsome => absurd hsome h⟩

/-- A successful insertion found no equal key in the node's bucket, appends the
node to the order and keeps the table well formed. -/
theorem WF.insert {b b' : Buckets ν} (h : b.WF key hash) {x : ν}
    (hinsert : b.insert key hash equal x = some b') :
    b.find key equal (hash (key x)) (key x) = none ∧ b'.order = b.order ++ [x] ∧
      b'.WF key hash := by
  have hw := h.maybe_expand
  unfold Buckets.insert at hinsert
  split at hinsert
  · cases hinsert
  · next hnone =>
    have hb := Option.some.inj hinsert
    refine ⟨by simpa using hnone, by rw [← hb]; simp, ?_⟩
    rw [← hb]
    refine ⟨hw.prime_index_lt, ?_, ?_⟩
    · intro i y hy
      rcases mem_push.mp hy with ⟨rfl, hi⟩ | hy
      · exact hi
      · exact hw.place i y hy
    · intro y
      constructor
      · intro hy
        rcases List.mem_append.mp hy with hy | hy
        · obtain ⟨i, hi⟩ := (hw.mem_order y).mp hy
          exact ⟨i, mem_push.mpr (Or.inr hi)⟩
        · exact ⟨_, mem_push.mpr (Or.inl ⟨List.mem_singleton.mp hy, rfl⟩)⟩
      · rintro ⟨i, hy⟩
        rcases mem_push.mp hy with ⟨rfl, _⟩ | hy
        · simp
        · exact List.mem_append_left _ ((hw.mem_order y).mpr ⟨i, hy⟩)

end spec

end Buckets

end koala.hashtable
