import Koala.HashTable.Buckets
import Mathlib.Data.List.Nodup

namespace koala.hashtable

namespace Buckets

variable {ν κ : Type} [DecidableEq κ] (key : ν → κ) (hash : κ → Nat)

def sameKey (k k' : κ) : Bool := k = k'

/-- The node of a key. -/
def get (b : Buckets ν) (k : κ) : Option ν := b.find key sameKey (hash k) k

/-- The table with a node, unless its key is there. -/
def put (b : Buckets ν) (x : ν) : Buckets ν := (b.insert key hash sameKey x).getD b

/-- Each key has one node. -/
structure Named (b : Buckets ν) : Prop where
  wf : b.WF key hash
  nodup : (b.order.map key).Nodup

variable {key : ν → κ} {hash : κ → Nat}

omit [DecidableEq κ] in
theorem named_init : (init : Buckets ν).Named key hash := ⟨wf_init, List.nodup_nil⟩

variable {b : Buckets ν}

theorem Named.get_eq_none_iff (h : b.Named key hash) {k : κ} :
    b.get key hash k = none ↔ ∀ x ∈ b.order, key x ≠ k := by
  rw [get, h.wf.find_eq_none_iff fun x _ heq => by rw [of_decide_eq_true heq]]
  simp only [sameKey, decide_eq_false_iff_not, ne_eq]

theorem Named.get_eq_some_iff (h : b.Named key hash) {k : κ} {x : ν} :
    b.get key hash k = some x ↔ x ∈ b.order ∧ key x = k := by
  constructor
  · intro hget
    obtain ⟨hmem, heq⟩ := h.wf.find_some hget
    exact ⟨hmem, of_decide_eq_true heq⟩
  · rintro ⟨hx, rfl⟩
    cases hget : b.get key hash (key x) with
    | none => exact absurd rfl (h.get_eq_none_iff.mp hget x hx)
    | some y =>
      obtain ⟨hy, heq⟩ := h.wf.find_some hget
      rw [List.inj_on_of_nodup_map h.nodup hy hx (of_decide_eq_true heq)]

/-- A node whose key is there is dropped, another one comes last. -/
theorem Named.order_put (h : b.Named key hash) (x : ν) :
    (b.put key hash x).Named key hash ∧ (b.put key hash x).order =
      if b.get key hash (key x) = none then b.order ++ [x] else b.order := by
  rw [put]
  cases hinsert : b.insert key hash sameKey x with
  | none =>
    have hsome : (b.get key hash (key x)).isSome = true := insert_eq_none_iff.mp hinsert
    have hne : b.get key hash (key x) ≠ none := fun hnone => by simp [hnone] at hsome
    rw [if_neg hne]
    exact ⟨h, rfl⟩
  | some b' =>
    obtain ⟨hfind, horder, hwf⟩ := h.wf.insert hinsert
    have hnone : b.get key hash (key x) = none := hfind
    rw [if_pos hnone]
    refine ⟨⟨hwf, ?_⟩, horder⟩
    rw [Option.getD_some, horder, List.map_append]
    refine List.nodup_append.mpr ⟨h.nodup, List.nodup_singleton _, ?_⟩
    intro k hk k' hk'
    obtain ⟨y, hy, rfl⟩ := List.mem_map.mp hk
    rw [List.map_singleton, List.mem_singleton] at hk'
    rw [hk']
    exact h.get_eq_none_iff.mp hnone y hy

theorem Named.put (h : b.Named key hash) (x : ν) : (b.put key hash x).Named key hash :=
  (h.order_put x).1

/-- A table after an insertion. -/
theorem Named.get_put (h : b.Named key hash) (x : ν) (k : κ) :
    (b.put key hash x).get key hash k =
      if b.get key hash (key x) = none ∧ k = key x then some x else b.get key hash k := by
  obtain ⟨hnamed, horder⟩ := h.order_put x
  split
  · next hnew =>
    obtain ⟨hnone, rfl⟩ := hnew
    rw [hnamed.get_eq_some_iff, horder, if_pos hnone]
    exact ⟨List.mem_append_right _ List.mem_cons_self, rfl⟩
  · next hold =>
    have hmem : ∀ y, y ∈ (b.put key hash x).order ∧ key y = k ↔ y ∈ b.order ∧ key y = k := by
      intro y
      rw [horder]
      split
      · next hnone =>
        rw [List.mem_append, List.mem_singleton]
        constructor
        · rintro ⟨hy | rfl, rfl⟩
          · exact ⟨hy, rfl⟩
          · exact absurd ⟨hnone, rfl⟩ hold
        · rintro ⟨hy, hk⟩
          exact ⟨Or.inl hy, hk⟩
      · exact Iff.rfl
    refine Option.ext fun y => ?_
    rw [hnamed.get_eq_some_iff, h.get_eq_some_iff, hmem]

end Buckets

end koala.hashtable
