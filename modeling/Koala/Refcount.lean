import Mathlib.Data.List.Count
import Mathlib.Data.List.Perm.Basic
import Mathlib.Tactic.Common

/-! Reference counts of objects that refer to older objects only. -/

namespace refcount

/-- An object: its counter and the addresses it holds references to. -/
structure Cell where
  count : Nat
  parts : List Nat

/-- The objects by address. Nothing is left where one has been freed. -/
abbrev Heap := List (Option Cell)

/-- An object whose counter is 0 is being freed: its references are given up. -/
def held : Option Cell → List Nat
  | some c => if 0 < c.count then c.parts else []
  | none => []

/-- The references that objects hold. -/
def references (h : Heap) : List Nat := h.flatMap held

/-- Every counter is the number of references to its object, from outside and
from other objects; what is referred to is there; objects refer to older ones. -/
structure Balanced (outside : List Nat) (h : Heap) : Prop where
  counted : ∀ {a : Nat} {c : Cell}, h[a]? = some (some c) →
    c.count = outside.count a + (references h).count a
  alive : ∀ a ∈ outside ++ references h, ∃ c, h[a]? = some (some c)
  older : ∀ {a : Nat} {c : Cell}, h[a]? = some (some c) → ∀ b ∈ c.parts, b < a

variable {h : Heap} {outside : List Nat} {a : Nat} {c : Cell}

theorem count_references_set {x : Option Cell} (hx : h[a]? = some x) (y : Option Cell) (b : Nat) :
    (references (h.set a y)).count b + (held x).count b =
      (references h).count b + (held y).count b := by
  induction h generalizing a with
  | nil => cases hx
  | cons z h ih =>
    cases a with
    | zero =>
      obtain rfl : z = x := Option.some.inj hx
      simp only [references, List.set_cons_zero, List.flatMap_cons, List.count_append]
      omega
    | succ a =>
      have htail := ih (show h[a]? = some x from hx)
      simp only [references, List.set_cons_succ, List.flatMap_cons, List.count_append] at htail ⊢
      omega

theorem held_of_pos (hpos : 0 < c.count) : held (some c) = c.parts := if_pos hpos

theorem held_of_zero (hzero : c.count = 0) : held (some c) = [] := if_neg (by omega)

/-- A reference that an object holds, and the object. -/
theorem exists_of_mem_references {b : Nat} (hb : b ∈ references h) :
    ∃ (a : Nat) (c : Cell), h[a]? = some (some c) ∧ 0 < c.count ∧ b ∈ c.parts := by
  obtain ⟨x, hx, hb⟩ := List.mem_flatMap.mp hb
  obtain ⟨a, ha⟩ := List.mem_iff_getElem?.mp hx
  cases x with
  | none => cases hb
  | some c =>
    rcases Nat.eq_zero_or_pos c.count with hzero | hpos
    · rw [held_of_zero hzero] at hb
      cases hb
    · rw [held_of_pos hpos] at hb
      exact ⟨a, c, ha, hpos, hb⟩

namespace Balanced

theorem perm (hbal : Balanced outside h) {outside' : List Nat} (hperm : outside.Perm outside') :
    Balanced outside' h where
  counted ha := by
    rw [← hperm.count_eq]
    exact hbal.counted ha
  alive b hb := hbal.alive b ((hperm.append_right _).mem_iff.mpr hb)
  older := hbal.older

theorem count_pos (hbal : Balanced outside h) (ha : h[a]? = some (some c))
    (hmem : a ∈ outside ++ references h) : 0 < c.count := by
  rw [hbal.counted ha, ← List.count_append]
  exact List.count_pos_iff.mpr hmem

theorem not_mem_parts (hbal : Balanced outside h) (ha : h[a]? = some (some c)) : a ∉ c.parts :=
  fun hmem => Nat.lt_irrefl a (hbal.older ha a hmem)

theorem not_mem_held (hbal : Balanced outside h) (ha : h[a]? = some (some c)) (n : Nat) :
    a ∉ held (some ⟨n, c.parts⟩) := by
  rw [held]
  split
  · show a ∉ c.parts
    exact fun hmem => Nat.lt_irrefl a (hbal.older ha a hmem)
  · exact List.not_mem_nil

/-- A change of one object, and of the references from outside, where each
reference that the object gives up or takes goes outside or comes from there. -/
theorem set (hbal : Balanced outside h) (ha : h[a]? = some (some c)) {n : Nat}
    {outside' : List Nat} (hself : n + outside.count a = c.count + outside'.count a)
    (hmoved : ∀ b, b ≠ a → outside'.count b + (held (some { c with count := n })).count b =
      outside.count b + (held (some c)).count b) :
    Balanced outside' (h.set a (some { c with count := n })) := by
  have hlt := (List.getElem?_eq_some_iff.mp ha).1
  have hset := count_references_set ha (some { c with count := n })
  have htotal : ∀ b, b ≠ a →
      outside'.count b + (references (h.set a (some { c with count := n }))).count b =
        outside.count b + (references h).count b := by
    intro b hb
    have hmoved := hmoved b hb
    have hset := hset b
    omega
  refine ⟨fun {b d} hb => ?_, fun b hb => ?_, fun {b d} hb => ?_⟩
  · by_cases heq : b = a
    · subst heq
      rw [List.getElem?_set_self hlt] at hb
      cases hb
      have hcounted := hbal.counted ha
      have hset := hset b
      rw [List.count_eq_zero.mpr (hbal.not_mem_held ha c.count),
        List.count_eq_zero.mpr (hbal.not_mem_held ha n)] at hset
      show n = _
      omega
    · rw [List.getElem?_set_ne (Ne.symm heq)] at hb
      rw [htotal b heq]
      exact hbal.counted hb
  · by_cases heq : b = a
    · subst heq
      exact ⟨_, List.getElem?_set_self hlt⟩
    · rw [List.getElem?_set_ne (Ne.symm heq)]
      refine hbal.alive b (List.count_pos_iff.mp ?_)
      rw [List.count_append, ← htotal b heq, ← List.count_append]
      exact List.count_pos_iff.mpr hb
  · by_cases heq : b = a
    · subst heq
      rw [List.getElem?_set_self hlt] at hb
      cases hb
      exact hbal.older (c := c) ha
    · rw [List.getElem?_set_ne (Ne.symm heq)] at hb
      exact hbal.older hb

/-- A reference is taken. -/
theorem take (hbal : Balanced outside h) (ha : h[a]? = some (some c)) (hpos : 0 < c.count) :
    Balanced (a :: outside) (h.set a (some { c with count := c.count + 1 })) := by
  refine hbal.set ha ?_ fun b hb => ?_
  · rw [List.count_cons_self]
    omega
  · rw [held_of_pos hpos, held_of_pos (Nat.succ_pos _), List.count_cons_of_ne (Ne.symm hb)]

/-- A reference that is not the last is dropped. -/
theorem drop (hbal : Balanced (a :: outside) h) (ha : h[a]? = some (some c)) (hmany : 1 < c.count) :
    Balanced outside (h.set a (some { c with count := c.count - 1 })) := by
  refine hbal.set ha ?_ fun b hb => ?_
  · rw [List.count_cons_self]
    omega
  · rw [held_of_pos (c := c) (by omega), held_of_pos (show 0 < c.count - 1 by omega),
      List.count_cons_of_ne (Ne.symm hb)]

/-- The last reference is dropped: those of the object are then to be dropped. -/
theorem last (hbal : Balanced (a :: outside) h) (ha : h[a]? = some (some c)) (hlast : c.count = 1) :
    Balanced (c.parts ++ outside) (h.set a (some { c with count := 0 })) := by
  refine hbal.set ha ?_ fun b hb => ?_
  · rw [List.count_cons_self, List.count_append, List.count_eq_zero.mpr (hbal.not_mem_parts ha)]
    omega
  · rw [held_of_pos (c := c) (by omega), held_of_zero (c := ⟨0, c.parts⟩) rfl, List.count_append,
      List.count_cons_of_ne (Ne.symm hb), List.count_nil]
    omega

/-- An object without references is freed. -/
theorem free (hbal : Balanced outside h) (ha : h[a]? = some (some c)) (hzero : c.count = 0) :
    Balanced outside (h.set a none) := by
  have hrefs : ∀ b, (references (h.set a none)).count b = (references h).count b := by
    intro b
    have hset := count_references_set ha none b
    rw [held_of_zero hzero] at hset
    exact hset
  have hne : ∀ b ∈ outside ++ references (h.set a none), a ≠ b := by
    rintro b hb rfl
    have hcounted := hbal.counted ha
    have hpos := List.count_pos_iff.mpr hb
    rw [List.count_append, hrefs] at hpos
    omega
  refine ⟨fun {b d} hb => ?_, fun b hb => ?_, fun {b d} hb => ?_⟩
  · rw [hrefs]
    by_cases heq : a = b
    · rw [← heq, List.getElem?_set_self (List.getElem?_eq_some_iff.mp ha).1] at hb
      cases hb
    · rw [List.getElem?_set_ne heq] at hb
      exact hbal.counted hb
  · rw [List.getElem?_set_ne (hne b hb)]
    refine hbal.alive b (List.count_pos_iff.mp ?_)
    rw [List.count_append, ← hrefs, ← List.count_append]
    exact List.count_pos_iff.mpr hb
  · by_cases heq : a = b
    · rw [← heq, List.getElem?_set_self (List.getElem?_eq_some_iff.mp ha).1] at hb
      cases hb
    · rw [List.getElem?_set_ne heq] at hb
      exact hbal.older hb

/-- A new object with one reference to it takes over some references. -/
theorem new {parts : List Nat} (hbal : Balanced (parts ++ outside) h) :
    Balanced (h.length :: outside) (h ++ [some ⟨1, parts⟩]) := by
  have hrefs : references (h ++ [some ⟨1, parts⟩]) = references h ++ parts := by
    rw [references, List.flatMap_append]
    simp [references, held]
  have hbound : ∀ b ∈ (parts ++ outside) ++ references h, b < h.length := by
    intro b hb
    obtain ⟨c, hc⟩ := hbal.alive b hb
    exact (List.getElem?_eq_some_iff.mp hc).1
  have hold : ∀ b, b < h.length → (h ++ [some ⟨1, parts⟩])[b]? = h[b]? :=
    fun b hb => List.getElem?_append_left hb
  refine ⟨fun {b d} hb => ?_, fun b hb => ?_, fun {b d} hb => ?_⟩
  · rw [hrefs, List.count_append]
    rcases Nat.lt_or_ge b h.length with hlt | hge
    · rw [hold b hlt] at hb
      have hcounted := hbal.counted hb
      rw [List.count_append] at hcounted
      rw [List.count_cons_of_ne (by omega)]
      omega
    · obtain rfl : b = h.length := by
        have hlt := (List.getElem?_eq_some_iff.mp hb).1
        rw [List.length_append, List.length_singleton] at hlt
        omega
      have hfresh : h.length ∉ (parts ++ outside) ++ references h :=
        fun hmem => Nat.lt_irrefl _ (hbound _ hmem)
      simp only [List.mem_append, not_or] at hfresh
      rw [List.count_cons_self, List.count_eq_zero.mpr hfresh.2, List.count_eq_zero.mpr hfresh.1.1,
        List.count_eq_zero.mpr hfresh.1.2]
      rw [List.getElem?_concat_length] at hb
      cases hb
      rfl
  · rw [hrefs] at hb
    by_cases heq : b = h.length
    · subst heq
      exact ⟨_, List.getElem?_concat_length⟩
    · have hmem : b ∈ (parts ++ outside) ++ references h := by
        simp only [List.cons_append, List.mem_cons, heq, false_or, List.mem_append] at hb ⊢
        tauto
      rw [hold b (hbound b hmem)]
      exact hbal.alive b hmem
  · rcases Nat.lt_or_ge b h.length with hlt | hge
    · rw [hold b hlt] at hb
      exact hbal.older hb
    · obtain rfl : b = h.length := by
        have hlt := (List.getElem?_eq_some_iff.mp hb).1
        rw [List.length_append, List.length_singleton] at hlt
        omega
      rw [List.getElem?_concat_length] at hb
      cases hb
      exact fun p hp => hbound p (by simp [hp])

/-- Where no object is being freed, each one belongs to something that is
referred to from outside. -/
theorem owner (hbal : Balanced outside h)
    (hcount : ∀ {b : Nat} {d : Cell}, h[b]? = some (some d) → 0 < d.count) (ha : h[a]? = some (some c)) :
    ∃ b ∈ outside, a ≤ b := by
  induction hn : h.length - a using Nat.strongRecOn generalizing a c with
  | _ n ih =>
    have hpos := hcount ha
    rw [hbal.counted ha, ← List.count_append, List.count_pos_iff, List.mem_append] at hpos
    rcases hpos with hmem | hmem
    · exact ⟨a, hmem, Nat.le_refl a⟩
    · obtain ⟨b, d, hb, _, hpart⟩ := exists_of_mem_references hmem
      have hlt := hbal.older hb a hpart
      have hbound := (List.getElem?_eq_some_iff.mp hb).1
      obtain ⟨root, hroot, hle⟩ := ih _ (by omega) hb rfl
      exact ⟨root, hroot, by omega⟩

end Balanced

end refcount
