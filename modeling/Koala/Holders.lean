import Mathlib.Data.List.Count
import Mathlib.Data.List.Induction
import Mathlib.Tactic.Common

/-! Reference counts of objects whose references may change. -/

namespace holders

section definitions

variable {α : Type} (count : α → Int) (parts : Nat → α → List Nat)

/-- The references that an object holds at its address, until its count is 0. -/
def held (a : Nat) (c : α) : List Nat := if 0 < count c then parts a c else []

def heldAt (h : List α) (a : Nat) : List Nat := h[a]?.elim [] (held count parts a)

/-- The references that objects hold. -/
def references (h : List α) : List Nat := (List.range h.length).flatMap (heldAt count parts h)

/-- Every count is the number of references to its object, from outside and from other objects. -/
structure Balanced (outside : List Nat) (h : List α) : Prop where
  counted : ∀ {a : Nat} {c : α}, h[a]? = some c →
    count c = outside.count a + (references count parts h).count a
  bound : ∀ {a : Nat}, a ∈ outside ++ references count parts h → a < h.length

/-- Each object of a set is referred to from outside or by an object of the set. -/
def Supported (S : Nat → Prop) (outside : List Nat) (h : List α) : Prop :=
  ∀ a, S a → (∃ c, h[a]? = some c ∧ 0 < count c) ∧
    (a ∈ outside ∨ ∃ b c, S b ∧ h[b]? = some c ∧ a ∈ parts b c)

end definitions

variable {α : Type} {count : α → Int} {parts parts' : Nat → α → List Nat}
  {outside outside' : List Nat} {h : List α} {a : Nat} {c c' : α}

theorem held_of_pos (hpos : 0 < count c) : held count parts a c = parts a c := if_pos hpos

theorem held_of_zero (hzero : count c ≤ 0) : held count parts a c = [] := if_neg (by omega)

theorem heldAt_of_get (ha : h[a]? = some c) : heldAt count parts h a = held count parts a c := by
  rw [heldAt, ha, Option.elim_some]

/-- A reference that an object holds, and the object. -/
theorem mem_references {b : Nat} : b ∈ references count parts h ↔
    ∃ a c, h[a]? = some c ∧ 0 < count c ∧ b ∈ parts a c := by
  rw [references, List.mem_flatMap]
  constructor
  · rintro ⟨a, ha, hb⟩
    obtain ⟨c, hget⟩ : ∃ c, h[a]? = some c := ⟨_, List.getElem?_eq_getElem (List.mem_range.mp ha)⟩
    rw [heldAt_of_get hget] at hb
    by_cases hpos : 0 < count c
    · rw [held_of_pos hpos] at hb
      exact ⟨a, c, hget, hpos, hb⟩
    · rw [held_of_zero (Int.not_lt.mp hpos)] at hb
      cases hb
  · rintro ⟨a, c, ha, hpos, hb⟩
    refine ⟨a, List.mem_range.mpr (List.getElem?_eq_some_iff.mp ha).1, ?_⟩
    rw [heldAt_of_get ha, held_of_pos hpos]
    exact hb

theorem flatMap_congr {f f' : Nat → List Nat} {l : List Nat} (hsame : ∀ k ∈ l, f' k = f k) :
    l.flatMap f' = l.flatMap f := by
  rw [List.flatMap_def, List.flatMap_def, List.map_congr_left hsame]

/-- What objects hold does not depend on where they are. -/
theorem references_flatMap (hsame : ∀ k c, parts k c = parts 0 c) :
    references count parts h = h.flatMap (held count parts 0) := by
  induction h using List.reverseRecOn with
  | nil => rfl
  | append_singleton h c ih =>
    have hbelow : (List.range h.length).flatMap (heldAt count parts (h ++ [c])) =
        references count parts h := by
      refine flatMap_congr fun k hk => ?_
      rw [heldAt, heldAt, List.getElem?_append_left (List.mem_range.mp hk)]
    have hlast : heldAt count parts (h ++ [c]) h.length = held count parts 0 c := by
      rw [heldAt_of_get List.getElem?_concat_length, held, held, hsame]
    rw [references, List.length_append, List.length_singleton, List.range_succ,
      List.flatMap_append, hbelow, ih, List.flatMap_append, List.flatMap_singleton,
      List.flatMap_singleton, hlast]

/-- Two walks over the addresses that differ at one of them. -/
theorem count_flatMap_range {f f' : Nat → List Nat} {n : Nat} (ha : a < n)
    (hsame : ∀ k, k ≠ a → f' k = f k) (b : Nat) :
    ((List.range n).flatMap f').count b + (f a).count b =
      ((List.range n).flatMap f).count b + (f' a).count b := by
  induction n with
  | zero => omega
  | succ n ih =>
    simp only [List.range_succ, List.flatMap_append, List.flatMap_cons, List.flatMap_nil,
      List.append_nil, List.count_append]
    by_cases han : a = n
    · subst han
      have hbelow : (List.range a).flatMap f' = (List.range a).flatMap f :=
        flatMap_congr fun k hk => hsame k (Nat.ne_of_lt (List.mem_range.mp hk))
      rw [hbelow]
      omega
    · have hlt := ih (by omega)
      rw [hsame n (Ne.symm han)]
      omega

/-- What is held when one object changes, and what it is seen to hold. -/
theorem count_references_set (ha : h[a]? = some c) (c' : α)
    (hparts : ∀ k, k ≠ a → parts' k = parts k) (b : Nat) :
    (references count parts' (h.set a c')).count b + (held count parts a c).count b =
      (references count parts h).count b + (held count parts' a c').count b := by
  have hlt := (List.getElem?_eq_some_iff.mp ha).1
  rw [references, references, List.length_set, ← heldAt_of_get ha,
    ← heldAt_of_get (List.getElem?_set_self hlt)]
  refine count_flatMap_range hlt (fun k hk => ?_) b
  rw [heldAt, heldAt, List.getElem?_set_ne (Ne.symm hk)]
  unfold held
  rw [hparts k hk]

namespace Balanced

/-- An object that is referred to is counted. -/
theorem pos (hbal : Balanced count parts outside h)
    (hmem : a ∈ outside ++ references count parts h) : ∃ c, h[a]? = some c ∧ 0 < count c := by
  have hget := List.getElem?_eq_getElem (hbal.bound hmem)
  have hcount := List.count_pos_iff.mpr hmem
  rw [List.count_append] at hcount
  refine ⟨_, hget, ?_⟩
  rw [hbal.counted hget]
  omega

theorem nonneg (hbal : Balanced count parts outside h) (ha : h[a]? = some c) : 0 ≤ count c := by
  rw [hbal.counted ha]
  omega

/-- The references from outside count, not their order. -/
theorem congr (hbal : Balanced count parts outside h)
    (hcount : ∀ b, outside'.count b = outside.count b) : Balanced count parts outside' h where
  counted ha := by
    rw [hcount]
    exact hbal.counted ha
  bound hb := by
    refine hbal.bound (List.count_pos_iff.mp ?_)
    rw [List.count_append, ← hcount, ← List.count_append]
    exact List.count_pos_iff.mpr hb

/-- A change of one object, and of the references from outside, where each reference that the
object gives up or takes goes outside or comes from there. -/
theorem set (hbal : Balanced count parts outside h) (ha : h[a]? = some c)
    (hparts : ∀ k, k ≠ a → parts' k = parts k)
    (hself : count c' + outside.count a + (held count parts a c).count a =
      count c + outside'.count a + (held count parts' a c').count a)
    (hmoved : ∀ b, b ≠ a → outside'.count b + (held count parts' a c').count b =
      outside.count b + (held count parts a c).count b) :
    Balanced count parts' outside' (h.set a c') := by
  have hlt := (List.getElem?_eq_some_iff.mp ha).1
  have hset : ∀ b, (references count parts' (h.set a c')).count b + (held count parts a c).count b =
      (references count parts h).count b + (held count parts' a c').count b :=
    count_references_set ha c' hparts
  refine ⟨fun {b d} hb => ?_, fun {b} hb => ?_⟩
  · have hset := hset b
    by_cases heq : b = a
    · subst heq
      rw [List.getElem?_set_self hlt] at hb
      cases hb
      have hcounted := hbal.counted ha
      omega
    · rw [List.getElem?_set_ne (Ne.symm heq)] at hb
      have hcounted := hbal.counted hb
      have hmoved := hmoved b heq
      omega
  · rw [List.length_set]
    by_cases heq : b = a
    · rwa [heq]
    · refine hbal.bound (List.count_pos_iff.mp ?_)
      have hpos := List.count_pos_iff.mpr hb
      have hset := hset b
      have hmoved := hmoved b heq
      rw [List.count_append] at hpos ⊢
      omega

/-- A reference is taken. -/
theorem take (hbal : Balanced count parts outside h) (ha : h[a]? = some c) (hpos : 0 < count c)
    (hcount : count c' = count c + 1) (hsame : parts a c' = parts a c) :
    Balanced count parts (a :: outside) (h.set a c') := by
  have hheld : held count parts a c' = held count parts a c := by
    rw [held_of_pos hpos, held_of_pos (show 0 < count c' by omega), hsame]
  refine hbal.set ha (fun _ _ => rfl) ?_ fun b hb => ?_
  · rw [hheld, List.count_cons_self, hcount]
    omega
  · rw [hheld, List.count_cons_of_ne (Ne.symm hb)]

/-- A reference that is not the last is dropped. -/
theorem drop (hbal : Balanced count parts (a :: outside) h) (ha : h[a]? = some c)
    (hmany : 1 < count c) (hcount : count c' = count c - 1) (hsame : parts a c' = parts a c) :
    Balanced count parts outside (h.set a c') := by
  have hheld : held count parts a c' = held count parts a c := by
    rw [held_of_pos (show 0 < count c by omega), held_of_pos (show 0 < count c' by omega), hsame]
  refine hbal.set ha (fun _ _ => rfl) ?_ fun b hb => ?_
  · rw [hheld, List.count_cons_self, hcount]
    omega
  · rw [hheld, List.count_cons_of_ne (Ne.symm hb)]

/-- The last reference is dropped: those of the object are then to be dropped. -/
theorem last (hbal : Balanced count parts (a :: outside) h) (ha : h[a]? = some c)
    (hlast : count c = 1) (hzero : count c' = 0) :
    Balanced count parts (parts a c ++ outside) (h.set a c') := by
  have hbefore : held count parts a c = parts a c := held_of_pos (by omega)
  have hafter : held count parts a c' = [] := held_of_zero (by omega)
  refine hbal.set ha (fun _ _ => rfl) ?_ fun b hb => ?_
  · rw [hbefore, hafter, List.count_cons_self, List.count_append, List.count_nil, hlast, hzero]
    omega
  · rw [hbefore, hafter, List.count_append, List.count_cons_of_ne (Ne.symm hb), List.count_nil]
    omega

/-- An object without references is changed. -/
theorem dead (hbal : Balanced count parts outside h) (ha : h[a]? = some c) (hzero : count c = 0)
    (hcount : count c' = 0) : Balanced count parts outside (h.set a c') := by
  have hheld : held count parts a c' = held count parts a c := by
    rw [held_of_zero (show count c ≤ 0 by omega), held_of_zero (show count c' ≤ 0 by omega)]
  refine hbal.set ha (fun _ _ => rfl) ?_ fun b _ => ?_
  · rw [hheld, hcount, hzero]
  · rw [hheld]

/-- A new object with one reference to it, that refers to nothing. -/
theorem new (hbal : Balanced count parts outside h) (hone : count c = 1)
    (hnone : parts h.length c = []) : Balanced count parts (h.length :: outside) (h ++ [c]) := by
  have hrefs : references count parts (h ++ [c]) = references count parts h := by
    have hlast : heldAt count parts (h ++ [c]) h.length = [] := by
      rw [heldAt_of_get List.getElem?_concat_length, held_of_pos (show 0 < count c by omega), hnone]
    rw [references, references, List.length_append, List.length_singleton, List.range_succ,
      List.flatMap_append, List.flatMap_cons, hlast, List.flatMap_nil, List.append_nil,
      List.append_nil]
    refine flatMap_congr fun k hk => ?_
    rw [heldAt, heldAt, List.getElem?_append_left (List.mem_range.mp hk)]
  have hfresh : h.length ∉ outside ++ references count parts h :=
    fun hmem => Nat.lt_irrefl _ (hbal.bound hmem)
  refine ⟨fun {b d} hb => ?_, fun {b} hb => ?_⟩
  · rw [hrefs]
    by_cases heq : b = h.length
    · subst heq
      rw [List.getElem?_concat_length] at hb
      cases hb
      rw [List.mem_append, not_or] at hfresh
      rw [List.count_cons_self, List.count_eq_zero.mpr hfresh.1, List.count_eq_zero.mpr hfresh.2,
        hone]
      rfl
    · have hlt := (List.getElem?_eq_some_iff.mp hb).1
      rw [List.length_append, List.length_singleton] at hlt
      rw [List.getElem?_append_left (by omega)] at hb
      rw [List.count_cons_of_ne (Ne.symm heq)]
      exact hbal.counted hb
  · rw [hrefs, List.cons_append, List.mem_cons] at hb
    rw [List.length_append, List.length_singleton]
    rcases hb with rfl | hb
    · exact Nat.lt_succ_self _
    · exact Nat.lt_succ_of_lt (hbal.bound hb)

end Balanced

/-- The reference that is dropped is not the last one to an object of the set. -/
theorem Supported.many {S : Nat → Prop} (hsup : Supported count parts S outside h)
    (hbal : Balanced count parts (a :: outside) h) (hS : S a) (ha : h[a]? = some c) :
    1 < count c := by
  have hmem : a ∈ outside ++ references count parts h := by
    rcases (hsup a hS).2 with hout | ⟨b, d, hb, hget, hpart⟩
    · exact List.mem_append_left _ hout
    · obtain ⟨⟨d', hget', hpos⟩, _⟩ := hsup b hb
      cases hget.symm.trans hget'
      exact List.mem_append_right _ (mem_references.mpr ⟨b, d, hget, hpos, hpart⟩)
  have hpos := List.count_pos_iff.mpr hmem
  have hcounted := hbal.counted ha
  rw [List.count_append] at hpos
  rw [List.count_cons_self] at hcounted
  omega

/-- The counts of the objects change, but none of the set gets to 0. -/
theorem Supported.congr {S : Nat → Prop} {h' : List α} (hsup : Supported count parts S outside h)
    (hsubset : ∀ b ∈ outside, b ∈ outside')
    (hsame : ∀ b c, S b → h[b]? = some c → ∃ c', h'[b]? = some c' ∧ 0 < count c' ∧
      parts b c' = parts b c) : Supported count parts S outside' h' := by
  intro b hb
  obtain ⟨⟨d, hget, _⟩, hheld⟩ := hsup b hb
  obtain ⟨d', hget', hpos', _⟩ := hsame b d hb hget
  refine ⟨⟨d', hget', hpos'⟩, ?_⟩
  rcases hheld with hout | ⟨k, e, hk, hgetk, hpart⟩
  · exact Or.inl (hsubset b hout)
  · obtain ⟨e', hgetk', _, hparts⟩ := hsame k e hk hgetk
    exact Or.inr ⟨k, e', hk, hgetk', hparts ▸ hpart⟩

end holders
