import Mathlib.Data.List.Infix
import Mathlib.Data.List.Nodup
import Mathlib.Tactic.Common

namespace koala.merge

variable {α : Type}

/-- Every element comes after all the elements below it. -/
def Ordered (below : α → α → Prop) (l : List α) : Prop :=
  ∀ pre x post, l = pre ++ x :: post → ∀ y, below y x → y ∈ pre

theorem ordered_nil {below : α → α → Prop} : Ordered below [] := by
  intro pre x post h
  simp at h

theorem Ordered.append_singleton {below : α → α → Prop} {l : List α} (h : Ordered below l) {x : α}
    (hx : ∀ y, below y x → y ∈ l) : Ordered below (l ++ [x]) := by
  intro pre z post heq y hy
  rcases List.eq_nil_or_concat post with rfl | ⟨post, w, rfl⟩
  · obtain ⟨rfl, hxz⟩ := List.append_inj' heq rfl
    cases hxz
    exact hx y hy
  · rw [List.concat_eq_append, ← List.cons_append, ← List.append_assoc] at heq
    obtain ⟨hl, _⟩ := List.append_inj' heq rfl
    exact h pre z post hl y hy

variable [DecidableEq α]

/-- Putting an element at the end of a list, unless it is in it. -/
def insertNew (l : List α) (x : α) : List α := if x ∈ l then l else l ++ [x]

/-- Putting the elements of some lists, in order, at the end of a list. -/
def mergeAll (l : List α) (ls : List (List α)) : List α :=
  ls.foldl (fun l m => m.foldl insertNew l) l

theorem mem_insertNew {l : List α} {x y : α} : y ∈ insertNew l x ↔ y ∈ l ∨ y = x := by
  unfold insertNew
  split
  · next hx =>
    constructor
    · exact Or.inl
    · rintro (hy | rfl)
      · exact hy
      · exact hx
  · rw [List.mem_append, List.mem_singleton]

theorem prefix_insertNew (l : List α) (x : α) : l <+: insertNew l x := by
  unfold insertNew
  split
  · exact List.prefix_refl l
  · exact List.prefix_append l [x]

theorem nodup_insertNew {l : List α} (h : l.Nodup) (x : α) : (insertNew l x).Nodup := by
  unfold insertNew
  split
  · exact h
  · next hx =>
    refine List.Nodup.append h (List.nodup_singleton x) ?_
    exact List.disjoint_singleton.mpr hx

theorem mem_foldl_insertNew {l m : List α} {y : α} :
    y ∈ m.foldl insertNew l ↔ y ∈ l ∨ y ∈ m := by
  induction m generalizing l with
  | nil => simp
  | cons x m ih => rw [List.foldl_cons, ih, mem_insertNew, List.mem_cons, or_assoc]

theorem prefix_foldl_insertNew (l m : List α) : l <+: m.foldl insertNew l := by
  induction m generalizing l with
  | nil => exact List.prefix_refl l
  | cons x m ih => exact (prefix_insertNew l x).trans (ih _)

theorem nodup_foldl_insertNew {l : List α} (h : l.Nodup) (m : List α) :
    (m.foldl insertNew l).Nodup := by
  induction m generalizing l with
  | nil => exact h
  | cons x m ih => exact ih (nodup_insertNew h x)

/-- New elements, all different, are put at the end as they are. -/
theorem foldl_insertNew_of_disjoint {l m : List α} (h : (l ++ m).Nodup) :
    m.foldl insertNew l = l ++ m := by
  induction m generalizing l with
  | nil => exact (List.append_nil l).symm
  | cons x m ih =>
    have hx : x ∉ l := fun hmem => List.nodup_append.mp h |>.2.2 x hmem x List.mem_cons_self rfl
    rw [List.foldl_cons, insertNew, if_neg hx, ih (by rwa [List.append_assoc]), List.append_assoc]
    rfl

theorem mem_mergeAll {l : List α} {ls : List (List α)} {y : α} :
    y ∈ mergeAll l ls ↔ y ∈ l ∨ ∃ m ∈ ls, y ∈ m := by
  induction ls generalizing l with
  | nil => simp [mergeAll]
  | cons m ls ih =>
    rw [mergeAll, List.foldl_cons, ← mergeAll, ih, mem_foldl_insertNew, or_assoc]
    simp

theorem prefix_mergeAll (l : List α) (ls : List (List α)) : l <+: mergeAll l ls := by
  induction ls generalizing l with
  | nil => exact List.prefix_refl l
  | cons m ls ih => exact (prefix_foldl_insertNew l m).trans (ih _)

/-- The first of the lists, when it starts with what is there already. -/
theorem prefix_mergeAll_cons {x : α} {l : List α} (h : (x :: l).Nodup) (ls : List (List α)) :
    x :: l <+: mergeAll [x] ((x :: l) :: ls) := by
  have hfirst : (x :: l).foldl insertNew [x] = x :: l := by
    rw [List.foldl_cons, insertNew, if_pos List.mem_cons_self]
    exact foldl_insertNew_of_disjoint h
  rw [mergeAll, List.foldl_cons, ← mergeAll, hfirst]
  exact prefix_mergeAll (x :: l) ls

theorem nodup_mergeAll {l : List α} (h : l.Nodup) (ls : List (List α)) : (mergeAll l ls).Nodup := by
  induction ls generalizing l with
  | nil => exact h
  | cons m ls ih => exact ih (nodup_foldl_insertNew h m)

variable {below : α → α → Prop}

theorem Ordered.insertNew {l : List α} (h : Ordered below l) {x : α}
    (hx : ∀ y, below y x → y ∈ l) : Ordered below (insertNew l x) := by
  unfold koala.merge.insertNew
  split
  · exact h
  · exact h.append_singleton hx

/-- An element below another one comes before it, so it is there when the other
one is put at the end. -/
theorem Ordered.foldl_insertNew {l m : List α} (h : Ordered below l) (hm : Ordered below m) :
    Ordered below (m.foldl koala.merge.insertNew l) := by
  suffices hsplit : ∀ pre post, m = pre ++ post →
      Ordered below (pre.foldl koala.merge.insertNew l) from
    hsplit m [] (List.append_nil m).symm
  intro pre
  induction pre using List.reverseRecOn with
  | nil => exact fun _ _ => h
  | append_singleton pre x ih =>
    intro post heq
    rw [List.append_assoc] at heq
    rw [List.foldl_append]
    refine (ih _ heq).insertNew fun y hy => ?_
    exact mem_foldl_insertNew.mpr (Or.inr (hm pre x post heq y hy))

theorem Ordered.mergeAll {l : List α} (h : Ordered below l) {ls : List (List α)}
    (hls : ∀ m ∈ ls, Ordered below m) : Ordered below (mergeAll l ls) := by
  induction ls generalizing l with
  | nil => exact h
  | cons m ls ih =>
    exact ih (h.foldl_insertNew (hls m List.mem_cons_self))
      (fun n hn => hls n (List.mem_cons_of_mem m hn))

end koala.merge
