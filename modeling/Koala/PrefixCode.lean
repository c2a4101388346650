import Mathlib.Data.List.Basic
import Mathlib.Data.Set.Basic
import Mathlib.Tactic.Common

namespace prefixcode

variable {α β : Type}

/-- The word of `a` shows its own end: read from the front of any word of `S`,
it is that word. -/
def Delimits (enc : α → List β) (S : Set α) (a : α) : Prop :=
  ∀ b ∈ S, ∀ r r', enc a ++ r = enc b ++ r' → a = b ∧ r = r'

/-- No word of `S` stands at the front of `x`. -/
def Stops (enc : α → List β) (S : Set α) (x : List β) : Prop := ∀ a ∈ S, ∀ r, enc a ++ r ≠ x

variable {enc : α → List β} {S : Set α}

theorem stops_nil (hne : ∀ a ∈ S, enc a ≠ []) : Stops enc S [] := by
  intro a ha r h
  exact hne a ha (List.append_eq_nil_iff.mp h).1

theorem stops_cons {c : β} {x : List β} (hne : ∀ a ∈ S, enc a ≠ [])
    (hhead : ∀ a ∈ S, ∀ w, enc a ≠ c :: w) : Stops enc S (c :: x) := by
  intro a ha r h
  cases hword : enc a with
  | nil => exact hne a ha hword
  | cons d w =>
    rw [hword, List.cons_append, List.cons.injEq] at h
    exact hhead a ha w (h.1 ▸ hword)

/-- A sequence of words that show their ends is read in one way, up to where no
word stands. -/
theorem flatMap_append_inj {as bs : List α} {x y : List β}
    (has : ∀ a ∈ as, a ∈ S ∧ Delimits enc S a) (hbs : ∀ b ∈ bs, b ∈ S) (hx : Stops enc S x)
    (hy : Stops enc S y) (h : as.flatMap enc ++ x = bs.flatMap enc ++ y) : as = bs ∧ x = y := by
  induction as generalizing bs with
  | nil =>
    cases bs with
    | nil => exact ⟨rfl, h⟩
    | cons b bs =>
      rw [List.flatMap_cons, List.append_assoc] at h
      exact absurd h.symm (hx b (hbs b List.mem_cons_self) _)
  | cons a as ih =>
    obtain ⟨ha, has⟩ := List.forall_mem_cons.mp has
    cases bs with
    | nil =>
      rw [List.flatMap_cons, List.append_assoc] at h
      exact absurd h (hy a ha.1 _)
    | cons b bs =>
      obtain ⟨hb, htail⟩ := List.forall_mem_cons.mp hbs
      rw [List.flatMap_cons, List.flatMap_cons, List.append_assoc, List.append_assoc] at h
      obtain ⟨hab, hrest⟩ := ha.2 b hb _ _ h
      obtain ⟨hlist, hxy⟩ := ih has htail hrest
      exact ⟨by rw [hab, hlist], hxy⟩

/-- A field without the separator ends at the first one. -/
theorem split_first {c : β} {x y r r' : List β} (hx : c ∉ x) (hy : c ∉ y)
    (h : x ++ c :: r = y ++ c :: r') : x = y ∧ r = r' := by
  induction x generalizing y with
  | nil =>
    cases y with
    | nil => exact ⟨rfl, (List.cons.inj h).2⟩
    | cons d y => exact absurd ((List.cons.inj h).1 ▸ List.mem_cons_self) hy
  | cons d x ih =>
    cases y with
    | nil => exact absurd ((List.cons.inj h).1 ▸ List.mem_cons_self) hx
    | cons e y =>
      obtain ⟨hde, htail⟩ := List.cons.inj h
      obtain ⟨hxy, hr⟩ := ih (fun hmem => hx (List.mem_cons_of_mem _ hmem))
        (fun hmem => hy (List.mem_cons_of_mem _ hmem)) htail
      exact ⟨by rw [hde, hxy], hr⟩

/-- A field without the separator starts at the last one. -/
theorem split_last {c : β} {x y r r' : List β} (hr : c ∉ r) (hr' : c ∉ r')
    (h : x ++ c :: r = y ++ c :: r') : x = y ∧ r = r' := by
  have hrev : r.reverse ++ c :: x.reverse = r'.reverse ++ c :: y.reverse := by
    simpa using congrArg List.reverse h
  obtain ⟨hr, hx⟩ := split_first (by simpa using hr) (by simpa using hr') hrev
  exact ⟨List.reverse_injective hx, List.reverse_injective hr⟩

/-- Marks in front of a field that does not start with one are counted. -/
theorem replicate_append_inj {c : β} {n m : Nat} {x y : List β} (hx : ∀ w, x ≠ c :: w)
    (hy : ∀ w, y ≠ c :: w) (h : List.replicate n c ++ x = List.replicate m c ++ y) :
    n = m ∧ x = y := by
  induction n generalizing m with
  | zero =>
    cases m with
    | zero => exact ⟨rfl, h⟩
    | succ m => exact absurd h (hx _)
  | succ n ih =>
    cases m with
    | zero => exact absurd h.symm (hy _)
    | succ m =>
      obtain ⟨rfl, hxy⟩ := ih (List.cons.inj h).2
      exact ⟨rfl, hxy⟩

/-- A word that shows its end is no proper start of another word. -/
theorem Delimits.eq_of_isPrefix {a b : α} (ha : Delimits enc S a) (hb : b ∈ S)
    (h : enc a <+: enc b) : a = b := by
  obtain ⟨r, hr⟩ := h
  exact (ha b hb r [] (by rw [hr, List.append_nil])).1

end prefixcode
