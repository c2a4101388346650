import Mathlib.Data.List.Nodup
import Mathlib.Logic.Function.Basic

namespace intrusive

/-- Memory of doubly linked cells at addresses `A`: every cell holds the
address of its successor and of its predecessor. -/
structure Links (A : Type) where
  next : A → A
  prev : A → A

variable {A : Type}

/-- The cells `l` lead from `x` to `y`: each cell's successor is the next one
and that one's predecessor is the cell. -/
def Links.Seg (m : Links A) : A → List A → A → Prop
  | x, [], y => m.next x = y ∧ m.prev y = x
  | x, a :: l, y => m.next x = a ∧ m.prev a = x ∧ m.Seg a l y

@[simp] theorem Links.seg_nil (m : Links A) (x y : A) :
    m.Seg x [] y ↔ m.next x = y ∧ m.prev y = x := Iff.rfl

@[simp] theorem Links.seg_cons (m : Links A) (x a y : A) (l : List A) :
    m.Seg x (a :: l) y ↔ m.next x = a ∧ m.prev a = x ∧ m.Seg a l y := Iff.rfl

/-- A segment splits at each of its cells. -/
theorem Links.seg_append (m : Links A) (x a y : A) (l r : List A) :
    m.Seg x (l ++ a :: r) y ↔ m.Seg x l a ∧ m.Seg a r y := by
  induction l generalizing x with
  | nil => simp [and_assoc]
  | cons b l ih => simp [ih, and_assoc]

/-- The last cell of `x :: l`. -/
def lastCell : A → List A → A
  | x, [] => x
  | _, a :: l => lastCell a l

@[simp] theorem lastCell_nil (x : A) : lastCell x [] = x := rfl

@[simp] theorem lastCell_cons (x a : A) (l : List A) : lastCell x (a :: l) = lastCell a l := rfl

/-- The first cell of `l ++ [y]`. -/
def firstCell : List A → A → A
  | [], y => y
  | a :: _, _ => a

@[simp] theorem firstCell_nil (y : A) : firstCell [] y = y := rfl

@[simp] theorem firstCell_cons (a y : A) (l : List A) : firstCell (a :: l) y = a := rfl

theorem lastCell_mem (x : A) (l : List A) : lastCell x l ∈ x :: l := by
  induction l generalizing x with
  | nil => simp
  | cons a l ih => exact List.mem_cons_of_mem x (by simpa using ih a)

theorem firstCell_mem (l : List A) (y : A) : firstCell l y ∈ l ++ [y] := by
  cases l <;> simp

theorem Links.Seg.prev_end {m : Links A} {x y : A} {l : List A} (h : m.Seg x l y) :
    m.prev y = lastCell x l := by
  induction l generalizing x with
  | nil => exact h.2
  | cons a l ih => exact ih h.2.2

theorem Links.Seg.next_start {m : Links A} {x y : A} {l : List A} (h : m.Seg x l y) :
    m.next x = firstCell l y := by
  cases l with
  | nil => exact h.1
  | cons a l => exact h.1

/-- A segment only depends on the successors of its cells before the end and on
the predecessors of its cells after the start. -/
theorem Links.Seg.frame {m m' : Links A} {x y : A} {l : List A} (h : m.Seg x l y)
    (hnext : ∀ a ∈ x :: l, m'.next a = m.next a)
    (hprev : ∀ a ∈ l ++ [y], m'.prev a = m.prev a) : m'.Seg x l y := by
  induction l generalizing x with
  | nil =>
    exact ⟨(hnext x (by simp)).trans h.1, (hprev y (by simp)).trans h.2⟩
  | cons a l ih =>
    obtain ⟨hn, hp, hrest⟩ := h
    refine ⟨(hnext x (by simp)).trans hn, (hprev a (by simp)).trans hp, ih hrest ?_ ?_⟩
    · intro b hb
      exact hnext b (List.mem_cons_of_mem x hb)
    · intro b hb
      exact hprev b (List.mem_cons_of_mem a hb)

/-- Two segments meeting at a cell become one without it once the cells around
the meeting point are relinked. -/
theorem Links.Seg.join {m m' : Links A} {x e y : A} {l r : List A}
    (hl : m.Seg x l e) (hr : m.Seg e r y)
    (hnext : m'.next (lastCell x l) = firstCell r y)
    (hprev : m'.prev (firstCell r y) = lastCell x l)
    (hnextSame : ∀ a ∈ x :: l ++ r, a ≠ lastCell x l → m'.next a = m.next a)
    (hprevSame : ∀ a ∈ l ++ r ++ [y], a ≠ firstCell r y → m'.prev a = m.prev a)
    (hnodup : (x :: l ++ r).Nodup) (hend : (l ++ r ++ [y]).Nodup) : m'.Seg x (l ++ r) y := by
  induction l generalizing x with
  | nil =>
    cases r with
    | nil => exact ⟨hnext, hprev⟩
    | cons a r =>
      simp only [List.nil_append, lastCell_nil, firstCell_cons] at hnext hprev hnextSame hprevSame
      refine ⟨hnext, hprev, hr.2.2.frame ?_ ?_⟩
      · intro b hb
        refine hnextSame b (List.mem_cons_of_mem x hb) ?_
        rintro rfl
        exact (List.nodup_cons.mp hnodup).1 (by simpa using hb)
      · intro b hb
        refine hprevSame b (by simpa using Or.inr (by simpa using hb)) ?_
        rintro rfl
        have hstart : b ∉ r ++ [y] := (List.nodup_cons.mp hend).1
        exact hstart hb
  | cons a l ih =>
    obtain ⟨hn, hp, hrest⟩ := hl
    obtain ⟨hx, hnodup'⟩ := List.nodup_cons.mp hnodup
    obtain ⟨ha, hend'⟩ := List.nodup_cons.mp hend
    have hxlast : x ≠ lastCell a l := fun heq =>
      hx (List.mem_append_left r (heq ▸ lastCell_mem a l))
    have hafirst : a ≠ firstCell r y := by
      intro heq
      have hmem : a ∈ r ++ [y] := heq ▸ firstCell_mem r y
      exact ha (by simpa [or_assoc] using Or.inr (by simpa using hmem))
    refine ⟨(hnextSame x (by simp) hxlast).trans hn,
      (hprevSame a (by simp) hafirst).trans hp, ?_⟩
    refine ih hrest hnext hprev ?_ ?_ ?_ ?_
    · intro b hb
      exact hnextSame b (List.mem_cons_of_mem x (by simpa using hb))
    · intro b hb
      exact hprevSame b (List.mem_cons_of_mem a (by simpa using hb))
    · exact hnodup'
    · exact hend'

/-- The circular list with head cell `head` and members `l`, in order. -/
structure Links.Ring (m : Links A) (head : A) (l : List A) : Prop where
  seg : m.Seg head l head
  nodup : (head :: l).Nodup

theorem Links.Ring.not_mem_head {m : Links A} {head : A} {l : List A} (h : m.Ring head l) :
    head ∉ l := (List.nodup_cons.mp h.nodup).1

theorem Links.Ring.members_nodup {m : Links A} {head : A} {l : List A} (h : m.Ring head l) :
    l.Nodup := (List.nodup_cons.mp h.nodup).2

theorem Links.Ring.frame {m m' : Links A} {head : A} {l : List A} (h : m.Ring head l)
    (hnext : ∀ a ∈ head :: l, m'.next a = m.next a)
    (hprev : ∀ a ∈ head :: l, m'.prev a = m.prev a) : m'.Ring head l :=
  ⟨h.seg.frame hnext (fun a ha => hprev a (by simpa [or_comm] using ha)), h.nodup⟩

theorem Links.Seg.prev_mem {m : Links A} {x y : A} {l : List A} (h : m.Seg x l y) :
    ∀ a ∈ l, m.prev a ∈ x :: l := by
  induction l generalizing x with
  | nil => simp
  | cons b l ih =>
    obtain ⟨_, hp, hrest⟩ := h
    intro a ha
    rcases List.mem_cons.mp ha with rfl | ha
    · rw [hp]
      exact List.mem_cons_self
    · exact List.mem_cons_of_mem x (ih hrest a ha)

theorem Links.Seg.next_mem {m : Links A} {x y : A} {l : List A} (h : m.Seg x l y) :
    ∀ a ∈ x :: l, m.next a ∈ l ++ [y] := by
  induction l generalizing x with
  | nil =>
    intro a ha
    rw [List.mem_singleton.mp ha, h.1]
    exact List.mem_singleton_self y
  | cons b l ih =>
    obtain ⟨hn, _, hrest⟩ := h
    intro a ha
    rcases List.mem_cons.mp ha with rfl | ha
    · rw [hn]
      exact List.mem_cons_self
    · exact List.mem_cons_of_mem b (ih hrest a ha)

/-- The predecessors lead from a member back to the head, so two rings share no
cell unless one's head lies in the other. -/
theorem Links.Ring.disjoint {m : Links A} {head head' : A} {l l' : List A}
    (h : m.Ring head l) (h' : m.Ring head' l') (hhead : head ∉ head' :: l') (hhead' : head' ∉ l) :
    ∀ a ∈ head :: l, a ∉ head' :: l' := by
  have hback : ∀ x r y, m.Seg x r y → head' ∉ r → x ∉ head' :: l' →
      ∀ a ∈ x :: r, a ∉ head' :: l' := by
    intro x r y hseg hnot hx
    induction r generalizing x with
    | nil =>
      intro a ha
      rwa [List.mem_singleton.mp ha]
    | cons b r ih =>
      obtain ⟨_, hp, hrest⟩ := hseg
      have hb : b ∉ head' :: l' := by
        intro hmem
        rcases List.mem_cons.mp hmem with rfl | hmem
        · exact hnot List.mem_cons_self
        · exact hx (hp ▸ h'.seg.prev_mem b hmem)
      intro a ha
      rcases List.mem_cons.mp ha with rfl | ha
      · exact hx
      · exact ih b hrest (fun hmem => hnot (List.mem_cons_of_mem b hmem)) hb a ha
  exact hback head l head h.seg hhead' hhead

/-- Linking a fresh cell between the last member and the head appends it. -/
theorem Links.Ring.insert_last {m m' : Links A} {head e : A} {l : List A} (h : m.Ring head l)
    (hfresh : e ∉ head :: l)
    (hnextE : m'.next e = head) (hprevE : m'.prev e = m.prev head)
    (hnextLast : m'.next (m.prev head) = e) (hprevHead : m'.prev head = e)
    (hnextSame : ∀ a, a ≠ e → a ≠ m.prev head → m'.next a = m.next a)
    (hprevSame : ∀ a, a ≠ e → a ≠ head → m'.prev a = m.prev a) : m'.Ring head (l ++ [e]) := by
  have hlast := h.seg.prev_end
  have hnodup : (head :: (l ++ [e])).Nodup := by
    rw [← List.cons_append, List.nodup_append]
    refine ⟨h.nodup, List.nodup_singleton e, ?_⟩
    intro a ha b hb
    rw [List.mem_singleton] at hb
    rintro rfl
    exact hfresh (hb ▸ ha)
  refine ⟨?_, hnodup⟩
  rw [m'.seg_append]
  refine ⟨?_, hnextE, hprevHead⟩
  -- The old members keep their links up to the last one, which now leads to `e`.
  have hkeep : ∀ x r, m.Seg x r head → (∀ a ∈ x :: r, a ∈ head :: l) → (x :: r).Nodup →
      head ∉ r → lastCell x r = m.prev head → m'.Seg x r e := by
    intro x r hseg hin hnd hhead hlastEq
    induction r generalizing x with
    | nil => exact ⟨by rw [← hnextLast, ← hlastEq]; rfl, by rw [hprevE, ← hlastEq]; rfl⟩
    | cons b r ih =>
      obtain ⟨hn, hp, hrest⟩ := hseg
      have hxe : x ≠ e := fun heq => hfresh (heq ▸ hin x (by simp))
      have hbe : b ≠ e := fun heq => hfresh (heq ▸ hin b (by simp))
      have hxlast : x ≠ m.prev head := by
        intro heq
        have hmem := lastCell_mem b r
        rw [lastCell_cons] at hlastEq
        rw [hlastEq, ← heq] at hmem
        exact (List.nodup_cons.mp hnd).1 hmem
      have hbhead : b ≠ head := fun heq => hhead (by simp [heq])
      refine ⟨(hnextSame x hxe hxlast).trans hn, (hprevSame b hbe hbhead).trans hp,
        ih b hrest (fun a ha => hin a (List.mem_cons_of_mem x ha)) (List.nodup_cons.mp hnd).2
          (fun hmem => hhead (List.mem_cons_of_mem b hmem)) hlastEq⟩
  exact hkeep head l h.seg (fun a ha => ha) h.nodup h.not_mem_head hlast.symm

/-- Linking a member's neighbours to each other removes it. -/
theorem Links.Ring.remove {m m' : Links A} {head e : A} {l r : List A}
    (h : m.Ring head (l ++ e :: r))
    (hnext : m'.next (m.prev e) = m.next e) (hprev : m'.prev (m.next e) = m.prev e)
    (hnextSame : ∀ a, a ≠ e → a ≠ m.prev e → m'.next a = m.next a)
    (hprevSame : ∀ a, a ≠ e → a ≠ m.next e → m'.prev a = m.prev a) : m'.Ring head (l ++ r) := by
  obtain ⟨hseg, hnodup⟩ := h
  rw [m.seg_append] at hseg
  obtain ⟨hl, hr⟩ := hseg
  have hp := hl.prev_end
  have hn := hr.next_start
  rw [List.nodup_cons, List.nodup_middle, List.nodup_cons] at hnodup
  obtain ⟨hhead, he, hrest⟩ := hnodup
  have hne : ∀ a ∈ head :: (l ++ r), a ≠ e := by
    intro a ha heq
    subst heq
    rcases List.mem_cons.mp ha with rfl | hmem
    · exact hhead (by simp)
    · exact he hmem
  have hheadRest : head ∉ l ++ r := fun hmem => hhead (by
    simp only [List.mem_append, List.mem_cons] at hmem ⊢
    tauto)
  have hnodup' : (head :: (l ++ r)).Nodup := List.nodup_cons.mpr ⟨hheadRest, hrest⟩
  refine ⟨hl.join hr (by rw [← hp, ← hn]; exact hnext) (by rw [← hp, ← hn]; exact hprev)
    ?_ ?_ (by simpa using hnodup') ?_, hnodup'⟩
  · intro a ha hlast
    exact hnextSame a (hne a (by simpa using ha)) (by rwa [hp])
  · intro a ha hfirst
    refine hprevSame a (hne a ?_) (by rwa [hn])
    simpa [or_comm, or_left_comm, or_assoc] using ha
  · rw [List.nodup_append]
    refine ⟨hrest, List.nodup_singleton head, ?_⟩
    intro a ha b hb
    rw [List.mem_singleton] at hb
    rintro rfl
    exact hheadRest (hb ▸ ha)

/-- A ring without members has its head linked to itself. -/
theorem Links.ring_nil {m : Links A} {head : A} (hnext : m.next head = head)
    (hprev : m.prev head = head) : m.Ring head [] :=
  ⟨⟨hnext, hprev⟩, by simp⟩

end intrusive
