import Mathlib.Data.List.Nodup
import Mathlib.Logic.Function.Basic

namespace intrusive

/-- Memory of singly headed chains: heads at addresses `H`, nodes at addresses
`N`. A cell is a head's `first` pointer or a node's `next` pointer, and a
linked node knows the cell that points to it. -/
structure Cells (H N : Type) where
  first : H → Option N
  next : N → Option N
  pprev : N → Option (H ⊕ N)

variable {H N : Type}

def Cells.read (m : Cells H N) : H ⊕ N → Option N
  | .inl h => m.first h
  | .inr n => m.next n

@[simp] theorem Cells.read_inl (m : Cells H N) (h : H) : m.read (.inl h) = m.first h := rfl

@[simp] theorem Cells.read_inr (m : Cells H N) (n : N) : m.read (.inr n) = m.next n := rfl

/-- Cell `c` starts a chain through exactly the nodes `l`, in order. -/
def Cells.Chain (m : Cells H N) : H ⊕ N → List N → Prop
  | c, [] => m.read c = none
  | c, n :: l => m.read c = some n ∧ m.pprev n = some c ∧ m.Chain (.inr n) l

@[simp] theorem Cells.chain_nil (m : Cells H N) (c : H ⊕ N) :
    m.Chain c [] ↔ m.read c = none := Iff.rfl

@[simp] theorem Cells.chain_cons (m : Cells H N) (c : H ⊕ N) (n : N) (l : List N) :
    m.Chain c (n :: l) ↔ m.read c = some n ∧ m.pprev n = some c ∧ m.Chain (.inr n) l := Iff.rfl

theorem Cells.Chain.read_eq {m : Cells H N} {c : H ⊕ N} {l : List N} (h : m.Chain c l) :
    m.read c = l.head? := by
  cases l with
  | nil => exact h
  | cons n l => exact h.1

/-- A chain only depends on its starting cell, on its nodes' cells and on their
back pointers. -/
theorem Cells.Chain.frame {m m' : Cells H N} {c : H ⊕ N} {l : List N} (h : m.Chain c l)
    (hread : m'.read c = m.read c) (hnext : ∀ n ∈ l, m'.next n = m.next n)
    (hpprev : ∀ n ∈ l, m'.pprev n = m.pprev n) : m'.Chain c l := by
  induction l generalizing c with
  | nil => exact hread.trans h
  | cons n l ih =>
    obtain ⟨hc, hp, hrest⟩ := h
    refine ⟨hread.trans hc, (hpprev n (by simp)).trans hp, ih hrest (hnext n (by simp)) ?_ ?_⟩
    · exact fun x hx => hnext x (List.mem_cons_of_mem n hx)
    · exact fun x hx => hpprev x (List.mem_cons_of_mem n hx)

/-- The cell pointing at the node that follows `l` in a chain from `c`. -/
def cellAfter : H ⊕ N → List N → H ⊕ N
  | c, [] => c
  | _, n :: l => cellAfter (.inr n) l

theorem cellAfter_cases (c : H ⊕ N) (l : List N) :
    cellAfter c l = c ∨ ∃ n ∈ l, cellAfter c l = .inr n := by
  induction l generalizing c with
  | nil => exact Or.inl rfl
  | cons a l ih =>
    rcases ih (.inr a) with heq | ⟨n, hn, heq⟩
    · exact Or.inr ⟨a, by simp, heq⟩
    · exact Or.inr ⟨n, List.mem_cons_of_mem a hn, heq⟩

theorem Cells.Chain.pprev_eq {m : Cells H N} {c : H ⊕ N} {l r : List N} {n : N}
    (h : m.Chain c (l ++ n :: r)) : m.pprev n = some (cellAfter c l) := by
  induction l generalizing c with
  | nil => exact h.2.1
  | cons a l ih => exact ih h.2.2

theorem Cells.Chain.next_eq {m : Cells H N} {c : H ⊕ N} {l r : List N} {n : N}
    (h : m.Chain c (l ++ n :: r)) : m.next n = r.head? := by
  induction l generalizing c with
  | nil => exact h.2.2.read_eq
  | cons a l ih => exact ih h.2.2

/-- Every node of a chain is linked. -/
theorem Cells.Chain.pprev_isSome {m : Cells H N} {c : H ⊕ N} {l : List N} {n : N}
    (h : m.Chain c l) (hn : n ∈ l) : (m.pprev n).isSome := by
  obtain ⟨s, t, rfl⟩ := List.append_of_mem hn
  simp [h.pprev_eq]

/-- Linking a fresh node at the starting cell puts it in front. -/
theorem Cells.Chain.push {m m' : Cells H N} {c : H ⊕ N} {l : List N} {n : N} (h : m.Chain c l)
    (hfresh : n ∉ l) (hnodup : l.Nodup) (hcells : ∀ x ∈ l, c ≠ .inr x)
    (hread : m'.read c = some n) (hpprevNew : m'.pprev n = some c)
    (hnextNew : m'.next n = m.read c)
    (hback : ∀ x, m.read c = some x → m'.pprev x = some (.inr n))
    (hnext : ∀ x ∈ l, m'.next x = m.next x)
    (hpprev : ∀ x, x ≠ n → m.read c ≠ some x → m'.pprev x = m.pprev x) :
    m'.Chain c (n :: l) := by
  refine ⟨hread, hpprevNew, ?_⟩
  cases l with
  | nil => exact hnextNew.trans h
  | cons a l =>
    obtain ⟨hc, _, hrest⟩ := h
    obtain ⟨ha, _⟩ := List.nodup_cons.mp hnodup
    refine ⟨hnextNew.trans hc, hback a hc, hrest.frame (hnext a (by simp)) ?_ ?_⟩
    · exact fun x hx => hnext x (List.mem_cons_of_mem a hx)
    · intro x hx
      refine hpprev x ?_ ?_
      · rintro rfl
        exact hfresh (List.mem_cons_of_mem a hx)
      · rw [hc]
        rintro heq
        exact ha (by simpa [Option.some.inj heq] using hx)

/-- Making the cell before a node point past it removes the node. -/
theorem Cells.Chain.remove {m m' : Cells H N} {c : H ⊕ N} {l r : List N} {n : N}
    (h : m.Chain c (l ++ n :: r)) (hnodup : (l ++ n :: r).Nodup)
    (hcells : ∀ x ∈ l ++ n :: r, c ≠ .inr x)
    (hwrite : m'.read (cellAfter c l) = m.next n)
    (hback : ∀ x, m.next n = some x → m'.pprev x = some (cellAfter c l))
    (hread : ∀ q, q ≠ cellAfter c l → q ≠ .inr n → m'.read q = m.read q)
    (hpprev : ∀ x, x ≠ n → m.next n ≠ some x → m'.pprev x = m.pprev x) :
    m'.Chain c (l ++ r) := by
  have hnext := h.next_eq
  induction l generalizing c with
  | nil =>
    obtain ⟨_, _, hr⟩ := h
    obtain ⟨hn, hrest⟩ := List.nodup_cons.mp hnodup
    cases r with
    | nil => exact hwrite.trans hnext
    | cons a r =>
      obtain ⟨_, _, htail⟩ := hr
      obtain ⟨ha, _⟩ := List.nodup_cons.mp hrest
      refine ⟨hwrite.trans hnext, hback a hnext, htail.frame ?_ ?_ ?_⟩
      · refine hread (.inr a) (fun heq => hcells a (by simp) heq.symm) ?_
        rintro ⟨⟩
        exact hn (by simp)
      · intro x hx
        refine hread (.inr x) (fun heq => hcells x (by simp [hx]) heq.symm) ?_
        rintro ⟨⟩
        exact hn (List.mem_cons_of_mem a hx)
      · intro x hx
        refine hpprev x ?_ ?_
        · rintro rfl
          exact hn (List.mem_cons_of_mem a hx)
        · rw [hnext]
          rintro heq
          exact ha (by simpa [Option.some.inj heq] using hx)
  | cons a l ih =>
    obtain ⟨hc, hp, hrest⟩ := h
    obtain ⟨ha, hnodup'⟩ := List.nodup_cons.mp hnodup
    have hcell : c ≠ cellAfter (.inr a) l := by
      rcases cellAfter_cases (H := H) (.inr a) l with heq | ⟨x, hx, heq⟩
      · rw [heq]
        exact hcells a (by simp)
      · rw [heq]
        exact hcells x (by simp [hx])
    refine ⟨(hread c hcell (hcells n (by simp))).trans hc, (hpprev a ?_ ?_).trans hp, ?_⟩
    · rintro rfl
      exact ha (by simp)
    · rw [hnext]
      intro heq
      exact ha (List.mem_append_right l (List.mem_cons_of_mem n (List.mem_of_mem_head? heq)))
    · exact ih hrest hnodup' (fun x hx heq => ha (by simpa [Sum.inr.inj heq] using hx))
        hwrite hback hread

/-- The heads in `S` start pairwise disjoint chains `f`, and exactly the nodes of
these chains are linked. -/
structure Cells.Chains (m : Cells H N) (S : H → Prop) (f : H → List N) : Prop where
  chain : ∀ h, S h → m.Chain (.inl h) (f h)
  nodup : ∀ h, S h → (f h).Nodup
  disjoint : ∀ h g, S h → S g → h ≠ g → ∀ n ∈ f h, n ∉ f g
  linked : ∀ n, (m.pprev n).isSome = true ↔ ∃ h, S h ∧ n ∈ f h

theorem Cells.Chains.congr {m : Cells H N} {S : H → Prop} {f g : H → List N}
    (h : m.Chains S f) (hfg : ∀ c, S c → f c = g c) : m.Chains S g where
  chain c hc := hfg c hc ▸ h.chain c hc
  nodup c hc := hfg c hc ▸ h.nodup c hc
  disjoint c d hc hd hne := by
    rw [← hfg c hc, ← hfg d hd]
    exact h.disjoint c d hc hd hne
  linked n := by
    rw [h.linked]
    constructor
    · rintro ⟨c, hc, hn⟩
      exact ⟨c, hc, hfg c hc ▸ hn⟩
    · rintro ⟨c, hc, hn⟩
      exact ⟨c, hc, (hfg c hc).symm ▸ hn⟩

/-- Heads of empty chains may be dropped or added. -/
theorem Cells.Chains.restrict {m : Cells H N} {S T : H → Prop} {f : H → List N}
    (h : m.Chains S f) (hsub : ∀ c, T c → S c) (hempty : ∀ c, S c → ¬ T c → f c = []) :
    m.Chains T f where
  chain c hc := h.chain c (hsub c hc)
  nodup c hc := h.nodup c (hsub c hc)
  disjoint c d hc hd := h.disjoint c d (hsub c hc) (hsub d hd)
  linked n := by
    rw [h.linked]
    constructor
    · rintro ⟨c, hc, hn⟩
      by_cases hT : T c
      · exact ⟨c, hT, hn⟩
      · rw [hempty c hc hT] at hn
        cases hn
    · rintro ⟨c, hc, hn⟩
      exact ⟨c, hsub c hc, hn⟩

end intrusive
