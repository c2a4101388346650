import Koala.Intrusive.Ring
import Koala.Intrusive.Chain
import Mathlib.Tactic.Common

set_option linter.style.nameCheck false

open intrusive

namespace koala.list

section ring

variable {A : Type} [DecidableEq A]

def init_list_head (m : Links A) (list : A) : Links A where
  next := Function.update m.next list list
  prev := Function.update m.prev list list

/-- The four stores of the C function, in their order. -/
def __list_add (m : Links A) (entry prev next : A) : Links A :=
  let m := { m with next := Function.update m.next entry next }
  let m := { m with prev := Function.update m.prev entry prev }
  let m := { m with next := Function.update m.next prev entry }
  { m with prev := Function.update m.prev next entry }

def list_add_tail (m : Links A) (entry head : A) : Links A :=
  __list_add m entry (m.prev head) head

def __list_del (m : Links A) (prev next : A) : Links A :=
  let m := { m with prev := Function.update m.prev next prev }
  { m with next := Function.update m.next prev next }

def list_del (m : Links A) (entry : A) : Links A :=
  init_list_head (__list_del m (m.prev entry) (m.next entry)) entry

theorem init_list_head_ring (m : Links A) (head : A) : (init_list_head m head).Ring head [] :=
  Links.ring_nil (by simp [init_list_head]) (by simp [init_list_head])

/-- A cell of a ring keeps its links when another one is set up. -/
theorem init_list_head_ring_other {m : Links A} {head list : A} {l : List A}
    (h : m.Ring head l) (hnot : list ∉ head :: l) : (init_list_head m list).Ring head l := by
  refine h.frame ?_ ?_
  · intro a ha
    have hne : a ≠ list := fun heq => hnot (heq ▸ ha)
    simp [init_list_head, Function.update_of_ne hne]
  · intro a ha
    have hne : a ≠ list := fun heq => hnot (heq ▸ ha)
    simp [init_list_head, Function.update_of_ne hne]

/-- `list_add_tail` appends a fresh entry to the ring. -/
theorem list_add_tail_ring {m : Links A} {head entry : A} {l : List A} (h : m.Ring head l)
    (hfresh : entry ∉ head :: l) : (list_add_tail m entry head).Ring head (l ++ [entry]) := by
  have hlast : m.prev head ∈ head :: l := h.seg.prev_end ▸ lastCell_mem head l
  have hne : entry ≠ m.prev head := fun heq => hfresh (heq ▸ hlast)
  have hhead : entry ≠ head := fun heq => hfresh (by simp [heq])
  refine h.insert_last hfresh ?_ ?_ ?_ ?_ ?_ ?_
  · simp [list_add_tail, __list_add, Function.update_of_ne hne]
  · simp [list_add_tail, __list_add, Function.update_of_ne hhead]
  · simp [list_add_tail, __list_add]
  · simp [list_add_tail, __list_add]
  · intro a ha hprev
    simp [list_add_tail, __list_add, Function.update_of_ne hprev, Function.update_of_ne ha]
  · intro a ha hnext
    simp [list_add_tail, __list_add, Function.update_of_ne hnext, Function.update_of_ne ha]

/-- `list_del` unlinks a member and leaves every other member in its place. -/
theorem list_del_ring {m : Links A} {head entry : A} {l r : List A}
    (h : m.Ring head (l ++ entry :: r)) : (list_del m entry).Ring head (l ++ r) := by
  have hseg := (m.seg_append head entry head l r).mp h.seg
  have hnot : entry ∉ head :: (l ++ r) := by
    have hnodup := h.nodup
    rw [List.nodup_cons, List.nodup_middle, List.nodup_cons] at hnodup
    intro hmem
    rcases List.mem_cons.mp hmem with rfl | hmem
    · exact hnodup.1 (by simp)
    · exact hnodup.2.1 hmem
  have hprev : m.prev entry ≠ entry := by
    rw [hseg.1.prev_end]
    intro heq
    have hmem := lastCell_mem head l
    rw [heq] at hmem
    exact hnot (by simpa [or_assoc] using Or.imp_right Or.inl (List.mem_cons.mp hmem))
  have hnext : m.next entry ≠ entry := by
    rw [hseg.2.next_start]
    intro heq
    have hmem := firstCell_mem r head
    rw [heq] at hmem
    simp only [List.mem_append, List.mem_cons] at hmem hnot
    tauto
  refine h.remove ?_ ?_ ?_ ?_
  · simp [list_del, init_list_head, __list_del, Function.update_of_ne hprev]
  · simp [list_del, init_list_head, __list_del, Function.update_of_ne hnext]
  · intro a ha hne
    simp [list_del, init_list_head, __list_del, Function.update_of_ne ha,
      Function.update_of_ne hne]
  · intro a ha hne
    simp [list_del, init_list_head, __list_del, Function.update_of_ne ha,
      Function.update_of_ne hne]

/-- A cell of another ring keeps its links when an entry is linked. -/
theorem list_add_tail_ring_other {m : Links A} {head head' entry : A} {l l' : List A}
    (h : m.Ring head l) (h' : m.Ring head' l') (hfresh : entry ∉ head' :: l')
    (hdisjoint : ∀ a ∈ head :: l, a ∉ head' :: l') :
    (list_add_tail m entry head).Ring head' l' := by
  have hlast : m.prev head ∈ head :: l := h.seg.prev_end ▸ lastCell_mem head l
  refine h'.frame ?_ ?_
  · intro a ha
    have hentry : a ≠ entry := fun heq => hfresh (heq ▸ ha)
    have hprev : a ≠ m.prev head := fun heq => hdisjoint _ hlast (heq ▸ ha)
    simp [list_add_tail, __list_add, Function.update_of_ne hentry, Function.update_of_ne hprev]
  · intro a ha
    have hentry : a ≠ entry := fun heq => hfresh (heq ▸ ha)
    have hhead : a ≠ head := fun heq => hdisjoint head List.mem_cons_self (heq ▸ ha)
    simp [list_add_tail, __list_add, Function.update_of_ne hentry, Function.update_of_ne hhead]

/-- A cell of another ring keeps its links when a member is unlinked. -/
theorem list_del_ring_other {m : Links A} {head head' entry : A} {l l' : List A}
    (h : m.Ring head l) (h' : m.Ring head' l') (hentry : entry ∈ l)
    (hdisjoint : ∀ a ∈ head :: l, a ∉ head' :: l') : (list_del m entry).Ring head' l' := by
  have hmem : entry ∈ head :: l := List.mem_cons_of_mem head hentry
  have hprev : m.prev entry ∈ head :: l := h.seg.prev_mem entry hentry
  have hnext : m.next entry ∈ head :: l := by
    simpa [or_comm] using h.seg.next_mem entry hmem
  refine h'.frame ?_ ?_
  · intro a ha
    have hne : a ≠ entry := fun heq => hdisjoint _ hmem (heq ▸ ha)
    have hneprev : a ≠ m.prev entry := fun heq => hdisjoint _ hprev (heq ▸ ha)
    simp [list_del, init_list_head, __list_del, Function.update_of_ne hne,
      Function.update_of_ne hneprev]
  · intro a ha
    have hne : a ≠ entry := fun heq => hdisjoint _ hmem (heq ▸ ha)
    have hnenext : a ≠ m.next entry := fun heq => hdisjoint _ hnext (heq ▸ ha)
    simp [list_del, init_list_head, __list_del, Function.update_of_ne hne,
      Function.update_of_ne hnenext]

end ring

section hlist

variable {H N : Type} [DecidableEq H] [DecidableEq N]

/-- The store `*c = v` through a pointer to a chain cell. -/
def store (m : Cells H N) (c : H ⊕ N) (v : Option N) : Cells H N :=
  match c with
  | .inl h => { m with first := Function.update m.first h v }
  | .inr n => { m with next := Function.update m.next n v }

def init_hlist_node (m : Cells H N) (n : N) : Cells H N :=
  { m with next := Function.update m.next n none, pprev := Function.update m.pprev n none }

def hlist_unhashed (m : Cells H N) (n : N) : Bool := (m.pprev n).isNone

def hlist_del (m : Cells H N) (n : N) : Cells H N :=
  match m.pprev n with
  | none => m
  | some pprev =>
    let next := m.next n
    let m := store m pprev next
    let m := match next with
      | none => m
      | some x => { m with pprev := Function.update m.pprev x (some pprev) }
    init_hlist_node m n

def hlist_add (m : Cells H N) (n : N) (h : H) : Cells H N :=
  let first := m.first h
  let m := { m with next := Function.update m.next n first }
  let m := match first with
    | none => m
    | some x => { m with pprev := Function.update m.pprev x (some (.inr n)) }
  let m := { m with first := Function.update m.first h (some n) }
  { m with pprev := Function.update m.pprev n (some (.inl h)) }

@[simp] theorem store_read_self (m : Cells H N) (c : H ⊕ N) (v : Option N) :
    (store m c v).read c = v := by
  cases c <;> simp [store, Cells.read]

theorem store_read_of_ne (m : Cells H N) {c q : H ⊕ N} (v : Option N) (hne : q ≠ c) :
    (store m c v).read q = m.read q := by
  cases c <;> cases q <;> simp_all [store, Cells.read]

@[simp] theorem store_pprev (m : Cells H N) (c : H ⊕ N) (v : Option N) (n : N) :
    (store m c v).pprev n = m.pprev n := by
  cases c <;> rfl

omit [DecidableEq H] in
@[simp] theorem init_hlist_node_pprev (m : Cells H N) (n : N) :
    (init_hlist_node m n).pprev n = none := by simp [init_hlist_node]

/-- The cells and back pointers an unlinking leaves alone. -/
theorem hlist_del_read (m : Cells H N) {n : N} {p q : H ⊕ N} (hp : m.pprev n = some p)
    (hn : q ≠ .inr n) : (hlist_del m n).read q = if q = p then m.next n else m.read q := by
  have hinit : ∀ m' : Cells H N, (init_hlist_node m' n).read q = m'.read q := by
    intro m'
    cases q with
    | inl h => rfl
    | inr x =>
      have hx : x ≠ n := fun heq => hn (by rw [heq])
      simp [init_hlist_node, Function.update_of_ne hx]
  have hstore : (store m p (m.next n)).read q = if q = p then m.next n else m.read q := by
    split
    · next heq => rw [heq, store_read_self]
    · next hne => exact store_read_of_ne m _ hne
  cases hnext : m.next n with
  | none =>
    rw [hnext] at hstore
    simp only [hlist_del, hp, hnext, hinit, hstore]
  | some x =>
    rw [hnext] at hstore
    simp only [hlist_del, hp, hnext, hinit]
    rw [← hstore]
    cases q <;> rfl

theorem hlist_del_pprev_self (m : Cells H N) {n : N} {p : H ⊕ N} (hp : m.pprev n = some p) :
    (hlist_del m n).pprev n = none := by
  simp only [hlist_del, hp, init_hlist_node_pprev]

theorem hlist_del_pprev (m : Cells H N) {n x : N} {p : H ⊕ N} (hp : m.pprev n = some p)
    (hx : x ≠ n) :
    (hlist_del m n).pprev x = if m.next n = some x then some p else m.pprev x := by
  cases hnext : m.next n with
  | none => simp [hlist_del, hp, hnext, init_hlist_node, Function.update_of_ne hx]
  | some y =>
    by_cases hxy : x = y
    · subst hxy
      simp [hlist_del, hp, hnext, init_hlist_node, Function.update_of_ne hx]
    · simp [hlist_del, hp, hnext, init_hlist_node, Function.update_of_ne hx,
        Function.update_of_ne hxy, Ne.symm hxy]

/-- `hlist_del` unlinks a node from its chain. -/
theorem hlist_del_chain {m : Cells H N} {h : H} {l r : List N} {n : N}
    (hchain : m.Chain (.inl h) (l ++ n :: r)) (hnodup : (l ++ n :: r).Nodup) :
    (hlist_del m n).Chain (.inl h) (l ++ r) := by
  have hp := hchain.pprev_eq
  have hcell : cellAfter (.inl h) l ≠ .inr n := by
    rcases cellAfter_cases (H := H) (.inl h) l with heq | ⟨x, hx, heq⟩ <;> rw [heq]
    · simp
    · rintro ⟨⟩
      exact (List.disjoint_of_nodup_append hnodup) hx (by simp)
  refine hchain.remove hnodup (by simp) ?_ ?_ ?_ ?_
  · rw [hlist_del_read m hp hcell, if_pos rfl]
  · intro x hx
    have hxn : x ≠ n := by
      rintro rfl
      rw [hchain.next_eq] at hx
      have hmem := List.mem_of_mem_head? hx
      exact (List.nodup_cons.mp (List.nodup_append.mp hnodup).2.1).1 hmem
    rw [hlist_del_pprev m hp hxn, if_pos hx]
  · intro q hq hqn
    rw [hlist_del_read m hp hqn, if_neg hq]
  · intro x hxn hx
    rw [hlist_del_pprev m hp hxn, if_neg hx]

theorem hlist_add_read (m : Cells H N) {n : N} {h : H} {q : H ⊕ N} (hn : q ≠ .inr n) :
    (hlist_add m n h).read q = if q = .inl h then some n else m.read q := by
  cases hfirst : m.first h <;> cases q with
  | inl g => simp [hlist_add, hfirst, Cells.read, Function.update_apply]
  | inr x =>
    have hx : x ≠ n := fun heq => hn (by rw [heq])
    simp [hlist_add, hfirst, Cells.read, Function.update_of_ne hx]

theorem hlist_add_next (m : Cells H N) (n : N) (h : H) :
    (hlist_add m n h).next n = m.first h := by
  cases hfirst : m.first h <;> simp [hlist_add, hfirst]

theorem hlist_add_pprev_self (m : Cells H N) (n : N) (h : H) :
    (hlist_add m n h).pprev n = some (.inl h) := by
  cases hfirst : m.first h <;> simp [hlist_add, hfirst]

theorem hlist_add_pprev (m : Cells H N) {n x : N} {h : H} (hx : x ≠ n) :
    (hlist_add m n h).pprev x = if m.first h = some x then some (.inr n) else m.pprev x := by
  cases hfirst : m.first h with
  | none => simp [hlist_add, hfirst, Function.update_of_ne hx]
  | some y => simp [hlist_add, hfirst, Function.update_of_ne hx, Function.update_apply, eq_comm]

/-- `hlist_add` puts a fresh node in front of a chain. -/
theorem hlist_add_chain {m : Cells H N} {h : H} {l : List N} {n : N}
    (hchain : m.Chain (.inl h) l) (hfresh : n ∉ l) (hnodup : l.Nodup) :
    (hlist_add m n h).Chain (.inl h) (n :: l) := by
  have hfirstNe : ∀ x, m.first h = some x → x ≠ n := by
    rintro x hx rfl
    have hread := hchain.read_eq
    rw [Cells.read_inl, hx] at hread
    exact hfresh (List.mem_of_mem_head? hread.symm)
  refine hchain.push hfresh hnodup (by simp) ?_ (hlist_add_pprev_self m n h)
    (hlist_add_next m n h) ?_ ?_ ?_
  · rw [hlist_add_read m (by simp), if_pos rfl]
  · intro x hx
    rw [Cells.read_inl] at hx
    rw [hlist_add_pprev m (hfirstNe x hx), if_pos hx]
  · intro x hx
    have hxn : x ≠ n := fun heq => hfresh (heq ▸ hx)
    have hread := hlist_add_read m (h := h) (q := .inr x) (n := n) (by simpa using hxn)
    simpa using hread
  · intro x hxn hx
    rw [Cells.read_inl] at hx
    rw [hlist_add_pprev m hxn, if_neg hx]

/-- Linking a node that no chain holds keeps all other chains. -/
theorem hlist_add_chains {m : Cells H N} {S : H → Prop} {f : H → List N}
    (hm : m.Chains S f) {n : N} {h : H} (hS : S h) (hfresh : ∀ g, S g → n ∉ f g) :
    (hlist_add m n h).Chains S (Function.update f h (n :: f h)) := by
  have hfirst : ∀ x, m.first h = some x → x ∈ f h := by
    intro x hx
    have hread := (hm.chain h hS).read_eq
    rw [Cells.read_inl, hx] at hread
    exact List.mem_of_mem_head? hread.symm
  refine ⟨?_, ?_, ?_, ?_⟩
  · intro g hg
    by_cases hgh : g = h
    · subst hgh
      rw [Function.update_self]
      exact hlist_add_chain (hm.chain g hg) (hfresh g hg) (hm.nodup g hg)
    · rw [Function.update_of_ne hgh]
      refine (hm.chain g hg).frame ?_ ?_ ?_
      · rw [hlist_add_read m (by simp), if_neg (by simpa using hgh)]
      · intro x hx
        have hxn : x ≠ n := fun heq => hfresh g hg (heq ▸ hx)
        have hread := hlist_add_read m (h := h) (q := .inr x) (n := n) (by simpa using hxn)
        simpa using hread
      · intro x hx
        have hxn : x ≠ n := fun heq => hfresh g hg (heq ▸ hx)
        rw [hlist_add_pprev m hxn, if_neg]
        exact fun heq => hm.disjoint g h hg hS hgh x hx (hfirst x heq)
  · intro g hg
    by_cases hgh : g = h
    · subst hgh
      rw [Function.update_self]
      exact List.nodup_cons.mpr ⟨hfresh g hg, hm.nodup g hg⟩
    · rw [Function.update_of_ne hgh]
      exact hm.nodup g hg
  · intro g k hg hk hne x hx hx'
    by_cases hgh : g = h <;> by_cases hkh : k = h
    · exact hne (hgh.trans hkh.symm)
    · subst hgh
      rw [Function.update_self] at hx
      rw [Function.update_of_ne hkh] at hx'
      rcases List.mem_cons.mp hx with rfl | hx
      · exact hfresh k hk hx'
      · exact hm.disjoint g k hg hk hne x hx hx'
    · subst hkh
      rw [Function.update_of_ne hgh] at hx
      rw [Function.update_self] at hx'
      rcases List.mem_cons.mp hx' with rfl | hx'
      · exact hfresh g hg hx
      · exact hm.disjoint g k hg hk hne x hx hx'
    · rw [Function.update_of_ne hgh] at hx
      rw [Function.update_of_ne hkh] at hx'
      exact hm.disjoint g k hg hk hne x hx hx'
  · intro x
    have hmem : (∃ g, S g ∧ x ∈ Function.update f h (n :: f h) g) ↔
        x = n ∨ ∃ g, S g ∧ x ∈ f g := by
      constructor
      · rintro ⟨g, hg, hx⟩
        by_cases hgh : g = h
        · subst hgh
          rw [Function.update_self] at hx
          exact (List.mem_cons.mp hx).imp_right fun hx => ⟨g, hg, hx⟩
        · rw [Function.update_of_ne hgh] at hx
          exact Or.inr ⟨g, hg, hx⟩
      · rintro (rfl | ⟨g, hg, hx⟩)
        · exact ⟨h, hS, by simp⟩
        · by_cases hgh : g = h
          · subst hgh
            exact ⟨g, hg, by simp [hx]⟩
          · exact ⟨g, hg, by rwa [Function.update_of_ne hgh]⟩
    rw [hmem]
    by_cases hxn : x = n
    · subst hxn
      simp [hlist_add_pprev_self]
    · rw [hlist_add_pprev m hxn, ← hm.linked]
      split
      · next heq =>
        have hlinked := (hm.linked x).mpr ⟨h, hS, hfirst x heq⟩
        simp [hlinked]
      · simp [hxn]

/-- Unlinking a node of one chain keeps all other chains. -/
theorem hlist_del_chains {m : Cells H N} {S : H → Prop} {f : H → List N}
    (hm : m.Chains S f) {n : N} {h : H} {l r : List N} (hS : S h) (hf : f h = l ++ n :: r) :
    (hlist_del m n).Chains S (Function.update f h (l ++ r)) := by
  have hchain := hm.chain h hS
  have hnodup := hm.nodup h hS
  rw [hf] at hchain hnodup
  have hp := hchain.pprev_eq
  have hnmem : n ∈ f h := by simp [hf]
  have hnot : n ∉ l ++ r := (List.nodup_middle.mp hnodup |> List.nodup_cons.mp).1
  have hsub : ∀ x ∈ l ++ r, x ∈ f h := by
    intro x hx
    rw [hf]
    exact List.mem_append.mpr ((List.mem_append.mp hx).imp_right (List.mem_cons_of_mem n))
  have hnext : ∀ x, m.next n = some x → x ∈ f h := by
    intro x hx
    rw [hchain.next_eq] at hx
    exact hsub x (List.mem_append_right l (List.mem_of_mem_head? hx))
  refine ⟨?_, ?_, ?_, ?_⟩
  · intro g hg
    by_cases hgh : g = h
    · subst hgh
      rw [Function.update_self]
      exact hlist_del_chain hchain hnodup
    · rw [Function.update_of_ne hgh]
      have hother : ∀ x ∈ f g, x ∉ f h := hm.disjoint g h hg hS hgh
      have hcell : ∀ q : H ⊕ N, (q = .inl g ∨ ∃ x ∈ f g, q = .inr x) →
          (hlist_del m n).read q = m.read q := by
        intro q hq
        have hqn : q ≠ .inr n := by
          rcases hq with rfl | ⟨x, hx, rfl⟩
          · simp
          · rintro ⟨⟩
            exact hother n hx hnmem
        rw [hlist_del_read m hp hqn, if_neg]
        intro heq
        rcases cellAfter_cases (H := H) (.inl h) l with hc | ⟨y, hy, hc⟩ <;> rw [hc] at heq <;>
          rcases hq with rfl | ⟨x, hx, rfl⟩
        · exact hgh (Sum.inl.inj heq)
        · cases heq
        · cases heq
        · cases heq
          exact hother y hx (hsub y (List.mem_append_left r hy))
      refine (hm.chain g hg).frame (hcell _ (Or.inl rfl))
        (fun x hx => hcell (.inr x) (Or.inr ⟨x, hx, rfl⟩)) ?_
      intro x hx
      have hxn : x ≠ n := fun heq => hother x hx (heq ▸ hnmem)
      rw [hlist_del_pprev m hp hxn, if_neg]
      exact fun heq => hother x hx (hnext x heq)
  · intro g hg
    by_cases hgh : g = h
    · subst hgh
      rw [Function.update_self]
      exact (List.nodup_cons.mp (List.nodup_middle.mp hnodup)).2
    · rw [Function.update_of_ne hgh]
      exact hm.nodup g hg
  · have hle : ∀ g, ∀ x ∈ Function.update f h (l ++ r) g, x ∈ f g := by
      intro g x hx
      by_cases hgh : g = h
      · subst hgh
        rw [Function.update_self] at hx
        exact hsub x hx
      · rwa [Function.update_of_ne hgh] at hx
    exact fun g k hg hk hne x hx hx' =>
      hm.disjoint g k hg hk hne x (hle g x hx) (hle k x hx')
  · intro x
    by_cases hxn : x = n
    · subst hxn
      rw [hlist_del_pprev_self m hp]
      simp only [Option.isSome_none, Bool.false_eq_true, false_iff]
      rintro ⟨g, hg, hx⟩
      by_cases hgh : g = h
      · subst hgh
        rw [Function.update_self] at hx
        exact hnot hx
      · rw [Function.update_of_ne hgh] at hx
        exact hm.disjoint g h hg hS hgh x hx hnmem
    · have hkeep : ((hlist_del m n).pprev x).isSome = (m.pprev x).isSome := by
        rw [hlist_del_pprev m hp hxn]
        split
        · next heq =>
          have hlinked := (hm.linked x).mpr ⟨h, hS, hnext x heq⟩
          simp [hlinked]
        · rfl
      rw [hkeep, hm.linked]
      constructor
      · rintro ⟨g, hg, hx⟩
        refine ⟨g, hg, ?_⟩
        by_cases hgh : g = h
        · subst hgh
          rw [Function.update_self]
          rw [hf] at hx
          simpa [hxn] using hx
        · rwa [Function.update_of_ne hgh]
      · rintro ⟨g, hg, hx⟩
        refine ⟨g, hg, ?_⟩
        by_cases hgh : g = h
        · subst hgh
          rw [Function.update_self] at hx
          exact hsub x hx
        · rwa [Function.update_of_ne hgh] at hx

end hlist

end koala.list
