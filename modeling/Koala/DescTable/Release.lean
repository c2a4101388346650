import Koala.DescTable.Model
import Koala.Refcount

open koala.hashtable koala.typedesc refcount

namespace koala.desctable

set_option linter.style.nameCheck false

/-- The descriptors that a descriptor holds references to. -/
def Body.parts : Body → List Addr
  | .base _ => []
  | .klass _ _ => []
  | .proto arg ret => arg.getD [] ++ ret.getD []
  | .array _ item => [item]
  | .map key val => [key, val]
  | .set item => [item]
  | .varg item => [item]

def Desc.cell (d : Desc) : Cell := ⟨d.refcnt, d.body.parts⟩

def Memory.cells (m : Memory) : Heap := m.heap.map (Option.map Desc.cell)

def Memory.Holds (m : Memory) (a : Addr) (d : Desc) : Prop := m.heap[a]? = some (some d)

theorem Memory.Holds.cell {m : Memory} {a : Addr} {d : Desc} (h : m.Holds a d) :
    m.cells[a]? = some (some d.cell) := by
  rw [cells, List.getElem?_map, show m.heap[a]? = _ from h]
  rfl

theorem Memory.exists_holds {m : Memory} {a : Addr} {c : Cell} (h : m.cells[a]? = some (some c)) :
    ∃ d, m.Holds a d ∧ d.cell = c := by
  rw [cells, List.getElem?_map, Option.map_eq_some_iff] at h
  obtain ⟨x, hx, hc⟩ := h
  obtain ⟨d, rfl, hd⟩ := Option.map_eq_some_iff.mp hc
  exact ⟨d, hx, hd⟩

theorem State.read_eq {s : State} {a : Addr} {d : Desc} (h : s.Holds a d) : s.read a = .ok d := by
  rw [State.read, show s.heap[a]? = _ from h]

theorem State.write_holds_self {s : State} {a : Addr} {d : Desc} (h : s.Holds a d) (d' : Desc) :
    (s.write a d').Holds a d' :=
  List.getElem?_set_self (List.getElem?_eq_some_iff.mp h).1

theorem State.write_heap_of_ne (s : State) {a b : Addr} (d : Desc) (hne : b ≠ a) :
    (s.write a d).heap[b]? = s.heap[b]? := List.getElem?_set_ne (Ne.symm hne)

/-- The counters are right; the base descriptors come first; freed is what is
no longer there, and nothing is freed twice. -/
structure Memory.Owned (m : Memory) (outside : List Addr) : Prop where
  balanced : Balanced outside m.cells
  base : ∀ {a d}, m.Holds a d → (d.body.kind = .TYPE_BASE ↔ a < basic_types.length)
  freed : m.freed.Nodup
  mem_freed : ∀ a, a ∈ m.freed ↔ m.heap[a]? = some none

namespace Memory.Owned

variable {m : Memory} {outside : List Addr} {a : Addr}

theorem perm (h : m.Owned outside) {outside' : List Addr} (hperm : outside.Perm outside') :
    m.Owned outside' where
  balanced := h.balanced.perm hperm
  base := h.base
  freed := h.freed
  mem_freed := h.mem_freed

theorem holds (h : m.Owned outside) (ha : a ∈ outside) : ∃ d, m.Holds a d ∧ 0 < d.refcnt := by
  obtain ⟨c, hc⟩ := h.balanced.alive a (List.mem_append_left _ ha)
  obtain ⟨d, hd, rfl⟩ := exists_holds hc
  exact ⟨d, hd, h.balanced.count_pos hc (List.mem_append_left _ ha)⟩

theorem one_lt_refcnt {d : Desc} (h : m.Owned (a :: outside)) (hd : m.Holds a d)
    (ha : a ∈ outside) : 1 < d.refcnt := by
  have hcounted := h.balanced.counted hd.cell
  have hpos := List.count_pos_iff.mpr ha
  rw [List.count_cons_self] at hcounted
  rw [show d.refcnt = _ from hcounted]
  omega

/-- A counter changes, and the references from outside with it. -/
theorem write {s : State} {d : Desc} (h : s.Owned outside) (hd : s.Holds a d)
    {n : Nat} {outside' : List Addr}
    (hbalanced : Balanced outside' (s.cells.set a (some ⟨n, d.body.parts⟩))) :
    (s.write a { d with refcnt := n }).Owned outside' where
  balanced := by
    rw [cells, State.write, List.map_set]
    exact hbalanced
  base {b d'} hd' := by
    by_cases heq : b = a
    · subst heq
      rw [Memory.Holds, State.write_holds_self hd] at hd'
      cases hd'
      exact h.base (d := d) hd
    · rw [Memory.Holds, State.write_heap_of_ne s _ heq] at hd'
      exact h.base hd'
  freed := h.freed
  mem_freed b := by
    by_cases heq : b = a
    · subst heq
      rw [State.write_holds_self hd]
      refine iff_of_false (fun hmem => ?_) (fun hnone => nomatch hnone)
      have hnone := (h.mem_freed b).mp hmem
      rw [show s.heap[b]? = _ from hd] at hnone
      cases hnone
    · rw [State.write_heap_of_ne s _ heq]
      exact h.mem_freed b

end Memory.Owned

/-- What a release leaves: the descriptors it has not freed, of which none has
lost its last reference but those that had before. -/
structure Settles (m m' : Memory) : Prop where
  length : m'.heap.length = m.heap.length
  desc : ∀ {a d'}, m'.Holds a d' →
    ∃ d, m.Holds a d ∧ d.body = d'.body ∧ d.desc = d'.desc ∧ (d'.refcnt = 0 → d.refcnt = 0)
  dying : ∀ {a d}, m.Holds a d → d.refcnt = 0 → m'.Holds a d

namespace Settles

theorem refl (m : Memory) : Settles m m where
  length := rfl
  desc h := ⟨_, h, rfl, rfl, id⟩
  dying h _ := h

theorem trans {m m₁ m₂ : Memory} (h : Settles m m₁) (h' : Settles m₁ m₂) : Settles m m₂ where
  length := h'.length.trans h.length
  desc h₂ := by
    obtain ⟨d₁, h₁, hbody₁, hdesc₁, hzero₁⟩ := h'.desc h₂
    obtain ⟨d, h₀, hbody, hdesc, hzero⟩ := h.desc h₁
    exact ⟨d, h₀, hbody.trans hbody₁, hdesc.trans hdesc₁, fun hz => hzero (hzero₁ hz)⟩
  dying h₀ hzero := h'.dying (h.dying h₀ hzero) hzero

theorem write {s : State} {a : Addr} {d : Desc} (hd : s.Holds a d) {n : Nat}
    (hpos : 0 < d.refcnt) (hn : 0 < n) :
    Settles s.toMemory (s.write a { d with refcnt := n }).toMemory where
  length := List.length_set
  desc {b d'} hd' := by
    by_cases heq : b = a
    · subst heq
      rw [Memory.Holds, State.write_holds_self hd] at hd'
      cases hd'
      exact ⟨d, hd, rfl, rfl, fun hzero => absurd hzero (by dsimp only; omega)⟩
    · rw [Memory.Holds, State.write_heap_of_ne s _ heq] at hd'
      exact ⟨d', hd', rfl, rfl, id⟩
  dying {b d'} hd' hzero := by
    have hne : b ≠ a := by
      rintro rfl
      cases hd.symm.trans hd'
      omega
    rw [Memory.Holds, State.write_heap_of_ne s _ hne]
    exact hd'

/-- A descriptor that is freed after its references is gone. -/
theorem freed {s : State} {a : Addr} {d : Desc} (hd : s.Holds a d) (hpos : 0 < d.refcnt)
    {m m' : Memory} (h : Settles (s.write a { d with refcnt := 0 }).toMemory m)
    (hheap : m'.heap = m.heap.set a none) : Settles s.toMemory m' where
  length := by
    rw [hheap, List.length_set, h.length]
    exact List.length_set
  desc {b d'} hd' := by
    have hlt : a < m.heap.length := by
      rw [h.length, State.write, List.length_set]
      exact (List.getElem?_eq_some_iff.mp hd).1
    have hne : b ≠ a := by
      rintro rfl
      rw [Memory.Holds, hheap, List.getElem?_set_self hlt] at hd'
      cases hd'
    rw [Memory.Holds, hheap, List.getElem?_set_ne (Ne.symm hne)] at hd'
    obtain ⟨d₁, hd₁, hrest⟩ := h.desc hd'
    rw [Memory.Holds, State.write_heap_of_ne s _ hne] at hd₁
    exact ⟨d₁, hd₁, hrest⟩
  dying {b d'} hd' hzero := by
    have hne : b ≠ a := by
      rintro rfl
      cases hd.symm.trans hd'
      omega
    have hd₁ : (s.write a { d with refcnt := 0 }).Holds b d' := by
      rw [Memory.Holds, State.write_heap_of_ne s _ hne]
      exact hd'
    rw [Memory.Holds, hheap, List.getElem?_set_ne (Ne.symm hne)]
    exact h.dying hd₁ hzero

end Settles

/-- The nodes that are linked belong to descriptors with a reference from
outside, which is that of the table. -/
def Rooted (t : HashTable DescNode) (outside : List Addr) : Prop :=
  ∃ l, Linked DescNode.desc hash_string desc_equal t l ∧ l.length ≤ t.nr_nodes ∧
    ∀ hnode ∈ l, hnode.addr ∈ outside

theorem Rooted.mono {t : HashTable DescNode} {outside outside' : List Addr}
    (h : Rooted t outside) (hsub : outside ⊆ outside') : Rooted t outside' := by
  obtain ⟨l, hlinked, hroom, hout⟩ := h
  exact ⟨l, hlinked, hroom, fun hnode hmem => hsub (hout hnode hmem)⟩

theorem forM_read {s : State} {nodes : List DescNode}
    (h : ∀ hnode ∈ nodes, ∃ d, s.Holds hnode.addr d) :
    (nodes.forM fun hnode => do
      let _ ← s.read hnode.addr
      (.ok () : Res Unit)) = .ok () := by
  induction nodes with
  | nil => rfl
  | cons hnode nodes ih =>
    obtain ⟨d, hd⟩ := h hnode List.mem_cons_self
    rw [List.forM, State.read_eq hd, ok_bind, ok_bind]
    exact ih fun n hn => h n (List.mem_cons_of_mem hnode hn)

theorem Rooted.touch {s : State} {outside : List Addr} (h : Rooted s.descTable outside)
    (howned : s.Owned outside) : touch_linked s = .ok () := by
  obtain ⟨l, hlinked, hroom, hout⟩ := h
  rw [touch_linked, hlinked.visit hroom]
  refine forM_read fun hnode hmem => ?_
  obtain ⟨d, hd, _⟩ := howned.holds (hout hnode hmem)
  exact ⟨d, hd⟩

/-- A descriptor without a reference from outside is not linked. -/
theorem Rooted.remove {s : State} {outside : List Addr} (h : Rooted s.descTable outside)
    (howned : s.Owned outside) {hnode : DescNode} (hnot : hnode.addr ∉ outside) :
    remove s hnode = .ok s.descTable := by
  have htouch := h.touch howned
  obtain ⟨l, hlinked, _, hout⟩ := h
  have hunhashed := (hlinked.unhashed_iff hnode).mpr fun hmem => hnot (hout hnode hmem)
  rw [desctable.remove, htouch, ok_bind, HashTable_Remove, if_pos hunhashed]

/-- The macro `TYPE_DECREF` does its work: a reference to a descriptor is given up. -/
def Releases (decref : State → Option Addr → Res State) (s : State) (a : Addr)
    (outside : List Addr) : Prop :=
  ∃ m, decref s (some a) = .ok ⟨m, s.descTable⟩ ∧ m.Owned outside ∧ Settles s.toMemory m

/-- The references of a list are given up one by one. -/
theorem releases_all {decref : State → Option Addr → Res State} {t : HashTable DescNode}
    {outside : List Addr} {vec : List Addr}
    (hdecref : ∀ a ∈ vec, ∀ {m outside'}, outside ⊆ outside' → m.Owned (a :: outside') →
      Releases decref ⟨m, t⟩ a outside') {m : Memory} (h : m.Owned (vec ++ outside)) :
    ∃ m', vec.foldlM (fun s item => decref s (some item)) ⟨m, t⟩ = .ok ⟨m', t⟩ ∧
      m'.Owned outside ∧ Settles m m' := by
  induction vec generalizing m with
  | nil => exact ⟨m, rfl, h, Settles.refl m⟩
  | cons a vec ih =>
    obtain ⟨m₁, hrun, howned, hsettles⟩ :=
      hdecref a List.mem_cons_self (List.subset_append_right vec outside) h
    obtain ⟨m', hrest, howned', hsettles'⟩ :=
      ih (fun b hb => hdecref b (List.mem_cons_of_mem a hb)) howned
    refine ⟨m', ?_, howned', hsettles.trans hsettles'⟩
    rw [List.foldlM_cons, hrun, ok_bind, hrest]

theorem fini_eq (decref : State → Option Addr → Res State) (s : State) {d : Desc}
    (hkind : d.body.kind ≠ .TYPE_BASE) :
    fini decref s d = d.body.parts.foldlM (fun s item => decref s (some item)) s := by
  obtain ⟨body, desc, refcnt⟩ := d
  cases body with
  | base type => exact absurd rfl hkind
  | klass path type => rfl
  | proto arg ret =>
    rw [Body.parts, List.foldlM_append]
    cases arg <;> cases ret <;> rfl
  | map key val =>
    simp only [fini, Body.parts, List.foldlM_cons, List.foldlM_nil, bind_pure]
  | array dims item | set item | varg item =>
    simp only [fini, Body.parts, List.foldlM_cons, List.foldlM_nil, bind_pure]

theorem Mfree_owned {s : State} {outside : List Addr} {a : Addr} {d : Desc} (h : s.Owned outside)
    (hd : s.Holds a d) (hzero : d.refcnt = 0) :
    ∃ m, Mfree s a = .ok ⟨m, s.descTable⟩ ∧ m.Owned outside ∧
      m.heap = s.heap.set a none := by
  have hlt := (List.getElem?_eq_some_iff.mp hd).1
  refine ⟨⟨s.heap.set a none, s.freed ++ [a]⟩, ?_, ⟨?_, ?_, ?_, ?_⟩, rfl⟩
  · rw [Mfree, State.read_eq hd, ok_bind]
  · rw [Memory.cells, List.map_set]
    exact h.balanced.free hd.cell hzero
  · intro b d' hd'
    by_cases heq : b = a
    · rw [Memory.Holds, heq, List.getElem?_set_self hlt] at hd'
      cases hd'
    · rw [Memory.Holds, List.getElem?_set_ne (Ne.symm heq)] at hd'
      exact h.base hd'
  · have hnot : a ∉ s.freed := by
      intro hmem
      have hnone := (h.mem_freed a).mp hmem
      rw [show s.heap[a]? = _ from hd] at hnone
      cases hnone
    exact List.nodup_append.mpr ⟨h.freed, List.nodup_singleton a, by
      rintro b hb c hc rfl
      rw [List.mem_singleton] at hc
      exact hnot (hc ▸ hb)⟩
  · intro b
    rw [List.mem_append, List.mem_singleton]
    by_cases heq : b = a
    · subst heq
      simp [hlt]
    · rw [List.getElem?_set_ne (Ne.symm heq), h.mem_freed b]
      simp [heq]

/-- Giving up a reference, and with the last one the descriptor and what it
refers to, is possible and keeps all counters right. -/
theorem TYPE_DECREF.loop_releases (fuel : Nat) {s : State} {a : Addr} {outside : List Addr}
    (hfuel : a < fuel) (h : s.Owned (a :: outside)) (hrooted : Rooted s.descTable outside)
    (hpinned : ∀ b < basic_types.length, b ∈ outside) :
    Releases (TYPE_DECREF.loop fuel) s a outside := by
  induction fuel generalizing s a outside with
  | zero => cases hfuel
  | succ fuel ih =>
    obtain ⟨d, hd, hpos⟩ := h.holds List.mem_cons_self
    rcases Nat.lt_or_ge 1 d.refcnt with hmany | hone
    · refine ⟨_, ?_, h.write hd (h.balanced.drop hd.cell hmany),
        Settles.write hd hpos (show 0 < d.refcnt - 1 by omega)⟩
      rw [TYPE_DECREF.loop, State.read_eq hd, ok_bind, if_neg (by omega), if_neg (by omega)]
      rfl
    · have hlast : d.refcnt = 1 := by omega
      have hnot : a ∉ outside := fun hmem => by
        have hmany := h.one_lt_refcnt hd hmem
        omega
      have hkind : d.body.kind ≠ .TYPE_BASE := fun hbase => hnot (hpinned a ((h.base hd).mp hbase))
      -- the references of the descriptor are given up while it has no reference itself
      obtain ⟨s₁, hs₁⟩ : ∃ s₁, s₁ = s.write a { d with refcnt := 0 } := ⟨_, rfl⟩
      have howned : s₁.Owned (d.body.parts ++ outside) :=
        hs₁ ▸ h.write hd (h.balanced.last hd.cell hlast)
      have hself : s₁.Holds a { d with refcnt := 0 } := hs₁ ▸ State.write_holds_self hd _
      have hrooted₁ : Rooted s₁.descTable outside := hs₁ ▸ hrooted
      have hold : ∀ b ∈ d.body.parts, b < a := h.balanced.older hd.cell
      have hremove : remove s₁ ⟨a, d.desc⟩ = .ok s₁.descTable := by
        refine (hrooted₁.mono (List.subset_append_right d.body.parts outside)).remove howned ?_
        rw [List.mem_append, not_or]
        exact ⟨fun hmem => Nat.lt_irrefl a (hold a hmem), hnot⟩
      obtain ⟨m₂, hfini, howned₂, hsettles⟩ := @releases_all (TYPE_DECREF.loop fuel) _ _ _
        (fun b hb m outside' hsub hm => ih (Nat.lt_of_lt_of_le (hold b hb) (Nat.le_of_lt_succ hfuel))
          hm (hrooted₁.mono hsub) fun c hc => hsub (hpinned c hc)) _ howned
      have hself₂ := hsettles.dying hself rfl
      obtain ⟨m₃, hfree, howned₃, hheap⟩ := Mfree_owned (s := ⟨m₂, s₁.descTable⟩) howned₂ hself₂ rfl
      have htable : s₁.descTable = s.descTable := hs₁ ▸ rfl
      refine ⟨m₃, ?_, howned₃, ?_⟩
      · have hrun : fini (TYPE_DECREF.loop fuel) s₁ { d with refcnt := 0 } =
            .ok ⟨m₂, s₁.descTable⟩ := (fini_eq _ _ (d := { d with refcnt := 0 }) hkind).trans hfini
        have hrest : (fini (TYPE_DECREF.loop fuel) s₁ { d with refcnt := 0 } >>= fun s =>
            Mfree s a) = .ok ⟨m₃, s.descTable⟩ := by
          rw [hrun, ok_bind, hfree, htable]
        rw [TYPE_DECREF.loop, State.read_eq hd, ok_bind, if_neg (by omega), if_pos (by omega), hlast,
          ← hs₁, TypeDesc_Free, State.read_eq hself, ok_bind, if_neg hkind, hremove, ok_bind]
        exact hrest
      · refine Settles.freed hd hpos ?_ hheap
        rw [← hs₁]
        exact hsettles

end koala.desctable
