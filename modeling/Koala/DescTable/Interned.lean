import Koala.DescTable.Release
import Koala.StringBuf.Total
import Mathlib.Data.List.Range

open koala.hashtable koala.stringbuf koala.typedesc refcount

namespace koala.desctable

set_option linter.style.nameCheck false

/-- The references to descriptors that no descriptor holds: one by the table for
each, one for each base descriptor, which is static, and those of the callers. -/
def Memory.outside (m : Memory) (held : List Addr) : List Addr :=
  List.range m.heap.length ++ (List.range basic_types.length ++ held)

/-- The nodes of the descriptors are linked, in the order in which they were made. -/
structure State.Tabled (s : State) (order : List DescNode) : Prop where
  rep : MapRep DescNode.desc hash_string desc_equal s.descTable order
  addrs : order.map DescNode.addr = List.range s.heap.length
  desc : ∀ hnode ∈ order, ∃ d, s.Holds hnode.addr d ∧ d.desc = hnode.desc

/-- The state between calls, when the callers hold some references. -/
structure State.Interned (s : State) (held : List Addr) : Prop where
  owned : s.Owned (s.outside held)
  tabled : ∃ order, s.Tabled order
  basics : basic_types.length ≤ s.heap.length
  short : ∀ {a d}, s.Holds a d → d.desc.bytes.length ≤ INT_MAX

theorem desc_equal_equivalence : Equivalence fun a b => desc_equal a b = true := by
  simpa [desc_equal] using (⟨fun _ => rfl, Eq.symm, Eq.trans⟩ : Equivalence (Eq (α := CString)))

theorem hash_of_desc_equal (a b : CString) (h : desc_equal a b = true) :
    hash_string a = hash_string b := by
  rw [desc_equal, decide_eq_true_eq] at h
  rw [h]

namespace State.Interned

variable {s : State} {held : List Addr} {a : Addr}

theorem perm (h : s.Interned held) {held' : List Addr} (hperm : held.Perm held') :
    s.Interned held' where
  owned := h.owned.perm ((hperm.append_left _).append_left _)
  tabled := h.tabled
  basics := h.basics
  short := h.short

theorem holds (h : s.Interned held) (ha : a < s.heap.length) :
    ∃ d, s.Holds a d ∧ 0 < d.refcnt :=
  h.owned.holds (List.mem_append_left _ (List.mem_range.mpr ha))

theorem lt_of_held (h : s.Interned held) (ha : a ∈ held) : a < s.heap.length := by
  obtain ⟨d, hd, _⟩ := h.owned.holds (a := a)
    (List.mem_append_right _ (List.mem_append_right _ ha))
  exact (List.getElem?_eq_some_iff.mp hd).1

theorem rooted (h : s.Interned held) (held' : List Addr) :
    Rooted s.descTable (s.outside held') := by
  obtain ⟨order, hrep, haddrs, _⟩ := h.tabled
  refine ⟨order, hrep.linked, ?_, fun hnode hmem => ?_⟩
  · obtain ⟨b, hrep, rfl, _⟩ := hrep
    exact Nat.le_of_eq hrep.nr_nodes.symm
  · refine List.mem_append_left _ ?_
    rw [← haddrs]
    exact List.mem_map_of_mem hmem

theorem touch (h : s.Interned held) : touch_linked s = .ok () := (h.rooted held).touch h.owned

/-- A change of counters only. -/
theorem settle (h : s.Interned held) {m : Memory} {held' : List Addr}
    (howned : m.Owned (s.outside held')) (hsettles : Settles s.toMemory m) :
    State.Interned ⟨m, s.descTable⟩ held' where
  owned := by
    rw [Memory.outside, hsettles.length]
    exact howned
  tabled := by
    obtain ⟨order, hrep, haddrs, hdesc⟩ := h.tabled
    refine ⟨order, hrep, ?_, fun hnode hmem => ?_⟩
    · rw [haddrs]
      exact congrArg List.range hsettles.length.symm
    · have haddr : hnode.addr ∈ s.outside held' := by
        refine List.mem_append_left _ ?_
        rw [← haddrs]
        exact List.mem_map_of_mem hmem
      obtain ⟨d', hd', _⟩ := howned.holds haddr
      obtain ⟨d, hd, _, hsame, _⟩ := hsettles.desc hd'
      obtain ⟨d₀, hd₀, hnode⟩ := hdesc hnode hmem
      cases hd.symm.trans hd₀
      exact ⟨d', hd', hsame.symm.trans hnode⟩
  basics := by
    rw [hsettles.length]
    exact h.basics
  short hd' := by
    obtain ⟨d, hd, _, hsame, _⟩ := hsettles.desc hd'
    rw [← hsame]
    exact h.short hd

/-- The references of a vector are given up. -/
theorem free_settles {vec : Option (List Addr)} (h : s.Interned (vec.getD [] ++ held)) :
    ∃ m, desctable.free_typelist TYPE_DECREF s vec = .ok ⟨m, s.descTable⟩ ∧
      State.Interned ⟨m, s.descTable⟩ held ∧ Settles s.toMemory m := by
  have hperm : (s.outside (vec.getD [] ++ held)).Perm (vec.getD [] ++ s.outside held) := by
    rw [Memory.outside, Memory.outside]
    exact ((List.perm_append_comm_assoc _ _ _).append_left _).trans
      (List.perm_append_comm_assoc _ _ _)
  have hrelease : ∀ b ∈ vec.getD [], ∀ {m : Memory} {outside' : List Addr},
      s.outside held ⊆ outside' → m.Owned (b :: outside') →
        Releases TYPE_DECREF ⟨m, s.descTable⟩ b outside' := by
    intro b _ m outside' hsub hm
    obtain ⟨d, hd, _⟩ := hm.holds List.mem_cons_self
    refine TYPE_DECREF.loop_releases m.heap.length (List.getElem?_eq_some_iff.mp hd).1 hm
      ((h.rooted held).mono hsub) fun c hc => hsub ?_
    exact List.mem_append_right _ (List.mem_append_left _ (List.mem_range.mpr hc))
  obtain ⟨m, hrun, howned, hsettles⟩ := releases_all hrelease (h.owned.perm hperm)
  refine ⟨m, ?_, h.settle howned hsettles, hsettles⟩
  cases vec with
  | none =>
    cases hrun
    rfl
  | some vec => exact hrun

theorem free_typelist {vec : Option (List Addr)} (h : s.Interned (vec.getD [] ++ held)) :
    ∃ m, desctable.free_typelist TYPE_DECREF s vec = .ok ⟨m, s.descTable⟩ ∧
      State.Interned ⟨m, s.descTable⟩ held := by
  obtain ⟨m, hrun, hm, -⟩ := h.free_settles
  exact ⟨m, hrun, hm⟩

theorem decref (h : s.Interned (a :: held)) :
    ∃ m, TYPE_DECREF s (some a) = .ok ⟨m, s.descTable⟩ ∧
      State.Interned ⟨m, s.descTable⟩ held := by
  have hvec : s.Interned ((some [a] : Option (List Addr)).getD [] ++ held) := h
  obtain ⟨m, hrun, hm⟩ := hvec.free_typelist
  refine ⟨m, ?_, hm⟩
  rw [desctable.free_typelist, List.foldlM_cons] at hrun
  simpa only [List.foldlM_nil, bind_pure] using hrun

end State.Interned

/-- A base descriptor as it is set up. -/
def basicDesc (type : BaseType) : Desc := ⟨.base type, CString.ofData [type.letter, 0, 0, 0], 2⟩

theorem basicDesc_desc (type : BaseType) : (basicDesc type).desc.bytes = [type.letter] := by
  cases type <;> rfl

theorem basicDesc_injective {type type' : BaseType}
    (h : (basicDesc type).desc = (basicDesc type').desc) : type = type' := by
  have hbytes := congrArg CString.bytes h
  rw [basicDesc_desc, basicDesc_desc] at hbytes
  exact BaseType.letter_injective (List.cons.inj hbytes).1

theorem State.Tabled.touch {s : State} {order : List DescNode} (h : s.Tabled order) :
    touch_linked s = .ok () := by
  have hroom : order.length ≤ s.descTable.nr_nodes := by
    obtain ⟨b, hrep, rfl, _⟩ := h.rep
    exact Nat.le_of_eq hrep.nr_nodes.symm
  rw [touch_linked, h.rep.linked.visit hroom]
  refine forM_read fun hnode hmem => ?_
  obtain ⟨d, hd, _⟩ := h.desc hnode hmem
  exact ⟨d, hd⟩

/-- The loop of `init_basictypes` behind some of the types. -/
structure Basics (types : List BaseType) (s : State) : Prop where
  heap : s.heap = types.map fun type => some (basicDesc type)
  freed : s.freed = []
  tabled : ∃ order, s.Tabled order

theorem Basics.step {types : List BaseType} {s : State} (h : Basics types s) {type : BaseType}
    (htype : type ∉ types) : ∃ s', init_basictype s type = .ok s' ∧ Basics (types ++ [type]) s' := by
  obtain ⟨order, htabled⟩ := h.tabled
  have hfind : ordered_map.find DescNode.desc desc_equal order (basicDesc type).desc = none := by
    refine ordered_map.find_eq_none_iff.mpr fun hnode hmem => ?_
    obtain ⟨d, hd, hdesc⟩ := htabled.desc hnode hmem
    rw [Memory.Holds, h.heap, List.getElem?_map, Option.map_eq_some_iff] at hd
    obtain ⟨type', htype', hd⟩ := hd
    rw [← hdesc, ← Option.some.inj hd, desc_equal, decide_eq_false_iff_not]
    intro heq
    rw [basicDesc_injective heq] at htype'
    exact htype (List.mem_of_getElem? htype')
  have hnew : (⟨s.heap.length, (basicDesc type).desc⟩ : DescNode) ∉ order := by
    intro hmem
    have haddr := List.mem_map_of_mem (f := DescNode.addr) hmem
    rw [htabled.addrs, List.mem_range] at haddr
    exact Nat.lt_irrefl _ haddr
  have hstep : mapStep DescNode.desc desc_equal order
      (.insert ⟨s.heap.length, (basicDesc type).desc⟩) =
        (order ++ [⟨s.heap.length, (basicDesc type).desc⟩], .code 0) := by
    simp [mapStep, hnew, hfind]
  obtain ⟨r, t, hinsert, _, hrep⟩ := mapRep_insert desc_equal_equivalence hash_of_desc_equal
    htabled.rep ⟨s.heap.length, (basicDesc type).desc⟩
  rw [hstep] at hrep
  have hrun : insert s ⟨s.heap.length, (basicDesc type).desc⟩ = .ok (r, t) := by
    rw [insert, htabled.touch, ok_bind, hinsert]
  refine ⟨{ s with descTable := t, heap := s.heap ++ [some (basicDesc type)] }, ?_, ?_, h.freed, _,
    hrep, ?_, fun hnode hmem => ?_⟩
  · exact (congrArg (· >>= _) hrun).trans rfl
  · rw [List.map_append, h.heap]
    rfl
  · rw [List.map_append, htabled.addrs, List.length_append, List.length_singleton,
      List.range_succ]
    rfl
  · rcases List.mem_append.mp hmem with hmem | hmem
    · obtain ⟨d, hd, heq⟩ := htabled.desc hnode hmem
      exact ⟨d, (List.getElem?_append_left (List.getElem?_eq_some_iff.mp hd).1).trans hd, heq⟩
    · rw [List.mem_singleton.mp hmem]
      exact ⟨_, List.getElem?_concat_length, rfl⟩

theorem Basics.run {rest types : List BaseType} {s : State} (h : Basics types s)
    (hnodup : (types ++ rest).Nodup) :
    ∃ s', rest.foldlM init_basictype s = .ok s' ∧ Basics (types ++ rest) s' := by
  induction rest generalizing types s with
  | nil => exact ⟨s, rfl, by rwa [List.append_nil]⟩
  | cons type rest ih =>
    have htype : type ∉ types := by
      intro hmem
      exact List.disjoint_of_nodup_append hnodup hmem List.mem_cons_self
    obtain ⟨s₁, hs₁, h₁⟩ := h.step htype
    rw [List.append_cons] at hnodup ⊢
    obtain ⟨s', hs', h'⟩ := ih h₁ hnodup
    refine ⟨s', ?_, h'⟩
    rw [List.foldlM_cons, hs₁, ok_bind, hs']

theorem Basics.holds {types : List BaseType} {s : State} (h : Basics types s) {a : Addr} {d : Desc}
    (hd : s.Holds a d) : ∃ type, d = basicDesc type := by
  rw [Memory.Holds, h.heap, List.getElem?_map, Option.map_eq_some_iff] at hd
  obtain ⟨type, _, hd⟩ := hd
  exact ⟨type, (Option.some.inj hd).symm⟩

/-- The base descriptors alone: two references to each are counted. -/
theorem Basics.interned {s : State} (h : Basics basic_types s) : s.Interned [] := by
  have hcells : s.cells = List.replicate basic_types.length (some ⟨2, []⟩) := by
    rw [Memory.cells, h.heap]
    rfl
  have hlength : s.heap.length = basic_types.length := by rw [h.heap, List.length_map]
  have hrefs : references s.cells = [] := by
    rw [hcells]
    rfl
  have houtside : s.outside [] = List.range basic_types.length ++ List.range basic_types.length := by
    rw [Memory.outside, hlength, List.append_nil]
  have hcount : ∀ a < basic_types.length,
      (List.range basic_types.length ++ List.range basic_types.length).count a = 2 := by decide
  have hcell : ∀ {a : Nat} {c : Cell}, s.cells[a]? = some (some c) →
      a < basic_types.length ∧ c = ⟨2, []⟩ := by
    intro a c hc
    rw [hcells, List.getElem?_replicate] at hc
    split at hc
    · next hlt => exact ⟨hlt, (Option.some.inj (Option.some.inj hc)).symm⟩
    · cases hc
  refine ⟨⟨⟨fun {a c} hc => ?_, fun a ha => ?_, fun {a c} hc b hb => ?_⟩, fun {a d} hd => ?_, ?_,
    fun a => ?_⟩, h.tabled, Nat.le_of_eq hlength.symm, fun {a d} hd => ?_⟩
  · obtain ⟨hlt, rfl⟩ := hcell hc
    rw [hrefs, houtside, hcount a hlt, List.count_nil]
  · rw [hrefs, houtside, List.append_nil, List.mem_append, or_self, List.mem_range] at ha
    rw [hcells, List.getElem?_replicate, if_pos ha]
    exact ⟨_, rfl⟩
  · obtain ⟨_, rfl⟩ := hcell hc
    cases hb
  · obtain ⟨type, rfl⟩ := h.holds hd
    exact iff_of_true rfl (hcell hd.cell).1
  · rw [h.freed]
    exact List.nodup_nil
  · rw [h.freed, h.heap, List.getElem?_map]
    refine iff_of_false List.not_mem_nil fun hnone => ?_
    obtain ⟨type, _, hnone⟩ := Option.map_eq_some_iff.mp hnone
    cases hnone
  · obtain ⟨type, rfl⟩ := h.holds hd
    rw [basicDesc_desc]
    exact (show 1 ≤ INT_MAX by decide)

theorem Init_TypeDesc_basics : ∃ s, Init_TypeDesc = .ok s ∧ Basics basic_types s := by
  have hempty : Basics [] ⟨⟨[], []⟩, HashTable_Init⟩ :=
    ⟨rfl, rfl, [], ⟨⟨Buckets.init, rep_init, rfl, ordered_map.distinct_nil⟩, rfl, nofun⟩⟩
  have hnodup : ([] ++ basic_types).Nodup := by decide
  exact hempty.run hnodup

/-- What holds while `HashTable_Fini` goes through the nodes: the table refers
to those that are left, and nothing waits to be freed. -/
structure Torn (size : Nat) (nodes : List DescNode) (m : Memory) : Prop where
  owned : m.Owned (nodes.map DescNode.addr ++ List.range basic_types.length)
  length : m.heap.length = size
  positive : ∀ {a d}, m.Holds a d → 0 < d.refcnt

/-- The visit of `Fini_TypeDesc`. -/
def visit (p : HashTable DescNode × Memory) (hnode : DescNode) :
    Res (HashTable DescNode × Memory) := do
  touch_linked ⟨p.2, p.1⟩
  let s ← desc_free_func ⟨p.2, p.1⟩ hnode
  .ok (s.descTable, s.toMemory)

theorem Torn.visit {size : Nat} {t : HashTable DescNode} {m : Memory} {n : DescNode}
    {l : List DescNode} (hlinked : Linked DescNode.desc hash_string desc_equal t l)
    (hroom : l.length ≤ t.nr_nodes) (h : Torn size (n :: l) m) :
    ∃ m', visit (t, m) n = .ok (t, m') ∧ Torn size l m' := by
  have hrooted : Rooted t (l.map DescNode.addr ++ List.range basic_types.length) :=
    ⟨l, hlinked, hroom, fun hnode hmem => List.mem_append_left _ (List.mem_map_of_mem hmem)⟩
  have htouch : touch_linked ⟨m, t⟩ = .ok () :=
    (hrooted.mono (List.subset_cons_self n.addr _)).touch (s := ⟨m, t⟩) h.owned
  obtain ⟨d, hd, _⟩ := h.owned.holds (a := n.addr) List.mem_cons_self
  obtain ⟨m', hrun, howned, hsettles⟩ := TYPE_DECREF.loop_releases (s := ⟨m, t⟩) m.heap.length
    (List.getElem?_eq_some_iff.mp hd).1 h.owned hrooted
    fun b hb => List.mem_append_right _ (List.mem_range.mpr hb)
  refine ⟨m', ?_, howned, hsettles.length.trans h.length, fun {a d'} hd' => ?_⟩
  · simp only [desctable.visit, htouch, desc_free_func, TYPE_DECREF, ok_bind, hrun]
  · obtain ⟨d₀, hd₀, _, _, hzero⟩ := hsettles.desc hd'
    have hpos := h.positive hd₀
    omega

section torn

variable {size : Nat} {m : Memory} (h : Torn size [] m)

include h

/-- Only base descriptors are left. -/
theorem Torn.basic {a : Addr} {d : Desc} (hd : m.Holds a d) : a < basic_types.length := by
  have hpos : ∀ {b : Nat} {c : Cell}, m.cells[b]? = some (some c) → 0 < c.count := by
    intro b c hc
    obtain ⟨d', hd', rfl⟩ := Memory.exists_holds hc
    exact h.positive hd'
  obtain ⟨b, hb, hle⟩ := h.owned.balanced.owner hpos hd.cell
  exact Nat.lt_of_le_of_lt hle (List.mem_range.mp hb)

theorem Torn.references : references m.cells = [] := by
  refine List.eq_nil_iff_forall_not_mem.mpr fun b hb => ?_
  obtain ⟨a, c, hc, _, hpart⟩ := exists_of_mem_references hb
  obtain ⟨d, hd, rfl⟩ := Memory.exists_holds hc
  have hkind := (h.owned.base hd).mpr (h.basic hd)
  obtain ⟨body, desc, refcnt⟩ := d
  cases body with
  | base type => cases hpart
  | _ => cases hkind

/-- The references to the base descriptors are the static ones. -/
theorem Torn.refcnt {a : Addr} (ha : a < basic_types.length) :
    ∃ d, m.Holds a d ∧ d.body.kind = .TYPE_BASE ∧ d.refcnt = 1 := by
  obtain ⟨d, hd, _⟩ := h.owned.holds (a := a)
    (List.mem_append_right _ (List.mem_range.mpr ha))
  refine ⟨d, hd, (h.owned.base hd).mpr ha, ?_⟩
  have hcounted := h.owned.balanced.counted hd.cell
  rw [h.references, List.count_nil, List.map_nil, List.nil_append] at hcounted
  rw [show d.refcnt = _ from hcounted,
    List.count_eq_one_of_mem List.nodup_range (List.mem_range.mpr ha)]

theorem Torn.check (t : HashTable DescNode) : check_basic_refcnt ⟨m, t⟩ = .ok () := by
  have hall : ∀ types : List BaseType, types.forM (check_basic ⟨m, t⟩) = .ok () := by
    intro types
    induction types with
    | nil => rfl
    | cons type types ih =>
      have hlt : BaseType.addr type < basic_types.length := by cases type <;> decide
      obtain ⟨d, hd, _, hone⟩ := h.refcnt hlt
      have hread : State.read ⟨m, t⟩ (BaseType.addr type) = .ok d := State.read_eq hd
      have hstep : check_basic ⟨m, t⟩ type = .ok () := by
        rw [check_basic, hread, ok_bind, if_pos hone]
      rw [List.forM, hstep]
      exact ih
  exact hall basic_types

end torn

/-- Without references by callers, `Fini_TypeDesc` runs to its end: it frees what
is no base descriptor, each descriptor once, and leaves one reference to each
base descriptor. -/
theorem State.Interned.fini {s : State} (h : s.Interned []) :
    ∃ s', Fini_TypeDesc s = .ok s' ∧ s'.freed.Nodup ∧
      (∀ a, a ∈ s'.freed ↔ ∃ d, s.Holds a d ∧ d.body.kind ≠ .TYPE_BASE) ∧
      ∀ a < basic_types.length, ∃ d, s'.Holds a d ∧ d.body.kind = .TYPE_BASE ∧ d.refcnt = 1 := by
  obtain ⟨order, hrep, haddrs, _⟩ := h.tabled
  have hstart : Torn s.heap.length order s.toMemory := by
    refine ⟨?_, rfl, fun {a d} hd => ?_⟩
    · have howned := h.owned
      rwa [Memory.outside, List.append_nil, ← haddrs] at howned
    · obtain ⟨d', hd', hpos⟩ := h.holds (List.getElem?_eq_some_iff.mp hd).1
      cases hd.symm.trans hd'
      exact hpos
  obtain ⟨t, m, hrun, hend⟩ := HashTable_Fini_spec (P := Torn s.heap.length)
    (fun hlinked hroom _ hP => Torn.visit hlinked hroom hP) hrep hstart
  refine ⟨⟨m, t⟩, ?_, hend.owned.freed, fun a => ?_, fun a ha => hend.refcnt ha⟩
  · show (HashTable_Fini visit (s.descTable, s.toMemory) >>= _) = _
    rw [hrun, ok_bind]
    exact (congrArg (· >>= _) (hend.check t)).trans rfl
  · rw [hend.owned.mem_freed a]
    constructor
    · intro hnone
      have hlt := (List.getElem?_eq_some_iff.mp hnone).1
      rw [hend.length] at hlt
      obtain ⟨d, hd, _⟩ := h.holds hlt
      refine ⟨d, hd, fun hbase => ?_⟩
      obtain ⟨d', hd', _⟩ := hend.refcnt ((h.owned.base hd).mp hbase)
      cases hnone.symm.trans hd'
    · rintro ⟨d, hd, hkind⟩
      have hlt := (List.getElem?_eq_some_iff.mp hd).1
      rw [← hend.length] at hlt
      rw [List.getElem?_eq_getElem hlt]
      cases hslot : m.heap[a] with
      | none => rfl
      | some d' =>
        have hd' : m.Holds a d' := (List.getElem?_eq_getElem hlt).trans (congrArg some hslot)
        exact absurd ((h.owned.base hd).mpr (hend.basic hd')) hkind

end koala.desctable
