import Koala.Object.Counted

open koala.typedesc

namespace koala.object

set_option linter.style.nameCheck false

/-- A class of an order declares a member. -/
structure Declares (ks : Klasses) (k : Klass) (node : LRONode) (m : MNode) : Prop where
  inOrder : node ∈ k.lro
  member : m ∈ mtbl ks node.klazz

/-- The slot of a member. -/
def slot (node : LRONode) (m : MNode) : Nat := node.offset + m.offset

/-- What the offsets of a class and its order are made of. -/
structure Placed (ks : Klasses) (k : Klass) : Prop where
  laid : k.lro = nodes (nrvars ks) 0 (order k.lro)
  nodup : (order k.lro).Nodup
  first : (order k.lro).head? = some .Any_Klass
  totals : k.totalvars = ((order k.lro).map (nrvars ks)).sum
  fielded : AllFielded ks

section placed

variable {ks : Klasses} {k : Klass} {node node' : LRONode} {m m' : MNode} {name : CString}

theorem Counted.placed {calls : List Call} (h : Counted calls ks) (hsettled : Settled calls)
    {n : Nat} (hk : ks[n]? = some k) : Placed ks k := by
  have hline := h.resolved.ordering.line n _ (lines_get hk)
  exact ⟨h.resolved.laid hsettled n k hk, hline.nodup, hline.first, h.totals hsettled n k hk,
    h.fielded⟩

/-- The class of a member, with its count of fields. -/
theorem mtbl_klass (h : m ∈ mtbl ks node.klazz) :
    ∃ n k', node.klazz = .new n ∧ ks[n]? = some k' ∧ m ∈ k'.mtbl ∧
      nrvars ks node.klazz = k'.nrvars := by
  cases hc : node.klazz with
  | Any_Klass =>
    rw [hc] at h
    exact absurd h List.not_mem_nil
  | new n =>
    rw [hc, mtbl] at h
    cases hget : ks[n]? with
    | none =>
      rw [hget] at h
      exact absurd h List.not_mem_nil
    | some k' =>
      rw [hget] at h
      refine ⟨n, k', rfl, hget, h, ?_⟩
      rw [nrvars, hget]
      rfl

theorem Placed.lt_nrvars (h : Placed ks k) (hm : Declares ks k node m) :
    m.offset < nrvars ks node.klazz := by
  obtain ⟨n, k', _, hget, hmem, hcount⟩ := mtbl_klass hm.member
  rw [hcount]
  exact (h.fielded n k' hget).lt m hmem

/-- The slot of a member is one of the object's. -/
theorem Placed.slot_lt (h : Placed ks k) (hm : Declares ks k node m) :
    slot node m < k.totalvars := by
  have hnode := hm.inOrder
  rw [h.laid] at hnode
  have hlt := nodes_lt hnode (h.lt_nrvars hm)
  rw [h.totals, slot]
  omega

/-- Members have one slot only when they are the same field. -/
theorem Placed.slot_eq_iff (h : Placed ks k) (hm : Declares ks k node m)
    (hm' : Declares ks k node' m') :
    slot node m = slot node' m' ↔ (node.klazz, m.name) = (node'.klazz, m'.name) := by
  have hnode := hm.inOrder
  have hnode' := hm'.inOrder
  rw [h.laid] at hnode hnode'
  by_cases hclass : node.klazz = node'.klazz
  · have heq := nodes_unique h.nodup hnode hnode' hclass
    subst heq
    obtain ⟨n, c, hc, hget, hmem, _⟩ := mtbl_klass hm.member
    have hmem' := hm'.member
    rw [hc, mtbl, hget] at hmem'
    have hdistinct := (h.fielded n c hget).distinct m hmem m' hmem'
    constructor
    · intro hslot
      have hoffset : m.offset = m'.offset := Nat.add_left_cancel hslot
      rw [hdistinct (Or.inr hoffset)]
    · intro hpair
      rw [hdistinct (Or.inl (Prod.mk.inj hpair).2)]
  · constructor
    · intro hslot
      exact absurd hslot
        (nodes_disjoint hnode hnode' hclass (h.lt_nrvars hm) (h.lt_nrvars hm'))
    · intro hpair
      exact absurd (Prod.mk.inj hpair).1 hclass

/-- The search from a position on returns, and what it finds is declared. -/
theorem member_loop_ok {index : Nat} (hindex : index < k.lro.length) :
    ∃ r, member_loop ks k.lro name index = .ok r ∧
      ∀ node m, r = some (node, m) → Declares ks k node m ∧ m.name = name := by
  induction index with
  | zero =>
    refine ⟨none, rfl, ?_⟩
    intro node m hr
    cases hr
  | succ index ih =>
    have hget : k.lro[index + 1]? = some k.lro[index + 1] := List.getElem?_eq_getElem hindex
    rw [member_loop, hget]
    dsimp only
    cases hfind : Find_MNode (mtbl ks k.lro[index + 1].klazz) name with
    | none => exact ih (by omega)
    | some m =>
      refine ⟨_, rfl, ?_⟩
      intro node m' hr
      cases hr
      have hname := List.find?_some hfind
      exact ⟨⟨List.getElem_mem hindex, List.mem_of_find?_eq_some hfind⟩, by simpa using hname⟩

theorem base_loop_le (lro : List LRONode) (klazz : KlassPtr) (index : Nat) :
    base_loop lro klazz index ≤ index := by
  induction index with
  | zero => exact Nat.le_refl _
  | succ index ih =>
    rw [base_loop]
    split
    · exact Nat.le_refl _
    · omega

theorem Placed.lro_pos (h : Placed ks k) : 0 < k.lro.length := by
  have hfirst := h.first
  cases hlro : k.lro with
  | nil =>
    rw [hlro] at hfirst
    cases hfirst
  | cons node lro => exact Nat.succ_pos _

theorem Placed.get_m_ok (h : Placed ks k) (name : CString) (base : KlassPtr) :
    ∃ r, __get_m ks k.lro name base = .ok r ∧
      ∀ node m, r = some (node, m) → Declares ks k node m ∧
        m.name = if is_super name then behind_super name else name := by
  have hpos := h.lro_pos
  have hle := base_loop_le k.lro base (k.lro.length - 1)
  rw [__get_m]
  split
  · exact member_loop_ok (by omega)
  · exact member_loop_ok (by omega)

/-- A class of the order is found at its place. -/
theorem Placed.base_loop_eq (h : Placed ks k) {i : Nat} (hi : 0 < i)
    (hnode : k.lro[i]? = some node) {index : Nat} (hle : i ≤ index) :
    base_loop k.lro node.klazz index = i := by
  induction index with
  | zero => omega
  | succ index ih =>
    by_cases heq : i = index + 1
    · subst heq
      rw [base_loop, hnode]
      simp
    · have hne : ¬ (k.lro[index + 1]?.any fun node' => node'.klazz = node.klazz) = true := by
        cases hother : k.lro[index + 1]? with
        | none => simp
        | some node' =>
          have hi_order : (order k.lro)[i]? = some node.klazz := by
            rw [order, List.getElem?_map, hnode, Option.map_some]
          have hother_order : (order k.lro)[index + 1]? = some node'.klazz := by
            rw [order, List.getElem?_map, hother, Option.map_some]
          intro hany
          have hklazz : node'.klazz = node.klazz := by simpa using hany
          rw [hklazz] at hother_order
          obtain ⟨hlt, hget⟩ := List.getElem?_eq_some_iff.mp hi_order
          obtain ⟨hlt', hget'⟩ := List.getElem?_eq_some_iff.mp hother_order
          exact heq ((h.nodup.getElem_inj_iff).mp (hget.trans hget'.symm))
      rw [base_loop, if_neg hne]
      exact ih (by omega)

/-- A member is found under its own class and name, unless the name is taken for
one of a super class. -/
theorem Placed.get_m_declared (h : Placed ks k) (hm : Declares ks k node m)
    (hname : is_super m.name = false) :
    __get_m ks k.lro m.name node.klazz = .ok (some (node, m)) := by
  obtain ⟨i, hi, hget⟩ := List.getElem_of_mem hm.inOrder
  have hnode : k.lro[i]? = some node := by rw [List.getElem?_eq_getElem hi, hget]
  obtain ⟨n, c, hc, hgetc, hmem, _⟩ := mtbl_klass hm.member
  have hpos : 0 < i := by
    rcases Nat.eq_zero_or_pos i with rfl | hpos
    · have hfirst := h.first
      rw [List.head?_eq_getElem?, order, List.getElem?_map, hnode, Option.map_some, hc] at hfirst
      cases hfirst
    · exact hpos
  have hfind : Find_MNode (mtbl ks node.klazz) m.name = some m := by
    have hsome : (Find_MNode (mtbl ks node.klazz) m.name).isSome := by
      rw [Find_MNode, List.find?_isSome]
      exact ⟨m, hm.member, by simp⟩
    obtain ⟨m', hm'⟩ := Option.isSome_iff_exists.mp hsome
    have hname' : m'.name = m.name := by simpa using List.find?_some hm'
    have hmem' := List.mem_of_find?_eq_some hm'
    rw [hc, mtbl, hgetc] at hmem'
    rw [hm', (h.fielded n c hgetc).distinct m' hmem' m hmem (Or.inl hname')]
  obtain ⟨j, rfl⟩ : ∃ j, i = j + 1 := ⟨i - 1, by omega⟩
  rw [__get_m, hname, h.base_loop_eq hpos hnode (by omega)]
  simp only [Bool.false_eq_true, if_false]
  rw [member_loop, hnode]
  dsimp only
  rw [hfind]

end placed

/-- A field is a declaring class and a name. -/
abbrev Field := KlassPtr × CString

/-- The field that a base and a name resolve to in objects of a class. -/
def resolve (ks : Klasses) (klass : Nat) (base : Option KlassPtr) (name : CString) :
    Option Field :=
  match ks[klass]? with
  | none => none
  | some k =>
    match __get_m ks k.lro name (base.getD (.new klass)) with
    | .ok (some (node, m)) => some (node.klazz, m.name)
    | _ => none

variable {V : Type}

/-- The last value that some calls set a field to. -/
def last_set (ks : Klasses) (klass : Nat) (field : Field) :
    List (SetCall V) → Option V → Option V
  | [], value => value
  | call :: calls, value =>
    last_set ks klass field calls
      (if resolve ks klass call.base call.name = some field then some call.val else value)

section object

variable {ks : Klasses} {klass : Nat} {k : Klass} {ob ob' : Object V}

/-- An object of a class with a slot for each variable. -/
structure Object.Of (ob : Object V) (klass : Nat) (k : Klass) : Prop where
  klass : ob.klass = klass
  slots : ob.value.length = k.totalvars

theorem object_alloc_of (hk : ks[klass]? = some k) :
    ∃ ob : Object V, object_alloc ks klass = .ok ob ∧ ob.Of klass k ∧ ∀ value ∈ ob.value, value = none := by
  refine ⟨⟨klass, List.replicate k.totalvars none⟩, ?_, ⟨rfl, List.length_replicate⟩, ?_⟩
  · rw [object_alloc, hk]
  · intro value hvalue
    exact List.eq_of_mem_replicate hvalue

/-- A name that resolves has the slot of its field. -/
theorem field_slot_of_resolve (h : Placed ks k) (hk : ks[klass]? = some k) (hob : ob.Of klass k)
    {base : Option KlassPtr} {name : CString} {field : Field}
    (hresolve : resolve ks klass base name = some field) :
    ∃ node m, Declares ks k node m ∧ field = (node.klazz, m.name) ∧
      field_slot ks ob base name = .ok (slot node m) := by
  obtain ⟨r, hget, hspec⟩ := h.get_m_ok name (base.getD (.new klass))
  rw [resolve, hk] at hresolve
  dsimp only at hresolve
  rw [hget] at hresolve
  cases r with
  | none => cases hresolve
  | some found =>
    obtain ⟨node, m⟩ := found
    cases hresolve
    refine ⟨node, m, (hspec node m rfl).1, rfl, ?_⟩
    rw [field_slot, hob.klass, hk]
    dsimp only
    rw [hget]
    rfl

/-- A name that does not resolve has no slot. -/
theorem resolve_of_field_slot (h : Placed ks k) (hk : ks[klass]? = some k) (hob : ob.Of klass k)
    {base : Option KlassPtr} {name : CString} {index : Nat}
    (hslot : field_slot ks ob base name = .ok index) :
    ∃ field, resolve ks klass base name = some field := by
  obtain ⟨r, hget, _⟩ := h.get_m_ok name (base.getD (.new klass))
  rw [field_slot, hob.klass, hk] at hslot
  dsimp only at hslot
  rw [hget] at hslot
  cases r with
  | none => cases hslot
  | some found =>
    refine ⟨(found.1.klazz, found.2.name), ?_⟩
    rw [resolve, hk]
    dsimp only
    rw [hget]

theorem Get_Field_eq (h : Placed ks k) (hob : ob.Of klass k)
    {base : Option KlassPtr} {name : CString} {node : LRONode} {m : MNode}
    (hm : Declares ks k node m) (hslot : field_slot ks ob base name = .ok (slot node m)) :
    Get_Field ks ob base name = .ok (ob.value.getD (slot node m) none) := by
  have hlt : slot node m < ob.value.length := hob.slots ▸ h.slot_lt hm
  rw [Get_Field, hslot, ok_bind, List.getD_eq_getElem?_getD, List.getElem?_eq_getElem hlt]
  rfl

/-- Setting a field changes the slot of that field only. -/
theorem Set_Field_ok (h : Placed ks k) (hk : ks[klass]? = some k) (hob : ob.Of klass k)
    {base : Option KlassPtr} {name : CString} (val : V) {field : Field}
    (hresolve : resolve ks klass base name = some field) :
    ∃ ob', Set_Field ks ob base name val = .ok ob' ∧ ob'.Of klass k ∧
      ∀ node m, Declares ks k node m →
        ob'.value.getD (slot node m) none =
          if (node.klazz, m.name) = field then some val else ob.value.getD (slot node m) none := by
  obtain ⟨node, m, hm, rfl, hslot⟩ := field_slot_of_resolve h hk hob hresolve
  have hlt : slot node m < ob.value.length := hob.slots ▸ h.slot_lt hm
  refine ⟨{ ob with value := ob.value.set (slot node m) (some val) }, ?_, ?_, ?_⟩
  · rw [Set_Field, hslot, ok_bind, if_pos hlt]
  · exact ⟨hob.klass, by rw [List.length_set, hob.slots]⟩
  · intro node' m' hm'
    have hiff := h.slot_eq_iff hm' hm
    by_cases heq : slot node' m' = slot node m
    · rw [if_pos (hiff.mp heq), heq]
      simp [hlt]
    · rw [if_neg fun hpair => heq (hiff.mpr hpair)]
      simp [List.getElem?_set_ne (Ne.symm heq)]

theorem set_fields_ok (h : Placed ks k) (hk : ks[klass]? = some k) (hob : ob.Of klass k)
    {calls : List (SetCall V)} (hrun : set_fields ks ob calls = .ok ob') :
    ob'.Of klass k ∧ ∀ node m, Declares ks k node m →
      ob'.value.getD (slot node m) none =
        last_set ks klass (node.klazz, m.name) calls (ob.value.getD (slot node m) none) := by
  induction calls generalizing ob with
  | nil =>
    cases hrun
    exact ⟨hob, fun _ _ _ => rfl⟩
  | cons call calls ih =>
    obtain ⟨mid, hset, hrest⟩ := bind_eq_ok_iff.mp hrun
    obtain ⟨index, hindex, _⟩ := bind_eq_ok_iff.mp hset
    obtain ⟨field, hresolve⟩ := resolve_of_field_slot h hk hob hindex
    obtain ⟨mid', hset', hmid, hslots⟩ := Set_Field_ok h hk hob call.val hresolve
    rw [hset] at hset'
    cases hset'
    obtain ⟨hob', hvalues⟩ := ih hmid hrest
    refine ⟨hob', fun node m hm => ?_⟩
    rw [hvalues node m hm, hslots node m hm, last_set, hresolve]
    simp only [Option.some.injEq, eq_comm]

/-- Calls with names that resolve return. -/
theorem set_fields_total (h : Placed ks k) (hk : ks[klass]? = some k) (hob : ob.Of klass k)
    {calls : List (SetCall V)}
    (hcalls : ∀ call ∈ calls, resolve ks klass call.base call.name ≠ none) :
    ∃ ob', set_fields ks ob calls = .ok ob' := by
  induction calls generalizing ob with
  | nil => exact ⟨ob, rfl⟩
  | cons call calls ih =>
    obtain ⟨hcall, hrest⟩ := List.forall_mem_cons.mp hcalls
    obtain ⟨field, hresolve⟩ := Option.ne_none_iff_exists'.mp hcall
    obtain ⟨mid, hset, hmid, _⟩ := Set_Field_ok h hk hob call.val hresolve
    obtain ⟨ob', hrun⟩ := ih hmid hrest
    exact ⟨ob', by rw [set_fields, hset, ok_bind, hrun]⟩

end object

/-- The fields of the objects of a class do not overlap. -/
structure Separate (V : Type) (ks : Klasses) (klass : Nat) (k : Klass) : Prop where
  slots : ∀ node m, Declares ks k node m → is_super m.name = false →
    __get_m ks k.lro m.name node.klazz = .ok (some (node, m)) ∧ slot node m < k.totalvars
  distinct : ∀ node m node' m', Declares ks k node m → Declares ks k node' m' →
    (node.klazz, m.name) ≠ (node'.klazz, m'.name) → slot node m ≠ slot node' m'
  values : ∃ ob : Object V, object_alloc ks klass = .ok ob ∧
    ∀ calls, (∀ call ∈ calls, resolve ks klass call.base call.name ≠ none) →
      ∃ ob', set_fields ks ob calls = .ok ob' ∧
        ∀ base name field, resolve ks klass base name = some field →
          Get_Field ks ob' base name = .ok (last_set ks klass field calls none)

/-- In every hierarchy whose classes get their fields before classes are derived
from them, the fields of an object do not overlap, and a field has the value it
was last set to. -/
theorem Object.fields_separate {calls : List Call} {ks : Klasses} (hsettled : Settled calls)
    (hrun : run [] calls = .ok ks) {klass : Nat} {k : Klass} (hk : ks[klass]? = some k)
    (V : Type) : Separate V ks klass k := by
  have hcounted : Counted calls ks := counted_nil.run hrun
  have h := hcounted.placed hsettled hk
  refine ⟨?_, ?_, ?_⟩
  · exact fun node m hm hname => ⟨h.get_m_declared hm hname, h.slot_lt hm⟩
  · exact fun node m node' m' hm hm' hne heq => hne ((h.slot_eq_iff hm hm').mp heq)
  · obtain ⟨ob, halloc, hob, hnull⟩ := object_alloc_of (V := V) hk
    refine ⟨ob, halloc, fun sets hsets => ?_⟩
    obtain ⟨ob', hset⟩ := set_fields_total h hk hob hsets
    refine ⟨ob', hset, fun base name field hresolve => ?_⟩
    obtain ⟨hob', hvalues⟩ := set_fields_ok h hk hob hset
    obtain ⟨node, m, hm, rfl, hslot⟩ := field_slot_of_resolve h hk hob' hresolve
    have hlt : slot node m < ob.value.length := hob.slots ▸ h.slot_lt hm
    have hfirst : ob.value.getD (slot node m) none = none := by
      rw [List.getD_eq_getElem?_getD, List.getElem?_eq_getElem hlt]
      exact hnull _ (List.getElem_mem hlt)
    rw [Get_Field_eq h hob' hm hslot, hvalues node m hm, hfirst]

section instances

def age : CString :=
  ⟨['A'.toUInt8, 'g'.toUInt8, 'e'.toUInt8], by decide⟩

/-- `Animal` with a field `Age`, and `Dog` over it with one of the same name. -/
def dogs : List Call :=
  [.Klass_New (letter 'A' A_ne_zero) [], .Klass_Add_Field 0 age (.base .BASE_INT),
    .Klass_New (letter 'D' D_ne_zero) [0], .Klass_Add_Field 1 age (.base .BASE_INT)]

theorem settled_nil : Settled [] := by
  intro pre klazz name desc post heq
  simp at heq

/-- One more call, of a class that is no base if it adds a field. -/
theorem Settled.append {calls : List Call} {call : Call} (h : Settled calls)
    (hcall : ∀ klazz name desc, call = .Klass_Add_Field klazz name desc →
      ∀ bases ∈ given calls, klazz ∉ bases) : Settled (calls ++ [call]) := by
  intro pre klazz name desc post heq
  cases post using List.reverseRecOn with
  | nil =>
    obtain ⟨rfl, hlast⟩ := List.append_inj' heq rfl
    exact hcall klazz name desc (List.singleton_inj.mp hlast)
  | append_singleton post last _ =>
    have hassoc : calls ++ [call] = pre ++ .Klass_Add_Field klazz name desc :: post ++ [last] := by
      rw [heq, List.append_assoc, List.cons_append]
    exact h pre klazz name desc post (List.append_inj' hassoc rfl).1

theorem dogs_settled : Settled dogs := by
  have hanimal : Settled [.Klass_New (letter 'A' A_ne_zero) []] :=
    settled_nil.append (by simp)
  have hage : Settled [.Klass_New (letter 'A' A_ne_zero) [],
      .Klass_Add_Field 0 age (.base .BASE_INT)] := by
    refine hanimal.append fun klazz name desc h bases hbases => ?_
    cases List.mem_singleton.mp hbases
    exact List.not_mem_nil
  have hdog : Settled [.Klass_New (letter 'A' A_ne_zero) [],
      .Klass_Add_Field 0 age (.base .BASE_INT), .Klass_New (letter 'D' D_ne_zero) [0]] :=
    hage.append (by simp)
  refine hdog.append ?_
  intro klazz name desc h
  cases h
  decide

theorem Object.fields_separate_dogs :
    ∃ ks k, run [] dogs = .ok ks ∧ ks[1]? = some k ∧ Separate Nat ks 1 k :=
  ⟨_, _, rfl, rfl, Object.fields_separate dogs_settled rfl rfl Nat⟩

/-- A field that is named `super.x` is not found under its name. -/
def super_x : CString := ⟨SUPER ++ ['x'.toUInt8], by decide⟩

def super_calls : List Call :=
  [.Klass_New (letter 'A' A_ne_zero) [], .Klass_Add_Field 0 super_x (.base .BASE_INT)]

theorem super_x_not_found : ∃ ks k node m, Built 0 super_calls ∧ Settled super_calls ∧
    run [] super_calls = .ok ks ∧ ks[0]? = some k ∧ Declares ks k node m ∧ m.name = super_x ∧
      __get_m ks k.lro super_x node.klazz = .ok none := by
  refine ⟨_, _, ⟨0, .new 0⟩, ⟨super_x, .base .BASE_INT, 0⟩, ?_, ?_, rfl, rfl, ⟨?_, ?_⟩, rfl, rfl⟩
  · simp [super_calls, Built, Call.klasses, given, Call.bases?]
  · have hclass : Settled [.Klass_New (letter 'A' A_ne_zero) []] :=
      settled_nil.append (by simp)
    refine hclass.append fun klazz name desc h bases hbases => ?_
    cases List.mem_singleton.mp hbases
    exact List.not_mem_nil
  · exact List.mem_cons_of_mem _ List.mem_cons_self
  · exact List.mem_cons_self

end instances

end koala.object
