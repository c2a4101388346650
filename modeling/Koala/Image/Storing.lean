import Koala.Image.Search

open koala.atomtable koala.typedesc koala.typedesc.Store

namespace koala.image

set_option linter.style.nameCheck false

variable {T T' : Table}

/-- One item was appended. -/
structure Appended (T T' : Table) (type : ItemKind) (i : Int) (data : ItemData type) : Prop where
  wf : WF T'
  ext : Extends T T'
  get : Get T' type i = some data
  cases : ∀ other j found, Get T' other j = some found →
    Get T other j = some found ∨
      (j = i ∧ (⟨other, found⟩ : (k : ItemKind) × ItemData k) = ⟨type, data⟩)
  frame : ∀ other, other ≠ type → T'.items other = T.items other

theorem Append_appended (hwf : WF T) {type : ItemKind} {data : ItemData type} {i : Int}
    (h : Append T type data = .ok (i, T')) : Appended T T' type i data := by
  obtain ⟨hindex, hitems, _, _⟩ := AtomTable_Append_ok h
  refine ⟨hwf.append h, extends_of_items hitems, ?_, ?_, ?_⟩
  · rw [Get, hindex, AtomTable_Get_of_nonneg, hitems, appended_self]
    simp [AtomTable_Size]
  · intro other j found hget
    rw [hindex]
    exact get_appended hitems hget
  · intro other hother
    rw [hitems, appended_of_ne _ _ hother]

theorem Stands.extends (hext : Extends T T') {type : ItemKind} {i : Int} {data : ItemData type}
    (h : Stands T i type data) : Stands T' i type data := by
  cases type with
  | ITEM_TYPE =>
    obtain ⟨t, ht⟩ := h
    exact ⟨t, ht.extends hext⟩
  | ITEM_TYPELIST =>
    obtain ⟨l, hne, hl⟩ := h
    exact ⟨l, hne, hl.extends hext⟩
  | ITEM_PROTO =>
    obtain ⟨p, hp⟩ := h
    exact ⟨p, hp.extends hext⟩
  | _ => exact h

namespace Sound

theorem append (hT : Sound T) {type : ItemKind} {i : Int} {data : ItemData type}
    (h : Appended T T' type i data) (hstands : Stands T' i type data) : Sound T' where
  wf := h.wf
  stands := by
    intro other j found hget
    rcases h.cases other j found hget with hold | ⟨rfl, heq⟩
    · exact (hT.stands other j found hold).extends h.ext
    · cases heq
      exact hstands

theorem mem_held_types (hT : Sound T) {type : ItemKind} {i : Int} {data : ItemData type}
    (h : Appended T T' type i data) (t : TypeDesc) :
    t ∈ (held T').types ↔ t ∈ (held T).types ∨ (type = .ITEM_TYPE ∧ HoldsType T' i t) := by
  constructor
  · rintro ⟨j, hj⟩
    obtain ⟨item, hget, _⟩ := hj.get
    rcases h.cases .ITEM_TYPE j item hget with hold | ⟨rfl, heq⟩
    · obtain ⟨u, hu⟩ := hT.type hold
      rw [(hu.extends h.ext).functional hj] at hu
      exact Or.inl ⟨j, hu⟩
    · exact Or.inr ⟨(congrArg Sigma.fst heq).symm, hj⟩
  · rintro (⟨j, hj⟩ | ⟨_, hi⟩)
    · exact ⟨j, hj.extends h.ext⟩
    · exact ⟨i, hi⟩

theorem mem_held_lists (hT : Sound T) {type : ItemKind} {i : Int} {data : ItemData type}
    (h : Appended T T' type i data) (l : List TypeDesc) :
    l ∈ (held T').lists ↔
      l ∈ (held T).lists ∨ (type = .ITEM_TYPELIST ∧ l ≠ [] ∧ HoldsList T' i l) := by
  constructor
  · rintro ⟨hne, j, hj⟩
    obtain ⟨index, hget, _⟩ := (holdsList_of_ne hne).mp hj
    rcases h.cases .ITEM_TYPELIST j ⟨index⟩ hget with hold | ⟨rfl, heq⟩
    · obtain ⟨l', _, hl'⟩ := hT.typelist hold
      rw [(hl'.extends h.ext).functional hj] at hl'
      exact Or.inl ⟨hne, j, hl'⟩
    · exact Or.inr ⟨(congrArg Sigma.fst heq).symm, hne, hj⟩
  · rintro (⟨hne, j, hj⟩ | ⟨_, hne, hi⟩)
    · exact ⟨hne, j, hj.extends h.ext⟩
    · exact ⟨hne, i, hi⟩

theorem held_append_type (hT : Sound T) {i : Int} {item : TypeItem} {t : TypeDesc}
    (h : Appended T T' .ITEM_TYPE i item) (ht : HoldsType T' i t) :
    held T' = (held T).addType t := by
  ext u
  · rw [hT.mem_held_types h, addType, Set.mem_insert_iff, or_comm]
    refine or_congr ⟨fun hu => hu.2.functional ht, ?_⟩ Iff.rfl
    rintro rfl
    exact ⟨rfl, ht⟩
  · rw [hT.mem_held_lists h]
    simp [addType]

theorem held_append_list (hT : Sound T) {i : Int} {item : TypeListItem} {l : List TypeDesc}
    (h : Appended T T' .ITEM_TYPELIST i item) (hne : l ≠ []) (hl : HoldsList T' i l) :
    held T' = (held T).addTypeList l := by
  ext u
  · rw [hT.mem_held_types h]
    simp [addTypeList]
  · rw [hT.mem_held_lists h, addTypeList, Set.mem_insert_iff, or_comm]
    refine or_congr ⟨fun hu => hu.2.2.functional hl, ?_⟩ Iff.rfl
    rintro rfl
    exact ⟨rfl, hne, hl⟩

theorem held_append_other (hT : Sound T) {type : ItemKind} {i : Int} {data : ItemData type}
    (h : Appended T T' type i data) (htype : type ≠ .ITEM_TYPE) (hlist : type ≠ .ITEM_TYPELIST) :
    held T' = held T := by
  ext u
  · rw [hT.mem_held_types h]
    simp [htype]
  · rw [hT.mem_held_lists h]
    simp [hlist]

end Sound

/-- The kinds that `TypeItem_Set` and its helpers append items of. -/
def ItemKind.ofTypes : ItemKind → Bool
  | .ITEM_STRING | .ITEM_TYPE | .ITEM_TYPELIST | .ITEM_PROTO => true
  | _ => false

/-- A table grew to one that holds exactly `S`, and only in the vectors that
describe types. -/
structure Grows (T T' : Table) (S : Store) : Prop where
  sound : Sound T'
  ext : Extends T T'
  held_eq : held T' = S
  frame : ∀ type : ItemKind, type.ofTypes = false → T'.items type = T.items type

theorem Grows.refl (hT : Sound T) : Grows T T (held T) where
  sound := hT
  ext := Extends.refl T
  held_eq := rfl
  frame _ _ := rfl

theorem Grows.trans {T₁ T₂ T₃ : Table} {S₁ S₂ : Store} (h₁ : Grows T₁ T₂ S₁)
    (h₂ : Grows T₂ T₃ S₂) : Grows T₁ T₃ S₂ where
  sound := h₂.sound
  ext := h₁.ext.trans h₂.ext
  held_eq := h₂.held_eq
  frame type htype := by rw [h₂.frame type htype, h₁.frame type htype]

theorem Grows.of_appended (hT : Sound T) {type : ItemKind} {i : Int} {data : ItemData type}
    {S : Store} (h : Appended T T' type i data) (htypes : type.ofTypes = true)
    (hstands : Stands T' i type data) (hheld : held T' = S) : Grows T T' S where
  sound := hT.append h hstands
  ext := h.ext
  held_eq := hheld
  frame other hother := h.frame other (by rintro rfl; rw [htypes] at hother; cases hother)

namespace Sound

theorem StringItem_Set_ok (hT : Sound T) {s : CString} {i : Int}
    (h : StringItem_Set T s = .ok (i, T')) : Grows T T' (held T) ∧ HoldsString T' i s := by
  unfold StringItem_Set at h
  dsimp only at h
  split at h
  · have happ := Append_appended hT.wf h
    exact ⟨.of_appended hT happ rfl ⟨s, rfl⟩ (hT.held_append_other happ nofun nofun), happ.get⟩
  · next hpos =>
    cases h
    refine ⟨.refl hT, ?_⟩
    rcases hT.index_string s with ⟨hneg, _⟩ | hs
    · exact absurd (show StringItem_Get T s < 0 by rw [StringItem_Get, hneg]; decide) hpos
    · exact hs

theorem StringItem_Set_total (hT : Sound T) (s : CString) :
    ∃ r, StringItem_Set T s = .ok r := by
  unfold StringItem_Set
  dsimp only
  split
  · next hneg =>
    rcases hT.index_string s with ⟨_, hnot⟩ | hs
    · obtain ⟨table, htable⟩ := hT.wf.append_fresh string_extensional hT.string ⟨s, rfl⟩
        (fun i h => hnot i h)
      exact ⟨_, htable⟩
    · have hpos := get_nonneg hs
      rw [StringItem_Get] at hneg
      omega
  · exact ⟨_, rfl⟩

theorem path_set_ok (hT : Sound T) {path : Option CString} {i : Int}
    (h : path_set T path = .ok (i, T')) : Grows T T' (held T) ∧ HoldsPath T' i path := by
  cases path with
  | none =>
    cases h
    exact ⟨.refl hT, rfl⟩
  | some s =>
    rw [path_set, bind_eq_ok_iff] at h
    obtain ⟨⟨index, table⟩, hset, h⟩ := h
    dsimp only at h
    split at h
    · cases h
      exact hT.StringItem_Set_ok hset
    · cases h

theorem path_set_total (hT : Sound T) (path : Option CString) :
    ∃ r, path_set T path = .ok r := by
  cases path with
  | none => exact ⟨_, rfl⟩
  | some s =>
    obtain ⟨⟨index, table⟩, hset⟩ := hT.StringItem_Set_total s
    have hpos := get_nonneg (hT.StringItem_Set_ok hset).2
    exact ⟨_, by rw [path_set, hset, ok_bind]; dsimp only; rw [if_pos hpos]⟩

theorem proto_append_ok (hT : Sound T) {rindex pindex i : Int} {p : ProtoDesc}
    (hr : HoldsList T rindex p.ret) (ha : HoldsList T pindex p.arg)
    (h : proto_append T rindex pindex = .ok (i, T')) :
    Grows T T' (held T) ∧ HoldsProto T' i p := by
  unfold proto_append at h
  dsimp only at h
  split at h
  · have happ := Append_appended hT.wf h
    have hp : HoldsProto T' i p :=
      ⟨rindex, pindex, happ.get, hr.extends happ.ext, ha.extends happ.ext⟩
    exact ⟨.of_appended hT happ rfl ⟨p, hp⟩ (hT.held_append_other happ nofun nofun), hp⟩
  · next hpos =>
    cases h
    refine ⟨.refl hT, ?_⟩
    rcases hT.ProtoItem_Get_cases hr ha with ⟨hneg, _⟩ | hp
    · omega
    · exact hp

theorem proto_append_total (hT : Sound T) (rindex pindex : Int) :
    ∃ r, proto_append T rindex pindex = .ok r := by
  unfold proto_append
  dsimp only
  split
  · next hneg =>
    rcases hT.index_proto ⟨rindex, pindex⟩ with ⟨_, hnot⟩ | hget
    · obtain ⟨table, htable⟩ := hT.wf.append_fresh proto_extensional (fun _ _ _ => trivial)
        trivial (fun i h => hnot i h)
      exact ⟨_, htable⟩
    · have hpos := get_nonneg hget
      rw [ProtoItem_Get] at hneg
      omega
  · exact ⟨_, rfl⟩

/-- Appending the type item of a descriptor that is not held. -/
theorem append_type_total (hT : Sound T) {item : TypeItem} {t : TypeDesc}
    (hholds : ∀ i, Get T .ITEM_TYPE i = some item → HoldsType T i t)
    (hnot : t ∉ (held T).types) : ∃ r, Append T .ITEM_TYPE item = .ok r := by
  obtain ⟨table, htable⟩ := hT.wf.append_fresh type_extensional (fun _ _ _ => trivial) trivial
    (fun i h => hnot ⟨i, hholds i h⟩)
  exact ⟨_, htable⟩

theorem append_typelist_total (hT : Sound T) {index : List Int} {l : List TypeDesc}
    (heach : HoldsEach T index l) (hne : l ≠ []) (hnot : l ∉ (held T).lists) :
    ∃ r, Append T .ITEM_TYPELIST ⟨index⟩ = .ok r := by
  obtain ⟨table, htable⟩ := hT.wf.append_fresh typelist_extensional (fun _ _ _ => trivial)
    trivial (fun i h => hnot ⟨hne, i, (holdsList_of_ne hne).mpr ⟨index, h, heach⟩⟩)
  exact ⟨_, htable⟩

theorem append_type_ok (hT : Sound T) {item : TypeItem} {t : TypeDesc} {i : Int}
    (h : Append T .ITEM_TYPE item = .ok (i, T'))
    (hholds : Appended T T' .ITEM_TYPE i item → HoldsType T' i t) :
    Grows T T' ((held T).addType t) ∧ HoldsType T' i t := by
  have happ := Append_appended hT.wf h
  have ht := hholds happ
  exact ⟨.of_appended hT happ rfl ⟨t, ht⟩ (hT.held_append_type happ ht), ht⟩

end Sound

end koala.image
