import Koala.Image.Storing

open koala.atomtable koala.typedesc koala.typedesc.Store

namespace koala.image

set_option linter.style.nameCheck false

variable {T T' : Table}

namespace Sound

/-- Storing a descriptor that the search finds. -/
theorem put_found (hT : Sound T) {t : TypeDesc} {index : Int}
    (hfound : Found T index (sought (held T) t)) (hpos : ¬ index < 0) :
    Grows T T (put (held T) t).2 ∧ HoldsType T index (put (held T) t).1 := by
  have hholds := hfound.of_nonneg hpos
  have hmem : sought (held T) t ∈ (held T).types := ⟨index, hholds⟩
  rw [put_of_mem hmem]
  exact ⟨.refl hT, hholds⟩

/-- What storing a list does once its members are stored. -/
theorem typelist_append_ok (hT : Sound T) {l : List TypeDesc} {i : Int}
    {loop : Res (List Int × Table)}
    (hloop : ∀ index table, loop = .ok (index, table) →
      Grows T table (putEach (held T) l).2 ∧ HoldsEach table index (putEach (held T) l).1)
    (h : typelist_append T l loop = .ok (i, T')) :
    Grows T T' ((held T).putList l (putEach (held T) l)).2 ∧
      HoldsList T' i ((held T).putList l (putEach (held T) l)).1 := by
  unfold typelist_append at h
  split at h
  · next hlength =>
    cases h
    rw [List.eq_nil_of_length_eq_zero (by omega : l.length = 0), putList_nil]
    exact ⟨.refl hT, holdsList_nil.mpr rfl⟩
  · next hlength =>
    have hne : l ≠ [] := by
      rintro rfl
      exact hlength (Nat.le_refl _)
    rw [bind_eq_ok_iff] at h
    obtain ⟨index, hindex, h⟩ := h
    have hfound := hT.TypeListItem_Get_found hindex
    split at h
    · next hneg =>
      have hnot : soughtEach (held T) l ∉ (held T).lists := by
        intro hmem
        rw [FoundList, known_of_mem hmem] at hfound
        have hpos := hfound.nonneg_of_ne hmem.1
        omega
      rw [putList_of_not_mem hne hnot]
      rw [bind_eq_ok_iff] at h
      obtain ⟨⟨indexes, table⟩, hset, h⟩ := h
      obtain ⟨hgrows, heach⟩ := hloop indexes table hset
      dsimp only at h
      have happ := Append_appended hgrows.sound.wf h
      have hl : HoldsList T' i (putEach (held T) l).1 :=
        (holdsList_of_ne (putEach_ne_nil hne)).mpr ⟨indexes, happ.get, heach.extends happ.ext⟩
      refine ⟨hgrows.trans (.of_appended hgrows.sound happ rfl ⟨_, putEach_ne_nil hne, hl⟩ ?_), hl⟩
      rw [hgrows.sound.held_append_list happ (putEach_ne_nil hne) hl, hgrows.held_eq]
    · next hpos =>
      cases h
      have hmem : soughtEach (held T) l ∈ (held T).lists := by
        by_contra hnot
        rw [FoundList, known_of_not_mem hnot, holdsList_nil] at hfound
        omega
      rw [putList_of_mem hne hmem]
      rw [FoundList, known_of_mem hmem] at hfound
      exact ⟨.refl hT, hfound⟩

theorem typelist_set_ok_of {l : List TypeDesc}
    (hl : ∀ t ∈ l, ∀ {T T' : Table} {i : Int}, Sound T → TypeItem_Set T t = .ok (i, T') →
      Grows T T' (put (held T) t).2 ∧ HoldsType T' i (put (held T) t).1)
    {T T' : Table} {index : List Int} (hT : Sound T)
    (h : typelist_set T l = .ok (index, T')) :
    Grows T T' (putEach (held T) l).2 ∧ HoldsEach T' index (putEach (held T) l).1 := by
  induction l generalizing T index with
  | nil =>
    cases h
    exact ⟨.refl hT, rfl⟩
  | cons t l ih =>
    rw [typelist_set, bind_eq_ok_iff] at h
    obtain ⟨⟨i, table⟩, hset, h⟩ := h
    dsimp only at h
    obtain ⟨hgrows, ht⟩ := hl t (by simp) hT hset
    rw [if_neg (by have hpos := ht.nonneg; omega), bind_eq_ok_iff] at h
    obtain ⟨⟨rest, table'⟩, hrest, h⟩ := h
    cases h
    obtain ⟨hgrows', heach⟩ := ih (fun u hu => hl u (by simp [hu])) hgrows.sound hrest
    rw [hgrows.held_eq] at hgrows' heach
    rw [putEach]
    exact ⟨hgrows.trans hgrows', i, rest, rfl, ht.extends hgrows'.ext, heach⟩

/-- `TypeItem_Set` stores the descriptor, or what the search mistakes for it:
the table then holds exactly what the store holds after `put`. -/
theorem TypeItem_Set_ok {t : TypeDesc} {T T' : Table} {i : Int} (hT : Sound T)
    (h : TypeItem_Set T t = .ok (i, T')) :
    Grows T T' (put (held T) t).2 ∧ HoldsType T' i (put (held T) t).1 := by
  induction t using TypeDesc.induct generalizing T T' i with
  | base b =>
    rw [TypeItem_Set, bind_eq_ok_iff] at h
    obtain ⟨index, hindex, h⟩ := h
    have hfound := hT.TypeItem_Get_found hindex
    split at h
    · next hneg =>
      rw [put, if_neg (hfound.of_neg hneg).2]
      exact hT.append_type_ok h fun happ => happ.get
    · next hpos =>
      cases h
      exact hT.put_found hfound hpos
  | klass path type =>
    rw [TypeItem_Set, bind_eq_ok_iff] at h
    obtain ⟨index, hindex, h⟩ := h
    have hfound := hT.TypeItem_Get_found hindex
    split at h
    · next hneg =>
      rw [put, if_neg (hfound.of_neg hneg).2]
      rw [bind_eq_ok_iff] at h
      obtain ⟨⟨pathindex, T₁⟩, hpath, h⟩ := h
      rw [bind_eq_ok_iff] at h
      obtain ⟨⟨typeindex, T₂⟩, htype, h⟩ := h
      obtain ⟨hgrows₁, hp⟩ := hT.path_set_ok hpath
      obtain ⟨hgrows₂, hs⟩ := hgrows₁.sound.path_set_ok htype
      obtain ⟨hgrows, ht⟩ := hgrows₂.sound.append_type_ok (t := .klass path type) h fun happ =>
        ⟨pathindex, typeindex, happ.get, (hp.extends hgrows₂.ext).extends happ.ext,
          HoldsString.extends happ.ext hs⟩
      rw [hgrows₂.held_eq, hgrows₁.held_eq] at hgrows
      exact ⟨(hgrows₁.trans hgrows₂).trans hgrows, ht⟩
    · next hpos =>
      cases h
      exact hT.put_found hfound hpos
  | proto arg ret harg hret =>
    rw [TypeItem_Set, bind_eq_ok_iff] at h
    obtain ⟨index, hindex, h⟩ := h
    have hfound := hT.TypeItem_Get_found hindex
    split at h
    · next hneg =>
      rw [put, if_neg (hfound.of_neg hneg).2]
      rw [bind_eq_ok_iff] at h
      obtain ⟨⟨rindex, T₁⟩, hr, h⟩ := h
      rw [bind_eq_ok_iff] at h
      obtain ⟨⟨pindex, T₂⟩, ha, h⟩ := h
      rw [bind_eq_ok_iff] at h
      obtain ⟨⟨protoindex, T₃⟩, hp, h⟩ := h
      dsimp only at ha hp h ⊢
      obtain ⟨hgrows₁, hrets⟩ := hT.typelist_append_ok
        (fun _ _ => typelist_set_ok_of (fun t ht => hret t ht) hT) hr
      obtain ⟨hgrows₂, hargs⟩ := hgrows₁.sound.typelist_append_ok
        (fun _ _ => typelist_set_ok_of (fun t ht => harg t ht) hgrows₁.sound) ha
      rw [hgrows₁.held_eq] at hgrows₂ hargs
      obtain ⟨hgrows₃, hproto⟩ := hgrows₂.sound.proto_append_ok (p := ⟨_, _⟩)
        (hrets.extends hgrows₂.ext) hargs hp
      rw [hgrows₂.held_eq] at hgrows₃
      obtain ⟨hgrows, ht⟩ := hgrows₃.sound.append_type_ok h fun happ =>
        holdsType_proto.mpr ⟨protoindex, happ.get, hproto.extends happ.ext⟩
      rw [hgrows₃.held_eq] at hgrows
      exact ⟨((hgrows₁.trans hgrows₂).trans hgrows₃).trans hgrows, ht⟩
    · next hpos =>
      cases h
      exact hT.put_found hfound hpos
  | array dims t ih =>
    rw [TypeItem_Set, bind_eq_ok_iff] at h
    obtain ⟨index, hindex, h⟩ := h
    have hfound := hT.TypeItem_Get_found hindex
    split at h
    · next hneg =>
      rw [put, if_neg (hfound.of_neg hneg).2]
      rw [bind_eq_ok_iff] at h
      obtain ⟨⟨typeindex, T₁⟩, hbase, h⟩ := h
      dsimp only at h ⊢
      obtain ⟨hgrows₁, ht⟩ := ih hT hbase
      obtain ⟨hgrows, harray⟩ := hgrows₁.sound.append_type_ok (t := .array dims _) h fun happ =>
        ⟨typeindex, happ.get, ht.extends happ.ext⟩
      rw [hgrows₁.held_eq] at hgrows
      exact ⟨hgrows₁.trans hgrows, harray⟩
    · next hpos =>
      cases h
      exact hT.put_found hfound hpos
  | map | set =>
    rw [TypeItem_Set, bind_eq_ok_iff] at h
    obtain ⟨index, hindex, h⟩ := h
    cases hindex
  | varg t ih =>
    rw [TypeItem_Set, bind_eq_ok_iff] at h
    obtain ⟨index, hindex, h⟩ := h
    have hfound := hT.TypeItem_Get_found hindex
    split at h
    · next hneg =>
      rw [put, if_neg (hfound.of_neg hneg).2]
      rw [bind_eq_ok_iff] at h
      obtain ⟨⟨typeindex, T₁⟩, hbase, h⟩ := h
      dsimp only at h ⊢
      obtain ⟨hgrows₁, ht⟩ := ih hT hbase
      obtain ⟨hgrows, hvarg⟩ := hgrows₁.sound.append_type_ok (t := .varg _) h fun happ =>
        ⟨typeindex, happ.get, ht.extends happ.ext⟩
      rw [hgrows₁.held_eq] at hgrows
      exact ⟨hgrows₁.trans hgrows, hvarg⟩
    · next hpos =>
      cases h
      exact hT.put_found hfound hpos

theorem typelist_set_ok (hT : Sound T) {l : List TypeDesc} {index : List Int}
    (h : typelist_set T l = .ok (index, T')) :
    Grows T T' (putEach (held T) l).2 ∧ HoldsEach T' index (putEach (held T) l).1 :=
  typelist_set_ok_of (fun _ _ _ _ _ => TypeItem_Set_ok) hT h

theorem TypeListItem_Set_ok (hT : Sound T) {l : List TypeDesc} {i : Int}
    (h : TypeListItem_Set T l = .ok (i, T')) :
    Grows T T' (putTypes (held T) l).2 ∧ HoldsList T' i (putTypes (held T) l).1 :=
  hT.typelist_append_ok (fun _ _ => hT.typelist_set_ok) h

theorem ProtoItem_Set_ok (hT : Sound T) {p : ProtoDesc} {i : Int}
    (h : ProtoItem_Set T p = .ok (i, T')) :
    Grows T T' (putProto (held T) p).2 ∧ HoldsProto T' i (putProto (held T) p).1 := by
  rw [ProtoItem_Set, bind_eq_ok_iff] at h
  obtain ⟨⟨rindex, T₁⟩, hr, h⟩ := h
  rw [bind_eq_ok_iff] at h
  obtain ⟨⟨pindex, T₂⟩, ha, h⟩ := h
  dsimp only at ha h
  obtain ⟨hgrows₁, hrets⟩ := hT.TypeListItem_Set_ok hr
  obtain ⟨hgrows₂, hargs⟩ := hgrows₁.sound.TypeListItem_Set_ok ha
  rw [hgrows₁.held_eq] at hgrows₂ hargs
  obtain ⟨hgrows₃, hproto⟩ := hgrows₂.sound.proto_append_ok (p := ⟨_, _⟩)
    (hrets.extends hgrows₂.ext) hargs h
  rw [hgrows₂.held_eq] at hgrows₃
  exact ⟨(hgrows₁.trans hgrows₂).trans hgrows₃, hproto⟩

end Sound

end koala.image

namespace koala.image

set_option linter.style.nameCheck false

variable {T : Table}

namespace Sound

theorem typelist_append_total (hT : Sound T) {l : List TypeDesc} (hl : ∀ t ∈ l, t.Supported)
    (hloop : ∃ r, typelist_set T l = .ok r) :
    ∃ r, typelist_append T l (typelist_set T l) = .ok r := by
  unfold typelist_append
  split
  · exact ⟨_, rfl⟩
  · next hlength =>
    have hne : l ≠ [] := by
      rintro rfl
      exact hlength (Nat.le_refl _)
    obtain ⟨found, hfound⟩ := typelist_get_total (T := T) hl
    have hget : TypeListItem_Get T l = .ok (typelist_index T found) := by
      rw [TypeListItem_Get, hfound, ok_bind]
    have hindex := hT.TypeListItem_Get_found hget
    rw [hget, ok_bind]
    split
    · next hneg =>
      have hnot : soughtEach (held T) l ∉ (held T).lists := by
        intro hmem
        rw [FoundList, known_of_mem hmem] at hindex
        have hpos := hindex.nonneg_of_ne hmem.1
        omega
      obtain ⟨⟨indexes, table⟩, hset⟩ := hloop
      obtain ⟨hgrows, heach⟩ := hT.typelist_set_ok hset
      have hfresh := (held_closed T).putEach_not_mem hnot
      rw [← hgrows.held_eq] at hfresh
      rw [hset, ok_bind]
      exact hgrows.sound.append_typelist_total heach (putEach_ne_nil hne) hfresh
    · exact ⟨_, rfl⟩

theorem typelist_set_total_of {l : List TypeDesc}
    (hl : ∀ t ∈ l, ∀ T : Table, Sound T → ∃ r, TypeItem_Set T t = .ok r) {T : Table}
    (hT : Sound T) : ∃ r, typelist_set T l = .ok r := by
  induction l generalizing T with
  | nil => exact ⟨_, rfl⟩
  | cons t l ih =>
    obtain ⟨⟨i, table⟩, hset⟩ := hl t (by simp) T hT
    obtain ⟨hgrows, ht⟩ := hT.TypeItem_Set_ok hset
    obtain ⟨⟨rest, table'⟩, hrest⟩ := ih (fun u hu => hl u (by simp [hu])) hgrows.sound
    rw [typelist_set, hset, ok_bind]
    dsimp only
    rw [if_neg (by have hpos := ht.nonneg; omega), hrest, ok_bind]
    exact ⟨_, rfl⟩

/-- Appending the item of a descriptor whose parts were just stored. -/
theorem append_put_total {T₁ : Table} {item : TypeItem} {t : TypeDesc} {S : Store}
    {n m : Nat} (hgrows : Grows T T₁ S) (hsought : sought (held T) t ∉ (held T).types)
    (hbelow : Below (held T) S n m) (hn : n < (put (held T) t).1.depth)
    (hholds : ∀ i, Get T₁ .ITEM_TYPE i = some item → HoldsType T₁ i (put (held T) t).1) :
    ∃ r, Append T₁ .ITEM_TYPE item = .ok r := by
  refine hgrows.sound.append_type_total hholds ?_
  rw [hgrows.held_eq]
  exact (held_closed T).not_mem_of_below hsought rfl hbelow hn

/-- Storing a descriptor without maps and sets fails no assertion. -/
theorem TypeItem_Set_total {t : TypeDesc} (hsupported : t.Supported) {T : Table}
    (hT : Sound T) : ∃ r, TypeItem_Set T t = .ok r := by
  induction t using TypeDesc.induct generalizing T with
  | base b =>
    obtain ⟨index, hindex⟩ := TypeItem_Get_total (T := T) hsupported
    have hfound := hT.TypeItem_Get_found hindex
    rw [TypeItem_Set, hindex, ok_bind]
    split
    · next hneg => exact hT.append_type_total (t := .base b) (fun i h => h) (hfound.of_neg hneg).2
    · exact ⟨_, rfl⟩
  | klass path type =>
    obtain ⟨index, hindex⟩ := TypeItem_Get_total (T := T) hsupported
    have hfound := hT.TypeItem_Get_found hindex
    rw [TypeItem_Set, hindex, ok_bind]
    split
    · next hneg =>
      obtain ⟨⟨pathindex, T₁⟩, hpath⟩ := hT.path_set_total path
      obtain ⟨hgrows₁, hp⟩ := hT.path_set_ok hpath
      obtain ⟨⟨typeindex, T₂⟩, htype⟩ := hgrows₁.sound.path_set_total (some type)
      obtain ⟨hgrows₂, hs⟩ := hgrows₁.sound.path_set_ok htype
      rw [hpath, ok_bind]
      dsimp only
      rw [htype, ok_bind]
      refine hgrows₂.sound.append_type_total (t := .klass path type)
        (fun i h => ⟨pathindex, typeindex, h, hp.extends hgrows₂.ext, hs⟩) ?_
      rw [hgrows₂.held_eq, hgrows₁.held_eq]
      exact (hfound.of_neg hneg).2
    · exact ⟨_, rfl⟩
  | proto arg ret harg hret =>
    obtain ⟨index, hindex⟩ := TypeItem_Get_total (T := T) hsupported
    have hfound := hT.TypeItem_Get_found hindex
    have hargs := TypeDesc.supportedEach_iff.mp hsupported.1
    have hrets := TypeDesc.supportedEach_iff.mp hsupported.2
    rw [TypeItem_Set, hindex, ok_bind]
    split
    · next hneg =>
      obtain ⟨⟨rindex, T₁⟩, hr⟩ := hT.typelist_append_total hrets
        (typelist_set_total_of (fun t ht T => hret t ht (hrets t ht)) hT)
      obtain ⟨hgrows₁, hrlist⟩ := hT.TypeListItem_Set_ok hr
      obtain ⟨⟨pindex, T₂⟩, ha⟩ := hgrows₁.sound.typelist_append_total hargs
        (typelist_set_total_of (fun t ht T => harg t ht (hargs t ht)) hgrows₁.sound)
      obtain ⟨hgrows₂, halist⟩ := hgrows₁.sound.TypeListItem_Set_ok ha
      obtain ⟨⟨protoindex, T₃⟩, hp⟩ := hgrows₂.sound.proto_append_total rindex pindex
      obtain ⟨hgrows₃, hproto⟩ := hgrows₂.sound.proto_append_ok (p := ⟨_, _⟩)
        (hrlist.extends hgrows₂.ext) halist hp
      rw [hr, ok_bind]
      dsimp only
      rw [ha, ok_bind]
      dsimp only
      rw [hp, ok_bind]
      rw [hgrows₁.held_eq] at hgrows₂ hproto
      rw [hgrows₂.held_eq] at hgrows₃
      have hput := put.eq_def (held T) (.proto arg ret)
      rw [if_neg (hfound.of_neg hneg).2] at hput
      refine append_put_total ((hgrows₁.trans hgrows₂).trans hgrows₃) (hfound.of_neg hneg).2
        (putLists_below arg ret (held T)) ?_ ?_
      · rw [hput]
        exact Nat.lt_succ_self _
      · intro i hget
        rw [hput]
        exact holdsType_proto.mpr ⟨protoindex, hget, hproto⟩
    · exact ⟨_, rfl⟩
  | array dims t ih =>
    obtain ⟨index, hindex⟩ := TypeItem_Get_total (T := T) hsupported
    have hfound := hT.TypeItem_Get_found hindex
    rw [TypeItem_Set, hindex, ok_bind]
    split
    · next hneg =>
      obtain ⟨⟨typeindex, T₁⟩, hbase⟩ := ih hsupported hT
      obtain ⟨hgrows₁, ht⟩ := hT.TypeItem_Set_ok hbase
      rw [hbase, ok_bind]
      have hput := put.eq_def (held T) (.array dims t)
      rw [if_neg (hfound.of_neg hneg).2] at hput
      refine append_put_total hgrows₁ (hfound.of_neg hneg).2 (put_below t (held T)) ?_ ?_
      · rw [hput]
        exact Nat.lt_succ_self _
      · intro i hget
        rw [hput]
        exact ⟨typeindex, hget, ht⟩
    · exact ⟨_, rfl⟩
  | map | set => exact hsupported.elim
  | varg t ih =>
    obtain ⟨index, hindex⟩ := TypeItem_Get_total (T := T) hsupported
    have hfound := hT.TypeItem_Get_found hindex
    rw [TypeItem_Set, hindex, ok_bind]
    split
    · next hneg =>
      obtain ⟨⟨typeindex, T₁⟩, hbase⟩ := ih hsupported hT
      obtain ⟨hgrows₁, ht⟩ := hT.TypeItem_Set_ok hbase
      rw [hbase, ok_bind]
      have hput := put.eq_def (held T) (.varg t)
      rw [if_neg (hfound.of_neg hneg).2] at hput
      refine append_put_total hgrows₁ (hfound.of_neg hneg).2 (put_below t (held T)) ?_ ?_
      · rw [hput]
        exact Nat.lt_succ_self _
      · intro i hget
        rw [hput]
        exact ⟨typeindex, hget, ht⟩
    · exact ⟨_, rfl⟩

theorem typelist_set_total (hT : Sound T) {l : List TypeDesc} (h : ∀ t ∈ l, t.Supported) :
    ∃ r, typelist_set T l = .ok r :=
  typelist_set_total_of (fun t ht _ => TypeItem_Set_total (h t ht)) hT

theorem TypeListItem_Set_total (hT : Sound T) {l : List TypeDesc} (h : ∀ t ∈ l, t.Supported) :
    ∃ r, TypeListItem_Set T l = .ok r :=
  hT.typelist_append_total h (hT.typelist_set_total h)

theorem ProtoItem_Set_total (hT : Sound T) {p : ProtoDesc} (harg : ∀ t ∈ p.arg, t.Supported)
    (hret : ∀ t ∈ p.ret, t.Supported) : ∃ r, ProtoItem_Set T p = .ok r := by
  obtain ⟨⟨rindex, T₁⟩, hr⟩ := hT.TypeListItem_Set_total hret
  obtain ⟨hgrows₁, _⟩ := hT.TypeListItem_Set_ok hr
  obtain ⟨⟨pindex, T₂⟩, ha⟩ := hgrows₁.sound.TypeListItem_Set_total harg
  obtain ⟨hgrows₂, _⟩ := hgrows₁.sound.TypeListItem_Set_ok ha
  rw [ProtoItem_Set, hr, ok_bind]
  dsimp only
  rw [ha, ok_bind]
  exact hgrows₂.sound.proto_append_total rindex pindex

end Sound

end koala.image
