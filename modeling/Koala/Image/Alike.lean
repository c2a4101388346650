import Koala.AtomTable.Exact
import Koala.Image.TypeTable

open koala.atomtable koala.typedesc

namespace koala.image

set_option linter.style.nameCheck false

/-- Two tables with the constants `K` and `K'` and otherwise the same items. -/
structure Alike (K K' : List ConstItem) (T T' : Table) : Prop where
  wf : WF T
  wf' : WF T'
  strings : Shaped T .ITEM_STRING IsString
  items : ∀ type, type ≠ .ITEM_CONST → T.items type = T'.items type
  consts : T.items .ITEM_CONST = K
  consts' : T'.items .ITEM_CONST = K'

/-- The same value was returned with two tables that are alike. -/
def AlikeAt (K K' : List ConstItem) {α : Type} (r r' : α × Table) : Prop :=
  r.1 = r'.1 ∧ Alike K K' r.2 r'.2

namespace Alike

variable {K K' : List ConstItem} {T T' T₁ T₁' : Table}

theorem size_eq (h : Alike K K' T T') {type : ItemKind} (htype : type ≠ .ITEM_CONST) :
    AtomTable_Size T type = AtomTable_Size T' type := by
  rw [AtomTable_Size, AtomTable_Size, h.items type htype]

theorem of_appended (h : Alike K K' T T') {type : ItemKind} {data : ItemData type}
    (htype : type ≠ .ITEM_CONST) (hwf : WF T₁) (hwf' : WF T₁')
    (hstring : ∀ found : StringItem,
      (⟨.ITEM_STRING, found⟩ : (k : ItemKind) × ItemData k) = ⟨type, data⟩ → IsString found)
    (hitems : T₁.items = appended T type data) (hitems' : T₁'.items = appended T' type data) :
    Alike K K' T₁ T₁' where
  wf := hwf
  wf' := hwf'
  strings index found hget := by
    rcases get_appended hitems hget with hold | ⟨_, heq⟩
    · exact h.strings index found hold
    · exact hstring found heq
  items other hother := by
    rw [hitems, hitems']
    exact appended_congr (h.items type htype) (h.items other hother)
  consts := by
    rw [hitems, appended_of_ne T data htype.symm]
    exact h.consts
  consts' := by
    rw [hitems', appended_of_ne T' data htype.symm]
    exact h.consts'

theorem append_plain (h : Alike K K' T T') {type : ItemKind} (hplain : type.unique = false)
    (data : ItemData type) : Agree (AlikeAt K K') (Append T type data) (Append T' type data) := by
  have htype : type ≠ .ITEM_CONST := by
    rintro rfl
    cases hplain
  have happend : AtomTable_Append Item_Hash Item_Equal T type data false =
      .ok (_, ⟨T.table, appended T type data⟩) := AtomTable_Append_not_unique T type data
  have happend' : AtomTable_Append Item_Hash Item_Equal T' type data false =
      .ok (_, ⟨T'.table, appended T' type data⟩) := AtomTable_Append_not_unique T' type data
  rw [← hplain] at happend happend'
  have hwf := h.wf.append happend
  have hwf' := h.wf'.append happend'
  unfold Append
  rw [happend, happend', h.size_eq htype]
  refine .ok ⟨rfl, h.of_appended htype hwf hwf' (fun found heq => ?_) rfl rfl⟩
  obtain rfl : ItemKind.ITEM_STRING = type := congrArg Sigma.fst heq
  cases hplain

theorem append_unique (h : Alike K K' T T') (type : ItemKind) (htype : type ≠ .ITEM_CONST)
    (hunique : type.unique = true) {shape : ItemData type → Prop}
    (hext : Extensional Item_Hash Item_Equal type shape) (hshaped : Shaped T type shape)
    {data : ItemData type} (hshape : shape data)
    (hstring : ∀ found : StringItem,
      (⟨.ITEM_STRING, found⟩ : (k : ItemKind) × ItemData k) = ⟨type, data⟩ → IsString found) :
    Agree (AlikeAt K K') (Append T type data) (Append T' type data) := by
  refine (h.wf.append_congr h.wf' hext hshaped hunique hshape (h.items type htype)).mono ?_
  rintro r r' ⟨hindex, hwf, hwf', hitems, hitems'⟩
  exact ⟨hindex, h.of_appended htype hwf hwf' hstring hitems hitems'⟩

theorem append_type (h : Alike K K' T T') (item : TypeItem) :
    Agree (AlikeAt K K') (Append T .ITEM_TYPE item) (Append T' .ITEM_TYPE item) :=
  h.append_unique .ITEM_TYPE nofun rfl type_extensional (fun _ _ _ => trivial) trivial nofun

theorem append_typelist (h : Alike K K' T T') (item : TypeListItem) :
    Agree (AlikeAt K K') (Append T .ITEM_TYPELIST item) (Append T' .ITEM_TYPELIST item) :=
  h.append_unique .ITEM_TYPELIST nofun rfl typelist_extensional (fun _ _ _ => trivial) trivial nofun

theorem append_proto (h : Alike K K' T T') (item : ProtoItem) :
    Agree (AlikeAt K K') (Append T .ITEM_PROTO item) (Append T' .ITEM_PROTO item) :=
  h.append_unique .ITEM_PROTO nofun rfl proto_extensional (fun _ _ _ => trivial) trivial nofun

theorem append_string (h : Alike K K' T T') (s : CString) :
    Agree (AlikeAt K K') (Append T .ITEM_STRING (StringItem_New s))
      (Append T' .ITEM_STRING (StringItem_New s)) := by
  refine h.append_unique .ITEM_STRING nofun rfl string_extensional h.strings ⟨s, rfl⟩ fun found heq => ?_
  cases heq
  exact ⟨s, rfl⟩

theorem StringItem_Get_eq (h : Alike K K' T T') (s : CString) :
    StringItem_Get T s = StringItem_Get T' s :=
  h.wf.index_congr h.wf' string_extensional h.strings rfl ⟨s, rfl⟩ (h.items .ITEM_STRING nofun)

theorem index_type (h : Alike K K' T T') (item : TypeItem) :
    Index T .ITEM_TYPE item = Index T' .ITEM_TYPE item :=
  h.wf.index_congr h.wf' type_extensional (fun _ _ _ => trivial) rfl trivial
    (h.items .ITEM_TYPE nofun)

theorem index_typelist (h : Alike K K' T T') (item : TypeListItem) :
    Index T .ITEM_TYPELIST item = Index T' .ITEM_TYPELIST item :=
  h.wf.index_congr h.wf' typelist_extensional (fun _ _ _ => trivial) rfl trivial
    (h.items .ITEM_TYPELIST nofun)

theorem ProtoItem_Get_eq (h : Alike K K' T T') (rindex pindex : Int) :
    ProtoItem_Get T rindex pindex = ProtoItem_Get T' rindex pindex :=
  h.wf.index_congr h.wf' proto_extensional (fun _ _ _ => trivial) rfl trivial
    (h.items .ITEM_PROTO nofun)

theorem path_get_eq (h : Alike K K' T T') (path : Option CString) :
    path_get T path = path_get T' path := by
  cases path with
  | none => rfl
  | some s => exact h.StringItem_Get_eq s

theorem typelist_index_eq (h : Alike K K' T T') (found : Option (List Int)) :
    typelist_index T found = typelist_index T' found := by
  match found with
  | none => rfl
  | some [] => rfl
  | some (index :: indexes) => exact h.index_typelist ⟨index :: indexes⟩

theorem typelist_get_eq_of {l : List TypeDesc}
    (hl : ∀ t ∈ l, TypeItem_Get T t = TypeItem_Get T' t) :
    typelist_get T l = typelist_get T' l := by
  induction l with
  | nil => rw [typelist_get, typelist_get]
  | cons t l ih =>
    have hrest := ih fun u hu => hl u (by simp [hu])
    rw [typelist_get, typelist_get, hl t (by simp), hrest]

/-- A search does not look at the constants. -/
theorem TypeItem_Get_eq (h : Alike K K' T T') (t : TypeDesc) :
    TypeItem_Get T t = TypeItem_Get T' t := by
  induction t using TypeDesc.induct with
  | base type => rw [TypeItem_Get, TypeItem_Get, h.index_type]
  | klass path type =>
    rw [TypeItem_Get, TypeItem_Get, h.path_get_eq path, h.StringItem_Get_eq type]
    simp only [h.index_type]
  | proto arg ret harg hret =>
    rw [TypeItem_Get, TypeItem_Get, typelist_get_eq_of harg, typelist_get_eq_of hret]
    simp only [h.typelist_index_eq, h.ProtoItem_Get_eq, h.index_type]
  | array dims t ih =>
    rw [TypeItem_Get, TypeItem_Get, ih]
    simp only [h.index_type]
  | map => rw [TypeItem_Get, TypeItem_Get]
  | set => rw [TypeItem_Get, TypeItem_Get]
  | varg t ih =>
    rw [TypeItem_Get, TypeItem_Get, ih]
    simp only [h.index_type]

theorem TypeListItem_Get_eq (h : Alike K K' T T') (l : List TypeDesc) :
    TypeListItem_Get T l = TypeListItem_Get T' l := by
  rw [TypeListItem_Get, TypeListItem_Get, typelist_get_eq_of fun t _ => h.TypeItem_Get_eq t]
  simp only [h.typelist_index_eq]

theorem StringItem_Set_agree (h : Alike K K' T T') (s : CString) :
    Agree (AlikeAt K K') (StringItem_Set T s) (StringItem_Set T' s) := by
  unfold StringItem_Set
  rw [h.StringItem_Get_eq s]
  dsimp only
  split
  · exact h.append_string s
  · exact .ok ⟨rfl, h⟩

theorem path_set_agree (h : Alike K K' T T') (path : Option CString) :
    Agree (AlikeAt K K') (path_set T path) (path_set T' path) := by
  cases path with
  | none => exact .ok ⟨rfl, h⟩
  | some s =>
    refine (h.StringItem_Set_agree s).bind ?_
    rintro ⟨pathindex, table⟩ ⟨pathindex', table'⟩ ⟨rfl, htable⟩
    dsimp only
    split
    · exact .ok ⟨rfl, htable⟩
    · exact .error _

theorem typelist_append_agree (h : Alike K K' T T') (l : List TypeDesc)
    {loop loop' : Res (List Int × Table)} (hloop : Agree (AlikeAt K K') loop loop') :
    Agree (AlikeAt K K') (typelist_append T l loop) (typelist_append T' l loop') := by
  unfold typelist_append
  rw [h.TypeListItem_Get_eq l]
  split
  · exact .ok ⟨rfl, h⟩
  cases TypeListItem_Get T' l with
  | error e => exact .error e
  | ok index =>
    rw [ok_bind, ok_bind]
    split
    · refine hloop.bind ?_
      rintro ⟨indexes, table⟩ ⟨indexes', table'⟩ ⟨rfl, htable⟩
      exact htable.append_typelist ⟨indexes⟩
    · exact .ok ⟨rfl, h⟩

theorem proto_append_agree (h : Alike K K' T T') (rindex pindex : Int) :
    Agree (AlikeAt K K') (proto_append T rindex pindex) (proto_append T' rindex pindex) := by
  unfold proto_append
  rw [h.ProtoItem_Get_eq]
  dsimp only
  split
  · exact h.append_proto ⟨rindex, pindex⟩
  · exact .ok ⟨rfl, h⟩

theorem typelist_set_agree_of {l : List TypeDesc}
    (hl : ∀ t ∈ l, ∀ T T', Alike K K' T T' →
      Agree (AlikeAt K K') (TypeItem_Set T t) (TypeItem_Set T' t))
    (h : Alike K K' T T') : Agree (AlikeAt K K') (typelist_set T l) (typelist_set T' l) := by
  induction l generalizing T T' with
  | nil =>
    rw [typelist_set, typelist_set]
    exact .ok ⟨rfl, h⟩
  | cons t l ih =>
    rw [typelist_set, typelist_set]
    refine (hl t (by simp) T T' h).bind ?_
    rintro ⟨index, table⟩ ⟨index', table'⟩ ⟨rfl, htable⟩
    dsimp only
    split
    · exact .error _
    · refine (ih (fun u hu => hl u (by simp [hu])) htable).bind ?_
      rintro ⟨indexes, table₁⟩ ⟨indexes', table₁'⟩ ⟨rfl, htable₁⟩
      exact .ok ⟨rfl, htable₁⟩

/-- Storing a descriptor finds or appends the same items, whatever the
constants are. -/
theorem TypeItem_Set_agree (t : TypeDesc) {T T' : Table} (h : Alike K K' T T') :
    Agree (AlikeAt K K') (TypeItem_Set T t) (TypeItem_Set T' t) := by
  induction t using TypeDesc.induct generalizing T T' with
  | base type =>
    rw [TypeItem_Set, TypeItem_Set, h.TypeItem_Get_eq]
    cases TypeItem_Get T' (.base type) with
    | error e => exact .error e
    | ok index =>
      rw [ok_bind, ok_bind]
      split
      · exact h.append_type _
      · exact .ok ⟨rfl, h⟩
  | klass path type =>
    rw [TypeItem_Set, TypeItem_Set, h.TypeItem_Get_eq]
    cases TypeItem_Get T' (.klass path type) with
    | error e => exact .error e
    | ok index =>
      rw [ok_bind, ok_bind]
      split
      · refine (h.path_set_agree path).bind ?_
        rintro ⟨pathindex, table⟩ ⟨pathindex', table'⟩ ⟨rfl, htable⟩
        refine (htable.path_set_agree (some type)).bind ?_
        rintro ⟨typeindex, table₁⟩ ⟨typeindex', table₁'⟩ ⟨rfl, htable₁⟩
        exact htable₁.append_type _
      · exact .ok ⟨rfl, h⟩
  | proto arg ret harg hret =>
    rw [TypeItem_Set, TypeItem_Set, h.TypeItem_Get_eq]
    cases TypeItem_Get T' (.proto arg ret) with
    | error e => exact .error e
    | ok index =>
      rw [ok_bind, ok_bind]
      split
      · have hrets := typelist_set_agree_of (fun t ht T T' => hret t ht) h
        refine (h.typelist_append_agree ret hrets).bind ?_
        rintro ⟨rindex, table⟩ ⟨rindex', table'⟩ ⟨rfl, htable⟩
        have hargs := typelist_set_agree_of (fun t ht T T' => harg t ht) htable
        refine (htable.typelist_append_agree arg hargs).bind ?_
        rintro ⟨pindex, table₁⟩ ⟨pindex', table₁'⟩ ⟨rfl, htable₁⟩
        refine (htable₁.proto_append_agree rindex pindex).bind ?_
        rintro ⟨protoindex, table₂⟩ ⟨protoindex', table₂'⟩ ⟨rfl, htable₂⟩
        exact htable₂.append_type _
      · exact .ok ⟨rfl, h⟩
  | array dims t ih =>
    rw [TypeItem_Set, TypeItem_Set, h.TypeItem_Get_eq]
    cases TypeItem_Get T' (.array dims t) with
    | error e => exact .error e
    | ok index =>
      rw [ok_bind, ok_bind]
      split
      · refine (ih h).bind ?_
        rintro ⟨typeindex, table⟩ ⟨typeindex', table'⟩ ⟨rfl, htable⟩
        exact htable.append_type _
      · exact .ok ⟨rfl, h⟩
  | map | set =>
    rw [TypeItem_Set, TypeItem_Set, TypeItem_Get, TypeItem_Get]
    exact .error _
  | varg t ih =>
    rw [TypeItem_Set, TypeItem_Set, h.TypeItem_Get_eq]
    cases TypeItem_Get T' (.varg t) with
    | error e => exact .error e
    | ok index =>
      rw [ok_bind, ok_bind]
      split
      · refine (ih h).bind ?_
        rintro ⟨typeindex, table⟩ ⟨typeindex', table'⟩ ⟨rfl, htable⟩
        exact htable.append_type _
      · exact .ok ⟨rfl, h⟩

theorem TypeListItem_Set_agree (h : Alike K K' T T') (l : List TypeDesc) :
    Agree (AlikeAt K K') (TypeListItem_Set T l) (TypeListItem_Set T' l) :=
  h.typelist_append_agree l (typelist_set_agree_of (fun t _ _ _ => TypeItem_Set_agree t) h)

theorem ProtoItem_Set_agree (h : Alike K K' T T') (p : ProtoDesc) :
    Agree (AlikeAt K K') (ProtoItem_Set T p) (ProtoItem_Set T' p) := by
  refine (h.TypeListItem_Set_agree p.ret).bind ?_
  rintro ⟨rindex, table⟩ ⟨rindex', table'⟩ ⟨rfl, htable⟩
  refine (htable.TypeListItem_Set_agree p.arg).bind ?_
  rintro ⟨pindex, table₁⟩ ⟨pindex', table₁'⟩ ⟨rfl, htable₁⟩
  exact htable₁.proto_append_agree rindex pindex

end Alike

end koala.image
