import Koala.Image.Holds

open koala.atomtable koala.typedesc

namespace koala.image

set_option linter.style.nameCheck false

/-- Reading through a pointer. -/
def deref {α : Type} : Option α → Res α
  | some a => .ok a
  | none => .error .null

@[simp] theorem deref_some {α : Type} (a : α) : deref (some a) = .ok a := rfl

/-- The text of the string item at an index. -/
def stringData (table : Table) (index : Int) : Res CString := do
  let s ← deref (Get table .ITEM_STRING index)
  .ok (CString.ofData s.data)

/-- `TypeListItem_To_Vector`, given the conversion of its members; the null
item gives the null vector. -/
def typelist_decode (table : Table) (decode : Option TypeItem → Res TypeDesc) :
    Option TypeListItem → Res (List TypeDesc)
  | none => .ok []
  | some item => item.index.mapM fun i => decode (Get table .ITEM_TYPE i)

/-- `ProtoItem_To_TypeDesc`, given the conversion of the member types. -/
def proto_decode (table : Table) (decode : Option TypeItem → Res TypeDesc)
    (item : Option ProtoItem) : Res ProtoDesc := do
  let item ← deref item
  let typelist := if item.rindex ≥ 0 then Get table .ITEM_TYPELIST item.rindex else none
  let ret ← typelist_decode table decode typelist
  let typelist := if item.pindex ≥ 0 then Get table .ITEM_TYPELIST item.pindex else none
  let arg ← typelist_decode table decode typelist
  .ok ⟨arg, ret⟩

def TypeItem_To_TypeDesc (table : Table) : Nat → Option TypeItem → Res TypeDesc
  | 0, _ => .error .fuel
  | fuel + 1, item => do
    let item ← deref item
    if item.kind = TYPE_BASE then
      let p ← deref (get_basic item.primitive)
      .ok (.base p)
    else if item.kind = TYPE_KLASS then
      let path ←
        if item.pathindex ≥ 0 then do
          let s ← stringData table item.pathindex
          .ok (some s)
        else .ok none
      let type ← stringData table item.typeindex
      .ok (.klass path type)
    else if item.kind = TYPE_PROTO then
      let proto ← proto_decode table (TypeItem_To_TypeDesc table fuel)
        (Get table .ITEM_PROTO item.protoindex)
      .ok proto.desc
    else if item.kind = TYPE_ARRAY then
      let base ← TypeItem_To_TypeDesc table fuel (Get table .ITEM_TYPE item.array_typeindex)
      .ok (.array item.array_dims base)
    else if item.kind = TYPE_VARG then
      let base ← TypeItem_To_TypeDesc table fuel (Get table .ITEM_TYPE item.varg_typeindex)
      .ok (.varg base)
    else .error .assertion

def TypeListItem_To_Vector (table : Table) (fuel : Nat) (item : Option TypeListItem) :
    Res (List TypeDesc) := typelist_decode table (TypeItem_To_TypeDesc table fuel) item

def ProtoItem_To_TypeDesc (table : Table) (fuel : Nat) (item : Option ProtoItem) : Res ProtoDesc :=
  proto_decode table (TypeItem_To_TypeDesc table fuel) item

theorem stringData_of_holds {T : Table} {i : Int} {s : CString} (h : HoldsString T i s) :
    stringData T i = .ok s := by
  unfold HoldsString at h
  simp only [stringData, h, deref_some, ok_bind, StringItem_New, CString.ofData_append_nul]

theorem primitive_letter (type : BaseType) :
    (TypeItem_Primitive_New type.letter).primitive = type.letter := by
  cases type <;> decide

theorem mapM_decode_of_holds {T : Table} {decode : Option TypeItem → Res TypeDesc}
    {l : List TypeDesc}
    (hl : ∀ t ∈ l, ∀ i, HoldsType T i t → decode (Get T .ITEM_TYPE i) = .ok t)
    {index : List Int} (h : HoldsEach T index l) :
    (index.mapM fun i => decode (Get T .ITEM_TYPE i)) = .ok l := by
  induction l generalizing index with
  | nil =>
    rw [show index = [] from h]
    rfl
  | cons t l ih =>
    obtain ⟨i, rest, rfl, ht, hrest⟩ := h
    rw [List.mapM_cons, hl t (by simp) i ht, ok_bind,
      ih (fun u hu => hl u (by simp [hu])) hrest, ok_bind]
    rfl

theorem typelist_decode_of_holds {T : Table} {decode : Option TypeItem → Res TypeDesc} {i : Int}
    {l : List TypeDesc}
    (hl : ∀ t ∈ l, ∀ i, HoldsType T i t → decode (Get T .ITEM_TYPE i) = .ok t)
    (h : HoldsList T i l) :
    typelist_decode T decode (if i ≥ 0 then Get T .ITEM_TYPELIST i else none) = .ok l := by
  rcases h with ⟨rfl, rfl⟩ | ⟨hne, index, hget, heach⟩
  · rfl
  · rw [if_pos (get_nonneg hget), hget]
    exact mapM_decode_of_holds hl heach

theorem proto_decode_of_holds {T : Table} {decode : Option TypeItem → Res TypeDesc} {i : Int}
    {p : ProtoDesc}
    (harg : ∀ t ∈ p.arg, ∀ i, HoldsType T i t → decode (Get T .ITEM_TYPE i) = .ok t)
    (hret : ∀ t ∈ p.ret, ∀ i, HoldsType T i t → decode (Get T .ITEM_TYPE i) = .ok t)
    (h : HoldsProto T i p) : proto_decode T decode (Get T .ITEM_PROTO i) = .ok p := by
  obtain ⟨rindex, pindex, hget, hr, ha⟩ := h
  simp only [proto_decode, hget, deref_some, ok_bind, typelist_decode_of_holds hret hr,
    typelist_decode_of_holds harg ha]

/-- An item is converted to the descriptor it stands for. -/
theorem TypeItem_To_TypeDesc_of_holds {T : Table} {t : TypeDesc} {i : Int} {fuel : Nat}
    (h : HoldsType T i t) (hfuel : t.depth ≤ fuel) :
    TypeItem_To_TypeDesc T fuel (Get T .ITEM_TYPE i) = .ok t := by
  induction t using TypeDesc.induct generalizing i fuel with
  | base b =>
    rw [TypeDesc.depth] at hfuel
    obtain ⟨n, rfl⟩ : ∃ n, fuel = n + 1 := ⟨fuel - 1, by omega⟩
    have hletter := primitive_letter b
    rw [TypeItem_Primitive_New] at hletter
    rw [HoldsType] at h
    simp [TypeItem_To_TypeDesc, h, hletter]
  | klass path type =>
    rw [TypeDesc.depth] at hfuel
    obtain ⟨n, rfl⟩ : ∃ n, fuel = n + 1 := ⟨fuel - 1, by omega⟩
    obtain ⟨pathindex, typeindex, hget, hpath, htype⟩ := h
    have hkind : TYPE_KLASS ≠ TYPE_BASE := by decide
    simp only [TypeItem_To_TypeDesc, hget, deref_some, ok_bind, if_neg hkind, if_true,
      stringData_of_holds htype]
    cases path with
    | none =>
      rw [show pathindex = -1 from hpath, if_neg (by decide)]
    | some s =>
      rw [if_pos (get_nonneg hpath), stringData_of_holds hpath, ok_bind]
  | proto arg ret harg hret =>
    rw [TypeDesc.depth] at hfuel
    obtain ⟨n, rfl⟩ : ∃ n, fuel = n + 1 := ⟨fuel - 1, by omega⟩
    obtain ⟨protoindex, hget, hproto⟩ := holdsType_proto.mp h
    have hbase : TYPE_PROTO ≠ TYPE_BASE := by decide
    have hklass : TYPE_PROTO ≠ TYPE_KLASS := by decide
    have hargs : ∀ t ∈ arg, t.depth ≤ n := fun t ht =>
      (TypeDesc.depth_le_depthList ht).trans (by omega)
    have hrets : ∀ t ∈ ret, t.depth ≤ n := fun t ht =>
      (TypeDesc.depth_le_depthList ht).trans (by omega)
    have hdecode : proto_decode T (TypeItem_To_TypeDesc T n) (Get T .ITEM_PROTO protoindex) =
        .ok ⟨arg, ret⟩ :=
      proto_decode_of_holds (fun t ht i h => harg t ht h (hargs t ht))
        (fun t ht i h => hret t ht h (hrets t ht)) hproto
    simp only [TypeItem_To_TypeDesc, hget, deref_some, ok_bind, if_neg hbase, if_neg hklass,
      if_true, TypeItem.protoindex, hdecode]
    rfl
  | array dims t ih =>
    rw [TypeDesc.depth] at hfuel
    obtain ⟨n, rfl⟩ : ∃ n, fuel = n + 1 := ⟨fuel - 1, by omega⟩
    obtain ⟨typeindex, hget, ht⟩ := h
    have hbase : TYPE_ARRAY ≠ TYPE_BASE := by decide
    have hklass : TYPE_ARRAY ≠ TYPE_KLASS := by decide
    have hproto : TYPE_ARRAY ≠ TYPE_PROTO := by decide
    simp only [TypeItem_To_TypeDesc, hget, deref_some, ok_bind, if_neg hbase, if_neg hklass,
      if_neg hproto, if_true, TypeItem.array_typeindex, TypeItem.array_dims, BitVec.ofInt_toInt,
      ih ht (Nat.le_of_succ_le_succ hfuel)]
  | map | set => exact h.elim
  | varg t ih =>
    rw [TypeDesc.depth] at hfuel
    obtain ⟨n, rfl⟩ : ∃ n, fuel = n + 1 := ⟨fuel - 1, by omega⟩
    obtain ⟨typeindex, hget, ht⟩ := h
    have hbase : TYPE_VARG ≠ TYPE_BASE := by decide
    have hklass : TYPE_VARG ≠ TYPE_KLASS := by decide
    have hproto : TYPE_VARG ≠ TYPE_PROTO := by decide
    have harray : TYPE_VARG ≠ TYPE_ARRAY := by decide
    simp only [TypeItem_To_TypeDesc, hget, deref_some, ok_bind, if_neg hbase, if_neg hklass,
      if_neg hproto, if_neg harray, if_true, TypeItem.varg_typeindex,
      ih ht (Nat.le_of_succ_le_succ hfuel)]

theorem ProtoItem_To_TypeDesc_of_holds {T : Table} {p : ProtoDesc} {i : Int} {fuel : Nat}
    (h : HoldsProto T i p) (hfuel : p.desc.depth ≤ fuel + 1) :
    ProtoItem_To_TypeDesc T fuel (Get T .ITEM_PROTO i) = .ok p := by
  rw [ProtoDesc.desc, TypeDesc.depth] at hfuel
  refine proto_decode_of_holds ?_ ?_ h
  · exact fun t ht i h => TypeItem_To_TypeDesc_of_holds h
      ((TypeDesc.depth_le_depthList ht).trans (by omega))
  · exact fun t ht i h => TypeItem_To_TypeDesc_of_holds h
      ((TypeDesc.depth_le_depthList ht).trans (by omega))

/-- What the item at an index stands for, whatever its kind. -/
def Stands (T : Table) (i : Int) : (type : ItemKind) → ItemData type → Prop
  | .ITEM_STRING, data => IsString data
  | .ITEM_TYPE, _ => ∃ t, HoldsType T i t
  | .ITEM_TYPELIST, _ => ∃ l, l ≠ [] ∧ HoldsList T i l
  | .ITEM_PROTO, _ => ∃ p, HoldsProto T i p
  | _, _ => True

/-- The hash table matches the vectors, and every string, type, type list and
prototype item stands for one. -/
structure Sound (T : Table) : Prop where
  wf : WF T
  stands : ∀ type i data, Get T type i = some data → Stands T i type data

namespace Sound

variable {T : Table}

theorem string (hT : Sound T) : Shaped T .ITEM_STRING IsString :=
  fun i data h => hT.stands .ITEM_STRING i data h

theorem type (hT : Sound T) {i : Int} {item : TypeItem} (h : Get T .ITEM_TYPE i = some item) :
    ∃ t, HoldsType T i t := hT.stands .ITEM_TYPE i item h

theorem typelist (hT : Sound T) {i : Int} {item : TypeListItem}
    (h : Get T .ITEM_TYPELIST i = some item) : ∃ l, l ≠ [] ∧ HoldsList T i l :=
  hT.stands .ITEM_TYPELIST i item h

theorem proto (hT : Sound T) {i : Int} {item : ProtoItem}
    (h : Get T .ITEM_PROTO i = some item) : ∃ p, HoldsProto T i p :=
  hT.stands .ITEM_PROTO i item h

theorem index_string (hT : Sound T) (s : CString) :
    (Index T .ITEM_STRING (StringItem_New s) = -1 ∧ ∀ i, ¬ HoldsString T i s) ∨
      HoldsString T (Index T .ITEM_STRING (StringItem_New s)) s :=
  hT.wf.index_cases string_extensional hT.string rfl ⟨s, rfl⟩

theorem index_type (hT : Sound T) (item : TypeItem) :
    (Index T .ITEM_TYPE item = -1 ∧ ∀ i, Get T .ITEM_TYPE i ≠ some item) ∨
      Get T .ITEM_TYPE (Index T .ITEM_TYPE item) = some item :=
  hT.wf.index_cases type_extensional (fun _ _ _ => trivial) rfl trivial

theorem index_typelist (hT : Sound T) (item : TypeListItem) :
    (Index T .ITEM_TYPELIST item = -1 ∧ ∀ i, Get T .ITEM_TYPELIST i ≠ some item) ∨
      Get T .ITEM_TYPELIST (Index T .ITEM_TYPELIST item) = some item :=
  hT.wf.index_cases typelist_extensional (fun _ _ _ => trivial) rfl trivial

theorem index_proto (hT : Sound T) (item : ProtoItem) :
    (Index T .ITEM_PROTO item = -1 ∧ ∀ i, Get T .ITEM_PROTO i ≠ some item) ∨
      Get T .ITEM_PROTO (Index T .ITEM_PROTO item) = some item :=
  hT.wf.index_cases proto_extensional (fun _ _ _ => trivial) rfl trivial

theorem string_injective (hT : Sound T) {i j : Int} {s : CString} (hi : HoldsString T i s)
    (hj : HoldsString T j s) : i = j :=
  hT.wf.get_injective string_extensional hT.string rfl hi hj

theorem path_injective (hT : Sound T) {i j : Int} {path : Option CString}
    (hi : HoldsPath T i path) (hj : HoldsPath T j path) : i = j := by
  cases path with
  | none => rw [show i = -1 from hi, show j = -1 from hj]
  | some s => exact hT.string_injective hi hj

theorem type_item_injective (hT : Sound T) {i j : Int} {item : TypeItem}
    (hi : Get T .ITEM_TYPE i = some item) (hj : Get T .ITEM_TYPE j = some item) : i = j :=
  hT.wf.get_injective type_extensional (fun _ _ _ => trivial) rfl hi hj

theorem typelist_item_injective (hT : Sound T) {i j : Int} {item : TypeListItem}
    (hi : Get T .ITEM_TYPELIST i = some item) (hj : Get T .ITEM_TYPELIST j = some item) : i = j :=
  hT.wf.get_injective typelist_extensional (fun _ _ _ => trivial) rfl hi hj

theorem proto_item_injective (hT : Sound T) {i j : Int} {item : ProtoItem}
    (hi : Get T .ITEM_PROTO i = some item) (hj : Get T .ITEM_PROTO j = some item) : i = j :=
  hT.wf.get_injective proto_extensional (fun _ _ _ => trivial) rfl hi hj

theorem each_injective_of {l : List TypeDesc}
    (hl : ∀ t ∈ l, ∀ i j, HoldsType T i t → HoldsType T j t → i = j) {index index' : List Int}
    (h : HoldsEach T index l) (h' : HoldsEach T index' l) : index = index' := by
  induction l generalizing index index' with
  | nil => rw [show index = [] from h, show index' = [] from h']
  | cons t l ih =>
    obtain ⟨i, rest, rfl, ht, hrest⟩ := h
    obtain ⟨i', rest', rfl, ht', hrest'⟩ := h'
    rw [hl t (by simp) i i' ht ht', ih (fun u hu => hl u (by simp [hu])) hrest hrest']

theorem list_injective_of (hT : Sound T) {l : List TypeDesc}
    (hl : ∀ t ∈ l, ∀ i j, HoldsType T i t → HoldsType T j t → i = j) {i j : Int}
    (hi : HoldsList T i l) (hj : HoldsList T j l) : i = j := by
  rcases hi with ⟨rfl, rfl⟩ | ⟨hne, index, hget, heach⟩
  · exact (holdsList_nil.mp hj).symm
  · obtain ⟨index', hget', heach'⟩ := (holdsList_of_ne hne).mp hj
    rw [each_injective_of hl heach heach'] at hget
    exact hT.typelist_item_injective hget hget'

/-- A descriptor has one index. -/
theorem type_injective (hT : Sound T) {i j : Int} {t : TypeDesc} (hi : HoldsType T i t)
    (hj : HoldsType T j t) : i = j := by
  induction t using TypeDesc.induct generalizing i j with
  | base => exact hT.type_item_injective hi hj
  | klass path type =>
    obtain ⟨pathindex, typeindex, hget, hpath, htype⟩ := hi
    obtain ⟨pathindex', typeindex', hget', hpath', htype'⟩ := hj
    rw [hT.path_injective hpath hpath', hT.string_injective htype htype'] at hget
    exact hT.type_item_injective hget hget'
  | proto arg ret harg hret =>
    obtain ⟨k, hget, rindex, pindex, hproto, hr, ha⟩ := holdsType_proto.mp hi
    obtain ⟨k', hget', rindex', pindex', hproto', hr', ha'⟩ := holdsType_proto.mp hj
    rw [hT.list_injective_of (fun t ht i j => hret t ht) hr hr',
      hT.list_injective_of (fun t ht i j => harg t ht) ha ha'] at hproto
    rw [hT.proto_item_injective hproto hproto'] at hget
    exact hT.type_item_injective hget hget'
  | array dims t ih =>
    obtain ⟨typeindex, hget, ht⟩ := hi
    obtain ⟨typeindex', hget', ht'⟩ := hj
    rw [ih ht ht'] at hget
    exact hT.type_item_injective hget hget'
  | map | set => exact hi.elim
  | varg t ih =>
    obtain ⟨typeindex, hget, ht⟩ := hi
    obtain ⟨typeindex', hget', ht'⟩ := hj
    rw [ih ht ht'] at hget
    exact hT.type_item_injective hget hget'

theorem each_injective (hT : Sound T) {index index' : List Int} {l : List TypeDesc}
    (h : HoldsEach T index l) (h' : HoldsEach T index' l) : index = index' :=
  each_injective_of (fun _ _ _ _ => hT.type_injective) h h'

theorem list_injective (hT : Sound T) {i j : Int} {l : List TypeDesc} (hi : HoldsList T i l)
    (hj : HoldsList T j l) : i = j :=
  hT.list_injective_of (fun _ _ _ _ => hT.type_injective) hi hj

end Sound

/-- The descriptors and lists that a table has an item for. -/
def held (T : Table) : Store where
  types := {t | ∃ i, HoldsType T i t}
  lists := {l | l ≠ [] ∧ ∃ i, HoldsList T i l}

theorem mem_held_of_each {T : Table} {index : List Int} {l : List TypeDesc}
    (h : HoldsEach T index l) : ∀ t ∈ l, t ∈ (held T).types := by
  induction l generalizing index with
  | nil => simp
  | cons u l ih =>
    obtain ⟨i, rest, _, hu, hrest⟩ := h
    intro t ht
    rcases List.mem_cons.mp ht with rfl | ht
    · exact ⟨i, hu⟩
    · exact ih hrest t ht

theorem mem_held_of_list {T : Table} {i : Int} {l : List TypeDesc} (h : HoldsList T i l) :
    ∀ t ∈ l, t ∈ (held T).types := by
  rcases h with ⟨rfl, _⟩ | ⟨_, _, _, heach⟩
  · simp
  · exact mem_held_of_each heach

theorem held_closed (T : Table) : (held T).Closed where
  within := by
    intro t u ht hu
    induction hu with
    | self => exact ht
    | arg hv _ ih =>
      obtain ⟨i, hi⟩ := ht
      obtain ⟨_, _, _, _, _, _, ha⟩ := holdsType_proto.mp hi
      exact ih (mem_held_of_list ha _ hv)
    | ret hv _ ih =>
      obtain ⟨i, hi⟩ := ht
      obtain ⟨_, _, _, _, _, hr, _⟩ := holdsType_proto.mp hi
      exact ih (mem_held_of_list hr _ hv)
    | array _ ih | varg _ ih =>
      obtain ⟨i, _, _, hi⟩ := ht
      exact ih ⟨_, hi⟩
    | key | val | set =>
      obtain ⟨i, hi⟩ := ht
      exact hi.elim
  arg := by
    rintro arg ret ⟨i, hi⟩ hne
    obtain ⟨_, _, _, _, _, _, ha⟩ := holdsType_proto.mp hi
    exact ⟨hne, _, ha⟩
  ret := by
    rintro arg ret ⟨i, hi⟩ hne
    obtain ⟨_, _, _, _, _, hr, _⟩ := holdsType_proto.mp hi
    exact ⟨hne, _, hr⟩
  nonempty h := h.1
  member := by
    rintro l t ⟨_, i, hl⟩ ht
    exact mem_held_of_list hl t ht

end koala.image
