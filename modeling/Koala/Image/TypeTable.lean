import Koala.Image.Item

open koala.atomtable koala.typedesc

namespace koala.image

set_option linter.style.nameCheck false

example (i j : Int) (data1 : StringItem) (data2 : TypeItem) :
    Item_Equal ⟨.ITEM_STRING, i, data1⟩ ⟨.ITEM_TYPE, j, data2⟩ = false := by
  simp [Item_Equal]

/-- A string item made by `StringItem_New`. -/
def IsString (item : StringItem) : Prop := ∃ s : CString, item = StringItem_New s

theorem string_extensional : Extensional Item_Hash Item_Equal .ITEM_STRING IsString where
  equal_type := by
    rintro ⟨type, i, data⟩ j found h
    cases type <;> first | rfl | simp [Item_Equal] at h
  equal_iff := by
    rintro i j _ _ ⟨s, rfl⟩ ⟨s', rfl⟩
    simp only [Item_Equal, stringitem_equal, StringItem_New, CString.ofData_append_nul,
      decide_eq_true_eq]
    exact ⟨fun h => by rw [h], StringItem_New_injective⟩
  hash_index _ _ _ := rfl

theorem type_extensional : Extensional Item_Hash Item_Equal .ITEM_TYPE fun _ => True where
  equal_type := by
    rintro ⟨type, i, data⟩ j found h
    cases type <;> first | rfl | simp [Item_Equal] at h
  equal_iff := by
    rintro i j ⟨kind, pathindex, typeindex⟩ ⟨kind', pathindex', typeindex'⟩ _ _
    simp only [Item_Equal, typeitem_equal, TypeItem.mk.injEq]
    split <;> [skip; split <;> [skip; split]] <;> simp_all
  hash_index _ _ _ := rfl

theorem typelist_extensional :
    Extensional Item_Hash Item_Equal .ITEM_TYPELIST fun _ => True where
  equal_type := by
    rintro ⟨type, i, data⟩ j found h
    cases type <;> first | rfl | simp [Item_Equal] at h
  equal_iff := by
    rintro i j ⟨index⟩ ⟨index'⟩ _ _
    simp [Item_Equal, typelistitem_equal]
  hash_index _ _ _ := rfl

theorem proto_extensional : Extensional Item_Hash Item_Equal .ITEM_PROTO fun _ => True where
  equal_type := by
    rintro ⟨type, i, data⟩ j found h
    cases type <;> first | rfl | simp [Item_Equal] at h
  equal_iff := by
    rintro i j ⟨rindex, pindex⟩ ⟨rindex', pindex'⟩ _ _
    simp [Item_Equal, protoitem_equal]
  hash_index _ _ _ := rfl

theorem float_eq_comm (f g : BitVec 64) : float_eq f g = float_eq g f := by
  unfold float_eq
  rw [Bool.and_comm (!isNaN f), Bool.and_comm (decide (f.toNat % 2 ^ 63 = 0)),
    decide_eq_decide.mpr (eq_comm (a := f) (b := g))]

theorem constitem_equal_comm (item1 item2 : ConstItem) :
    constitem_equal item1 item2 = constitem_equal item2 item1 := by
  obtain ⟨addr1, val1⟩ := item1
  obtain ⟨addr2, val2⟩ := item2
  cases val1 <;> cases val2 <;> simp only [constitem_equal, eq_comm, float_eq_comm]

/-- The comparison of two items of a kind. -/
def item_equal (type : ItemKind) (item1 item2 : ItemData type) : Bool :=
  Item_Equal ⟨type, 0, item1⟩ ⟨type, 0, item2⟩

/-- The hash of an item. -/
def item_hash (type : ItemKind) (item : ItemData type) : Nat := Item_Hash ⟨type, 0, item⟩

theorem Item_Equal_eq (type : ItemKind) (i j : Int) (x y : ItemData type) :
    Item_Equal ⟨type, i, x⟩ ⟨type, j, y⟩ = item_equal type x y := by
  cases type <;> rfl

theorem Item_Hash_eq (type : ItemKind) (i : Int) (x : ItemData type) :
    Item_Hash ⟨type, i, x⟩ = item_hash type x := by
  cases type <;> rfl

theorem Item_Equal_of_ne {type type' : ItemKind} (h : type ≠ type') (i j : Int)
    (x : ItemData type) (y : ItemData type') :
    Item_Equal ⟨type, i, x⟩ ⟨type', j, y⟩ = false := by
  cases type <;> cases type' <;> first | rfl | exact absurd rfl h

theorem item_equal_comm (type : ItemKind) (x y : ItemData type) :
    item_equal type x y = item_equal type y x := by
  cases type with
  | ITEM_STRING => exact decide_eq_decide.mpr eq_comm
  | ITEM_TYPE =>
    simp only [item_equal, Item_Equal, typeitem_equal, ne_eq, eq_comm (a := x.kind),
      eq_comm (a := x.pathindex), eq_comm (a := x.typeindex)]
  | ITEM_TYPELIST => exact decide_eq_decide.mpr eq_comm
  | ITEM_PROTO =>
    simp only [item_equal, Item_Equal, protoitem_equal, eq_comm (a := x.rindex),
      eq_comm (a := x.pindex)]
  | ITEM_CONST => exact constitem_equal_comm x y
  | _ => rfl

theorem Item_Equal_comm (e e' : Entry) : Item_Equal e e' = Item_Equal e' e := by
  obtain ⟨type, i, x⟩ := e
  obtain ⟨type', j, y⟩ := e'
  by_cases htype : type = type'
  · subst htype
    rw [Item_Equal_eq, Item_Equal_eq, item_equal_comm]
  · rw [Item_Equal_of_ne htype, Item_Equal_of_ne (Ne.symm htype)]

/-- No two items of a list could be taken for each other. -/
def Differing (type : ItemKind) (items : List (ItemData type)) : Prop :=
  items.Pairwise fun x y => item_equal type x y = false

/-- Items of a table whose hashes agree are not equal. -/
theorem items_pairwise {T : Table} (hwf : WF T) {type : ItemKind} (hunique : type.unique = true) :
    (T.items type).Pairwise fun x y => item_hash type x = item_hash type y →
      item_equal type x y = false := by
  rw [List.pairwise_iff_getElem]
  intro i j hi hj hij hhash
  have hgi : Get T type i = some (T.items type)[i] := by
    rw [Get, AtomTable_Get_of_nonneg, List.getElem?_eq_getElem hi]
  have hgj : Get T type j = some (T.items type)[j] := by
    rw [Get, AtomTable_Get_of_nonneg, List.getElem?_eq_getElem hj]
  have hne : (i : Int) ≠ j := by omega
  have hdistinct := hwf.items_distinct Item_Equal_comm hunique hne hgi hgj
  rw [Item_Hash_eq, Item_Hash_eq, Item_Equal_eq] at hdistinct
  exact hdistinct hhash

/-- Beside the constants, equal items have equal hashes. -/
theorem item_hash_of_equal {type : ItemKind} (htype : type ≠ .ITEM_CONST) {x y : ItemData type}
    (h : item_equal type x y = true) : item_hash type x = item_hash type y := by
  cases type with
  | ITEM_CONST => exact absurd rfl htype
  | ITEM_STRING => exact congrArg hash_string (of_decide_eq_true h)
  | ITEM_TYPE =>
    rw [(type_extensional.equal_iff 0 0 x y trivial trivial).mp h]
  | ITEM_TYPELIST =>
    rw [(typelist_extensional.equal_iff 0 0 x y trivial trivial).mp h]
  | ITEM_PROTO =>
    rw [(proto_extensional.equal_iff 0 0 x y trivial trivial).mp h]
  | _ => rfl

/-- The items of a table other than constants differ. -/
theorem differing_items {T : Table} (hwf : WF T) {type : ItemKind} (hunique : type.unique = true)
    (htype : type ≠ .ITEM_CONST) : Differing type (T.items type) := by
  refine (items_pairwise hwf hunique).imp fun {x y} h => ?_
  by_contra hne
  have hequal : item_equal type x y = true := by simpa using hne
  exact hne (h (item_hash_of_equal htype hequal))

def StringItem_Get (table : Table) (str : CString) : Int :=
  Index table .ITEM_STRING (StringItem_New str)

def StringItem_Set (table : Table) (str : CString) : Res (Int × Table) :=
  let index := StringItem_Get table str
  if index < 0 then Append table .ITEM_STRING (StringItem_New str)
  else .ok (index, table)

/-- The end of `TypeListItem_Get`: `none` when some member was not found. -/
def typelist_index (table : Table) : Option (List Int) → Int
  | none => -1
  | some [] => -1
  | some (index :: indexes) => Index table .ITEM_TYPELIST ⟨index :: indexes⟩

def ProtoItem_Get (table : Table) (rindex pindex : Int) : Int :=
  Index table .ITEM_PROTO ⟨rindex, pindex⟩

/-- The index of a class name, and -1 for the null pointer. -/
def path_get (table : Table) : Option CString → Int
  | none => -1
  | some str => StringItem_Get table str

mutual

def TypeItem_Get (table : Table) : TypeDesc → Res Int
  | .base type => .ok (Index table .ITEM_TYPE ⟨TYPE_BASE, type.letter.toNat, 0⟩)
  | .klass path type =>
    let pathindex := path_get table path
    if path.isSome && pathindex < 0 then .ok pathindex
    else
      let typeindex := StringItem_Get table type
      if typeindex < 0 then .ok typeindex
      else .ok (Index table .ITEM_TYPE ⟨TYPE_KLASS, pathindex, typeindex⟩)
  | .proto arg ret => do
    let rindex := typelist_index table (← typelist_get table ret)
    let pindex := typelist_index table (← typelist_get table arg)
    .ok (Index table .ITEM_TYPE ⟨TYPE_PROTO, ProtoItem_Get table rindex pindex, 0⟩)
  | .array dims base => do
    let typeindex ← TypeItem_Get table base
    .ok (Index table .ITEM_TYPE ⟨TYPE_ARRAY, dims.toInt, typeindex⟩)
  | .map _ _ => .error .assertion
  | .set _ => .error .assertion
  | .varg base => do
    let typeindex ← TypeItem_Get table base
    .ok (Index table .ITEM_TYPE ⟨TYPE_VARG, typeindex, 0⟩)

/-- The loop of `TypeListItem_Get`, which stops at the first member that is not
found. -/
def typelist_get (table : Table) : List TypeDesc → Res (Option (List Int))
  | [] => .ok (some [])
  | t :: desc => do
    let index ← TypeItem_Get table t
    if index < 0 then .ok none
    else
      let indexes ← typelist_get table desc
      .ok (indexes.map (index :: ·))

end

def TypeListItem_Get (table : Table) (desc : List TypeDesc) : Res Int := do
  .ok (typelist_index table (← typelist_get table desc))

/-- The end of `TypeListItem_Set`, with the loop over the members given. -/
def typelist_append (table : Table) (desc : List TypeDesc)
    (loop : Res (List Int × Table)) : Res (Int × Table) :=
  if desc.length ≤ 0 then .ok (-1, table)
  else do
    let index ← TypeListItem_Get table desc
    if index < 0 then
      let (indexes, table) ← loop
      Append table .ITEM_TYPELIST ⟨indexes⟩
    else .ok (index, table)

/-- The end of `ProtoItem_Set`, with the indices of the two lists given. -/
def proto_append (table : Table) (rindex pindex : Int) : Res (Int × Table) :=
  let index := ProtoItem_Get table rindex pindex
  if index < 0 then Append table .ITEM_PROTO ⟨rindex, pindex⟩
  else .ok (index, table)

/-- Storing a class path, and -1 for the null pointer. -/
def path_set (table : Table) : Option CString → Res (Int × Table)
  | none => .ok (-1, table)
  | some str => do
    let (pathindex, table) ← StringItem_Set table str
    if 0 ≤ pathindex then .ok (pathindex, table) else .error .assertion

mutual

def TypeItem_Set (table : Table) (desc : TypeDesc) : Res (Int × Table) := do
  let index ← TypeItem_Get table desc
  if index < 0 then
    match desc with
    | .base type => Append table .ITEM_TYPE (TypeItem_Primitive_New type.letter)
    | .klass path type =>
      let (pathindex, table) ← path_set table path
      let (typeindex, table) ← path_set table (some type)
      Append table .ITEM_TYPE (TypeItem_Klass_New pathindex typeindex)
    | .proto arg ret =>
      -- ProtoItem_Set
      let (rindex, table) ← typelist_append table ret (typelist_set table ret)
      let (pindex, table) ← typelist_append table arg (typelist_set table arg)
      let (protoindex, table) ← proto_append table rindex pindex
      Append table .ITEM_TYPE (TypeItem_Proto_New protoindex)
    | .array dims base =>
      let (typeindex, table) ← TypeItem_Set table base
      Append table .ITEM_TYPE (TypeItem_Array_New dims typeindex)
    | .map _ _ => .error .assertion
    | .set _ => .error .assertion
    | .varg base =>
      let (typeindex, table) ← TypeItem_Set table base
      Append table .ITEM_TYPE (TypeItem_Varg_New typeindex)
  else .ok (index, table)

/-- The loop of `TypeListItem_Set`. -/
def typelist_set (table : Table) (desc : List TypeDesc) : Res (List Int × Table) :=
  match desc with
  | [] => .ok ([], table)
  | t :: desc => do
    let (index, table) ← TypeItem_Set table t
    if index < 0 then .error .assertion
    else
      let (indexes, table) ← typelist_set table desc
      .ok (index :: indexes, table)

end

def TypeListItem_Set (table : Table) (desc : List TypeDesc) : Res (Int × Table) :=
  typelist_append table desc (typelist_set table desc)

def ProtoItem_Set (table : Table) (proto : ProtoDesc) : Res (Int × Table) := do
  let (rindex, table) ← TypeListItem_Set table proto.ret
  let (pindex, table) ← TypeListItem_Set table proto.arg
  proto_append table rindex pindex

end koala.image
