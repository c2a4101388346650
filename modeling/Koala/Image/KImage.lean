import Koala.Image.Total

open koala.atomtable koala.typedesc

namespace koala.image

set_option linter.style.nameCheck false

def PKG_NAME_MAX : Nat := 64

def ENDIAN_TAG : Nat := 0x1a2b3c4d

def ITEM_MAX : Nat := 16

structure ImageHeader where
  magic : List UInt8
  version : List UInt8
  file_size : Nat
  header_size : Nat
  endian_tag : Nat
  map_offset : Nat
  map_size : Nat
  crc32 : Nat
  pkgname : List UInt8
  deriving DecidableEq

/-- `sizeof(ImageHeader)`. -/
def sizeofImageHeader : Nat := 96

/-- `strncpy` into a zeroed buffer of `size` bytes, at most `n` bytes. -/
def strncpy (size n : Nat) (name : CString) : List UInt8 :=
  let copied := name.bytes.take n
  copied ++ List.replicate (size - copied.length) 0

def init_header (name : Option CString) : ImageHeader where
  magic := ['K'.toUInt8, 'L'.toUInt8, 'C'.toUInt8, 0]
  version := ['0'.toUInt8, '1'.toUInt8, '0'.toUInt8, '1'.toUInt8]
  file_size := 0
  header_size := sizeofImageHeader
  endian_tag := ENDIAN_TAG
  map_offset := sizeofImageHeader
  map_size := ITEM_MAX
  crc32 := 0
  pkgname :=
    match name with
    | some name => strncpy PKG_NAME_MAX (PKG_NAME_MAX - 1) name
    | none => List.replicate PKG_NAME_MAX 0

structure KImage where
  header : ImageHeader
  table : Table

def KImage_New (pkgname : Option CString) : KImage := ⟨init_header pkgname, AtomTable_New⟩

def ConstItem_Get (table : Table) (item : ConstItem) : Int := Index table .ITEM_CONST item

/-- Looking a constant up, with the key at address `key`, and storing it at
address `item` when it is not found. -/
def constitem_set (key item : Nat) (table : Table) (val : ConstVal) : Res (Int × Table) :=
  let index := ConstItem_Get table ⟨key, val⟩
  if index < 0 then Append table .ITEM_CONST ⟨item, val⟩ else .ok (index, table)

def codeitem_set (table : Table) (codes : List UInt8) : Res (Int × Table) :=
  Append table .ITEM_CODE ⟨codes⟩

section adds

variable (key item : Nat) (image : KImage)

def KImage_Add_Integer (val : BitVec 64) : Res (Int × KImage) := do
  let (index, table) ← constitem_set key item image.table (.CONST_INT val)
  .ok (index, { image with table })

def KImage_Add_Float (val : BitVec 64) : Res (Int × KImage) := do
  let (index, table) ← constitem_set key item image.table (.CONST_FLOAT val)
  .ok (index, { image with table })

def KImage_Add_Bool (val : BitVec 32) : Res (Int × KImage) := do
  let (index, table) ← constitem_set key item image.table (.CONST_BOOL val)
  .ok (index, { image with table })

def KImage_Add_String (val : CString) : Res (Int × KImage) := do
  let (idx, table) ← StringItem_Set image.table val
  if 0 ≤ idx then
    let (index, table) ← constitem_set key item table (.CONST_STRING idx)
    .ok (index, { image with table })
  else .error .assertion

def KImage_Add_UChar (val : BitVec 32) : Res (Int × KImage) := do
  let (index, table) ← constitem_set key item image.table (.CONST_UCHAR val)
  .ok (index, { image with table })

def KImage_Add_Var (name : CString) (desc : TypeDesc) (konst : BitVec 32) : Res KImage := do
  let (type_index, table) ← TypeItem_Set image.table desc
  let (name_index, table) ← StringItem_Set table name
  let (_, table) ← Append table .ITEM_VAR ⟨name_index, type_index, konst⟩
  .ok { image with table }

def KImage_Add_LocVar (name : CString) (desc : TypeDesc) (pos : BitVec 32) (index : Int) :
    Res KImage := do
  let (typeindex, table) ← TypeItem_Set image.table desc
  let (nameindex, table) ← StringItem_Set table name
  let (_, table) ← Append table .ITEM_LOCVAR ⟨nameindex, typeindex, pos, index⟩
  .ok { image with table }

def KImage_Add_Func (name : CString) (proto : ProtoDesc) (codes : List UInt8) :
    Res (Int × KImage) := do
  let (nameindex, table) ← StringItem_Set image.table name
  let (protoindex, table) ← ProtoItem_Set table proto
  let (codeindex, table) ← codeitem_set table codes
  let (index, table) ← Append table .ITEM_FUNC ⟨nameindex, protoindex, codeindex⟩
  .ok (index, { image with table })

def KImage_Add_Class (name : CString) (supers : List TypeDesc) : Res KImage := do
  let (classindex, table) ← TypeItem_Set image.table (.klass none name)
  let (superindex, table) ← TypeListItem_Set table supers
  let (_, table) ← Append table .ITEM_CLASS ⟨classindex, superindex⟩
  .ok { image with table }

def KImage_Add_Field (clazz name : CString) (desc : TypeDesc) : Res KImage := do
  let (classindex, table) ← TypeItem_Set image.table (.klass none clazz)
  let (nameindex, table) ← StringItem_Set table name
  let (typeindex, table) ← TypeItem_Set table desc
  let (_, table) ← Append table .ITEM_FIELD ⟨classindex, nameindex, typeindex⟩
  .ok { image with table }

def KImage_Add_Method (klazz name : CString) (proto : ProtoDesc) (codes : List UInt8) :
    Res (Int × KImage) := do
  let (classindex, table) ← TypeItem_Set image.table (.klass none klazz)
  let (nameindex, table) ← StringItem_Set table name
  let (protoindex, table) ← ProtoItem_Set table proto
  let (codeindex, table) ← codeitem_set table codes
  let (index, table) ← Append table .ITEM_METHOD ⟨classindex, nameindex, protoindex, codeindex⟩
  .ok (index, { image with table })

def KImage_Add_Trait (name : CString) (traits : List TypeDesc) : Res KImage := do
  let (classindex, table) ← TypeItem_Set image.table (.klass none name)
  let (traitsindex, table) ← TypeListItem_Set table traits
  let (_, table) ← Append table .ITEM_TRAIT ⟨classindex, traitsindex⟩
  .ok { image with table }

/-- The class index of a native function, -1 when it belongs to no class. -/
def nfunc_classindex (table : Table) : Option CString → Res (Int × Table)
  | none => .ok (-1, table)
  | some klazz => TypeItem_Set table (.klass none klazz)

def KImage_Add_NFunc (klazz : Option CString) (name : CString) (proto : ProtoDesc) :
    Res KImage := do
  let (classindex, table) ← nfunc_classindex image.table klazz
  let (nameindex, table) ← StringItem_Set table name
  let (protoindex, table) ← ProtoItem_Set table proto
  let (_, table) ← Append table .ITEM_NFUNC ⟨classindex, nameindex, protoindex⟩
  .ok { image with table }

def KImage_Add_IMeth (trait name : CString) (proto : ProtoDesc) : Res KImage := do
  let (classindex, table) ← TypeItem_Set image.table (.klass none trait)
  let (nameindex, table) ← StringItem_Set table name
  let (protoindex, table) ← ProtoItem_Set table proto
  let (_, table) ← Append table .ITEM_IMETH ⟨classindex, nameindex, protoindex⟩
  .ok { image with table }

end adds

/-- A call of one of the `KImage_Add_*` functions. -/
inductive Add where
  | Integer (val : BitVec 64)
  | Float (val : BitVec 64)
  | Bool (val : BitVec 32)
  | String (val : CString)
  | UChar (val : BitVec 32)
  | Var (name : CString) (desc : TypeDesc) (konst : BitVec 32)
  | LocVar (name : CString) (desc : TypeDesc) (pos : BitVec 32) (index : Int)
  | Func (name : CString) (proto : ProtoDesc) (codes : List UInt8)
  | Class (name : CString) (supers : List TypeDesc)
  | Field (clazz name : CString) (desc : TypeDesc)
  | Method (klazz name : CString) (proto : ProtoDesc) (codes : List UInt8)
  | Trait (name : CString) (traits : List TypeDesc)
  | NFunc (klazz : Option CString) (name : CString) (proto : ProtoDesc)
  | IMeth (trait name : CString) (proto : ProtoDesc)

/-- Where the constants of a run live: the key of the `n`th call, on the stack,
and the item that it may allocate. -/
structure Memory where
  key : Nat → Nat
  item : Nat → Nat
  item_injective : Function.Injective item
  key_ne_item : ∀ m n, key m ≠ item n

/-- Every key at an even address and every item at an odd one. -/
def Memory.evenOdd : Memory where
  key n := 2 * n
  item n := 2 * n + 1
  item_injective m n h := by
    have heq : 2 * m + 1 = 2 * n + 1 := h
    omega
  key_ne_item m n := by omega

/-- A void function returns no index. -/
def noindex (r : Res KImage) : Res (Option Int × KImage) := r.map fun image => (none, image)

def withindex (r : Res (Int × KImage)) : Res (Option Int × KImage) :=
  r.map fun (index, image) => (some index, image)

def KImage.add (mem : Memory) (n : Nat) (image : KImage) : Add → Res (Option Int × KImage)
  | .Integer val => withindex (KImage_Add_Integer (mem.key n) (mem.item n) image val)
  | .Float val => withindex (KImage_Add_Float (mem.key n) (mem.item n) image val)
  | .Bool val => withindex (KImage_Add_Bool (mem.key n) (mem.item n) image val)
  | .String val => withindex (KImage_Add_String (mem.key n) (mem.item n) image val)
  | .UChar val => withindex (KImage_Add_UChar (mem.key n) (mem.item n) image val)
  | .Var name desc konst => noindex (KImage_Add_Var image name desc konst)
  | .LocVar name desc pos index => noindex (KImage_Add_LocVar image name desc pos index)
  | .Func name proto codes => withindex (KImage_Add_Func image name proto codes)
  | .Class name supers => noindex (KImage_Add_Class image name supers)
  | .Field clazz name desc => noindex (KImage_Add_Field image clazz name desc)
  | .Method klazz name proto codes => withindex (KImage_Add_Method image klazz name proto codes)
  | .Trait name traits => noindex (KImage_Add_Trait image name traits)
  | .NFunc klazz name proto => noindex (KImage_Add_NFunc image klazz name proto)
  | .IMeth trait name proto => noindex (KImage_Add_IMeth image trait name proto)

/-- A sequence of calls, the first of them the `n`th of the run. -/
def KImage.run (mem : Memory) (n : Nat) (image : KImage) : List Add → Res KImage
  | [] => .ok image
  | a :: adds => do
    let (_, image) ← image.add mem n a
    KImage.run mem (n + 1) image adds

end koala.image

open koala.atomtable koala.typedesc koala.typedesc.Store

namespace koala.image

set_option linter.style.nameCheck false

abbrev Item := (type : ItemKind) × ItemData type

def Item.ofKind (type : ItemKind) (item : Item) : Option (ItemData type) :=
  if h : item.1 = type then some (h ▸ item.2) else none

@[simp] theorem Item.ofKind_self (type : ItemKind) (data : ItemData type) :
    Item.ofKind type ⟨type, data⟩ = some data := by simp [Item.ofKind]

theorem Item.ofKind_of_ne {type other : ItemKind} (data : ItemData type) (h : type ≠ other) :
    Item.ofKind other ⟨type, data⟩ = none := by simp [Item.ofKind, h]

/-- A call with the types it stores in place of the types it was given, and the
store after it. -/
noncomputable def Add.stored (S : Store) : Add → Add × Store
  | .Var name desc konst =>
    let t := S.put desc
    (.Var name t.1 konst, t.2)
  | .LocVar name desc pos index =>
    let t := S.put desc
    (.LocVar name t.1 pos index, t.2)
  | .Func name proto codes =>
    let p := S.putProto proto
    (.Func name p.1 codes, p.2)
  | .Class name supers =>
    let l := (S.addType (.klass none name)).putTypes supers
    (.Class name l.1, l.2)
  | .Field clazz name desc =>
    let t := (S.addType (.klass none clazz)).put desc
    (.Field clazz name t.1, t.2)
  | .Method klazz name proto codes =>
    let p := (S.addType (.klass none klazz)).putProto proto
    (.Method klazz name p.1 codes, p.2)
  | .Trait name traits =>
    let l := (S.addType (.klass none name)).putTypes traits
    (.Trait name l.1, l.2)
  | .NFunc none name proto =>
    let p := S.putProto proto
    (.NFunc none name p.1, p.2)
  | .NFunc (some klazz) name proto =>
    let p := (S.addType (.klass none klazz)).putProto proto
    (.NFunc (some klazz) name p.1, p.2)
  | .IMeth trait name proto =>
    let p := (S.addType (.klass none trait)).putProto proto
    (.IMeth trait name p.1, p.2)
  | .Integer val => (.Integer val, S)
  | .Float val => (.Float val, S)
  | .Bool val => (.Bool val, S)
  | .String val => (.String val, S)
  | .UChar val => (.UChar val, S)

/-- The class of a native function, whose index is -1 when there is none. -/
def HoldsClass (T : Table) (i : Int) : Option CString → Prop
  | none => i = -1
  | some klazz => HoldsType T i (.klass none klazz)

/-- The items a call appends, beside those that describe types: what their
fields stand for in `T`. A constant that is found appends none. -/
def Records (T : Table) : Add → List Item → Prop
  | .Integer val, new => new = [] ∨ ∃ addr, new = [⟨.ITEM_CONST, ⟨addr, .CONST_INT val⟩⟩]
  | .Float val, new => new = [] ∨ ∃ addr, new = [⟨.ITEM_CONST, ⟨addr, .CONST_FLOAT val⟩⟩]
  | .Bool val, new => new = [] ∨ ∃ addr, new = [⟨.ITEM_CONST, ⟨addr, .CONST_BOOL val⟩⟩]
  | .String val, new => ∃ index, HoldsString T index val ∧
      (new = [] ∨ ∃ addr, new = [⟨.ITEM_CONST, ⟨addr, .CONST_STRING index⟩⟩])
  | .UChar val, new => new = [] ∨ ∃ addr, new = [⟨.ITEM_CONST, ⟨addr, .CONST_UCHAR val⟩⟩]
  | .Var name desc konst, new => ∃ nameindex typeindex,
      new = [⟨.ITEM_VAR, ⟨nameindex, typeindex, konst⟩⟩] ∧
      HoldsString T nameindex name ∧ HoldsType T typeindex desc
  | .LocVar name desc pos index, new => ∃ nameindex typeindex,
      new = [⟨.ITEM_LOCVAR, ⟨nameindex, typeindex, pos, index⟩⟩] ∧
      HoldsString T nameindex name ∧ HoldsType T typeindex desc
  | .Func name proto codes, new => ∃ nameindex protoindex codeindex,
      new = [⟨.ITEM_CODE, ⟨codes⟩⟩, ⟨.ITEM_FUNC, ⟨nameindex, protoindex, codeindex⟩⟩] ∧
      HoldsString T nameindex name ∧ HoldsProto T protoindex proto ∧
      Get T .ITEM_CODE codeindex = some ⟨codes⟩
  | .Class name supers, new => ∃ classindex superindex,
      new = [⟨.ITEM_CLASS, ⟨classindex, superindex⟩⟩] ∧
      HoldsType T classindex (.klass none name) ∧ HoldsList T superindex supers
  | .Field clazz name desc, new => ∃ classindex nameindex typeindex,
      new = [⟨.ITEM_FIELD, ⟨classindex, nameindex, typeindex⟩⟩] ∧
      HoldsType T classindex (.klass none clazz) ∧ HoldsString T nameindex name ∧
      HoldsType T typeindex desc
  | .Method klazz name proto codes, new => ∃ classindex nameindex protoindex codeindex,
      new = [⟨.ITEM_CODE, ⟨codes⟩⟩,
        ⟨.ITEM_METHOD, ⟨classindex, nameindex, protoindex, codeindex⟩⟩] ∧
      HoldsType T classindex (.klass none klazz) ∧ HoldsString T nameindex name ∧
      HoldsProto T protoindex proto ∧ Get T .ITEM_CODE codeindex = some ⟨codes⟩
  | .Trait name traits, new => ∃ classindex traitsindex,
      new = [⟨.ITEM_TRAIT, ⟨classindex, traitsindex⟩⟩] ∧
      HoldsType T classindex (.klass none name) ∧ HoldsList T traitsindex traits
  | .NFunc klazz name proto, new => ∃ classindex nameindex protoindex,
      new = [⟨.ITEM_NFUNC, ⟨classindex, nameindex, protoindex⟩⟩] ∧
      HoldsClass T classindex klazz ∧ HoldsString T nameindex name ∧
      HoldsProto T protoindex proto
  | .IMeth trait name proto, new => ∃ classindex nameindex protoindex,
      new = [⟨.ITEM_IMETH, ⟨classindex, nameindex, protoindex⟩⟩] ∧
      HoldsType T classindex (.klass none trait) ∧ HoldsString T nameindex name ∧
      HoldsProto T protoindex proto

/-- What a call returns: the position of the function or method it appends, or
the index of a constant; the other calls return nothing. -/
def Returns (T : Table) : Add → Option Int → Prop
  | .Func _ _ _, r => r = some (AtomTable_Size T .ITEM_FUNC : Int)
  | .Method _ _ _ _, r => r = some (AtomTable_Size T .ITEM_METHOD : Int)
  | .Integer _, r | .Float _, r | .Bool _, r | .String _, r | .UChar _, r => r.isSome
  | _, r => r = none

theorem HoldsClass.extends {T T' : Table} (hext : Extends T T') {i : Int}
    {klazz : Option CString} (h : HoldsClass T i klazz) : HoldsClass T' i klazz := by
  cases klazz with
  | none => exact h
  | some klazz => exact HoldsType.extends hext h

/-- A record stays readable in every later table. -/
theorem Records.extends {T T' : Table} (hext : Extends T T') {a : Add} {new : List Item}
    (h : Records T a new) : Records T' a new := by
  cases a with
  | Integer | Float | Bool | UChar => exact h
  | String val =>
    obtain ⟨index, hs, hnew⟩ := h
    exact ⟨index, hs.extends hext, hnew⟩
  | Var | LocVar =>
    obtain ⟨nameindex, typeindex, hnew, hname, htype⟩ := h
    exact ⟨nameindex, typeindex, hnew, hname.extends hext, htype.extends hext⟩
  | Func =>
    obtain ⟨nameindex, protoindex, codeindex, hnew, hname, hproto, hcode⟩ := h
    exact ⟨nameindex, protoindex, codeindex, hnew, hname.extends hext, hproto.extends hext,
      hext.get hcode⟩
  | Class | Trait =>
    obtain ⟨classindex, superindex, hnew, hclass, hsuper⟩ := h
    exact ⟨classindex, superindex, hnew, hclass.extends hext, hsuper.extends hext⟩
  | Field =>
    obtain ⟨classindex, nameindex, typeindex, hnew, hclass, hname, htype⟩ := h
    exact ⟨classindex, nameindex, typeindex, hnew, hclass.extends hext, hname.extends hext,
      htype.extends hext⟩
  | Method =>
    obtain ⟨classindex, nameindex, protoindex, codeindex, hnew, hclass, hname, hproto, hcode⟩ := h
    exact ⟨classindex, nameindex, protoindex, codeindex, hnew, hclass.extends hext,
      hname.extends hext, hproto.extends hext, hext.get hcode⟩
  | NFunc | IMeth =>
    obtain ⟨classindex, nameindex, protoindex, hnew, hclass, hname, hproto⟩ := h
    exact ⟨classindex, nameindex, protoindex, hnew, hclass.extends hext, hname.extends hext,
      hproto.extends hext⟩

/-- The kinds of the items in a call's record. -/
def Add.kinds : Add → List ItemKind
  | .Integer _ | .Float _ | .Bool _ | .String _ | .UChar _ => [.ITEM_CONST]
  | .Var _ _ _ => [.ITEM_VAR]
  | .LocVar _ _ _ _ => [.ITEM_LOCVAR]
  | .Func _ _ _ => [.ITEM_CODE, .ITEM_FUNC]
  | .Class _ _ => [.ITEM_CLASS]
  | .Field _ _ _ => [.ITEM_FIELD]
  | .Method _ _ _ _ => [.ITEM_CODE, .ITEM_METHOD]
  | .Trait _ _ => [.ITEM_TRAIT]
  | .NFunc _ _ _ => [.ITEM_NFUNC]
  | .IMeth _ _ _ => [.ITEM_IMETH]

theorem Records.kind_mem {T : Table} {a : Add} {items : List Item} (h : Records T a items) :
    ∀ item ∈ items, item.1 ∈ a.kinds := by
  cases a with
  | Integer | Float | Bool | UChar =>
    rcases h with rfl | ⟨_, rfl⟩ <;> simp [Add.kinds]
  | String =>
    obtain ⟨_, _, rfl | ⟨_, rfl⟩⟩ := h <;> simp [Add.kinds]
  | Var | LocVar | Class | Trait =>
    obtain ⟨_, _, rfl, _⟩ := h
    simp [Add.kinds]
  | Func | Field | NFunc | IMeth =>
    obtain ⟨_, _, _, rfl, _⟩ := h
    simp [Add.kinds]
  | Method =>
    obtain ⟨_, _, _, _, rfl, _⟩ := h
    simp [Add.kinds]

/-- Records of other kinds contribute nothing. -/
theorem Records.filterMap_eq_nil {T : Table} {a : Add} {items : List Item} {type : ItemKind}
    (h : Records T a items) (htype : type ∉ a.kinds) :
    items.filterMap (Item.ofKind type) = [] := by
  rw [List.filterMap_eq_nil_iff]
  intro item hitem
  refine Item.ofKind_of_ne item.2 ?_
  rintro rfl
  exact htype (h.kind_mem item hitem)

/-- A run appends no item of a kind that none of its calls records. -/
theorem records_filterMap_eq_nil {T : Table} {adds : List Add} {new : List (List Item)}
    {type : ItemKind} (h : List.Forall₂ (Records T) adds new)
    (htype : ∀ a ∈ adds, type ∉ a.kinds) : new.flatten.filterMap (Item.ofKind type) = [] := by
  induction h with
  | nil => rfl
  | @cons a items adds new ha _ ih =>
    rw [List.flatten_cons, List.filterMap_append, ha.filterMap_eq_nil (htype a (by simp)),
      List.nil_append]
    exact ih fun b hb => htype b (by simp [hb])

theorem Add.map_not_mem_kinds (a : Add) : .ITEM_MAP ∉ a.kinds := by
  cases a <;> simp [Add.kinds]

/-- A table grew to one that holds exactly `S`; beside the vectors that describe
types, exactly the items `new` were appended. -/
structure Places (T T' : Table) (S : Store) (new : List Item) : Prop where
  sound : Sound T'
  ext : Extends T T'
  held_eq : held T' = S
  items : ∀ type : ItemKind, type.ofTypes = false →
    T'.items type = T.items type ++ new.filterMap (Item.ofKind type)

theorem Grows.places {T T' : Table} {S : Store} (h : Grows T T' S) : Places T T' S [] where
  sound := h.sound
  ext := h.ext
  held_eq := h.held_eq
  items type htype := by simp [h.frame type htype]

theorem Places.trans {T₁ T₂ T₃ : Table} {S₁ S₂ : Store} {new₁ new₂ : List Item}
    (h₁ : Places T₁ T₂ S₁ new₁) (h₂ : Places T₂ T₃ S₂ new₂) :
    Places T₁ T₃ S₂ (new₁ ++ new₂) where
  sound := h₂.sound
  ext := h₁.ext.trans h₂.ext
  held_eq := h₂.held_eq
  items type htype := by
    rw [h₂.items type htype, h₁.items type htype, List.filterMap_append, List.append_assoc]

/-- Appending an item that describes no type. -/
theorem Sound.append_places {T T' : Table} (hT : Sound T) {type : ItemKind}
    {data : ItemData type} {i : Int} (htype : type.ofTypes = false)
    (h : Append T type data = .ok (i, T')) :
    Places T T' (held T) [⟨type, data⟩] ∧ i = AtomTable_Size T type ∧
      Get T' type i = some data := by
  have happ := Append_appended hT.wf h
  obtain ⟨hindex, hitems, _, _⟩ := AtomTable_Append_ok h
  have hstands : Stands T' i type data := by
    cases type <;> first | exact trivial | cases htype
  refine ⟨⟨hT.append happ hstands, happ.ext, ?_, fun other hother => ?_⟩, hindex, happ.get⟩
  · refine hT.held_append_other happ ?_ ?_ <;> rintro rfl <;> cases htype
  · rw [hitems]
    by_cases heq : other = type
    · subst heq
      rw [appended_self]
      simp
    · rw [appended_of_ne _ _ heq, List.filterMap_cons_none (Item.ofKind_of_ne _ (Ne.symm heq))]
      simp

theorem Sound.constitem_set_places {T T' : Table} (hT : Sound T) {key item : Nat}
    {val : ConstVal} {i : Int} (h : constitem_set key item T val = .ok (i, T')) :
    ∃ new : List Item, Places T T' (held T) new ∧
      (new = [] ∨ ∃ addr, new = [⟨.ITEM_CONST, ⟨addr, val⟩⟩]) := by
  unfold constitem_set at h
  dsimp only at h
  split at h
  · exact ⟨_, (hT.append_places rfl h).1, Or.inr ⟨item, rfl⟩⟩
  · cases h
    exact ⟨[], (Grows.refl hT).places, Or.inl rfl⟩

end koala.image
