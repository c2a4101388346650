import Koala.AtomTable.Model
import Koala.Bytes
import Koala.TypeDesc.Desc

open koala.atomtable

namespace koala.image

set_option linter.style.nameCheck false

/-- The kinds of items, in the order of their vectors. -/
inductive ItemKind where
  | ITEM_MAP
  | ITEM_STRING
  | ITEM_TYPE
  | ITEM_TYPELIST
  | ITEM_PROTO
  | ITEM_CONST
  | ITEM_LOCVAR
  | ITEM_VAR
  | ITEM_FUNC
  | ITEM_CODE
  | ITEM_CLASS
  | ITEM_FIELD
  | ITEM_METHOD
  | ITEM_TRAIT
  | ITEM_NFUNC
  | ITEM_IMETH
  deriving DecidableEq, Repr

structure MapItem where
  type : Nat
  offset : Nat
  size : Int
  deriving DecidableEq

/-- `length` is the length of `data`. -/
structure StringItem where
  data : List UInt8
  deriving DecidableEq

def TYPE_BASE : Int := 1
def TYPE_KLASS : Int := 2
def TYPE_PROTO : Int := 3
def TYPE_ARRAY : Int := 4
def TYPE_MAP : Int := 5
def TYPE_SET : Int := 6
def TYPE_VARG : Int := 7

/-- The two words of the union have the names they have for a class. -/
structure TypeItem where
  kind : Int
  pathindex : Int
  typeindex : Int
  deriving DecidableEq

namespace TypeItem

/-- The low byte of the first word. -/
def primitive (item : TypeItem) : UInt8 := UInt8.ofNat (uint32 item.pathindex)

def protoindex (item : TypeItem) : Int := item.pathindex

def array_dims (item : TypeItem) : BitVec 32 := BitVec.ofInt 32 item.pathindex

def array_typeindex (item : TypeItem) : Int := item.typeindex

def varg_typeindex (item : TypeItem) : Int := item.pathindex

end TypeItem

structure TypeListItem where
  index : List Int
  deriving DecidableEq

structure ProtoItem where
  rindex : Int
  pindex : Int
  deriving DecidableEq

/-- The value of a constant. A float is its bits. -/
inductive ConstVal where
  | CONST_INT (ival : BitVec 64)
  | CONST_FLOAT (fval : BitVec 64)
  | CONST_BOOL (bval : BitVec 32)
  | CONST_STRING (index : Int)
  | CONST_UCHAR (uch : BitVec 32)
  deriving DecidableEq

/-- A constant and the address it is stored at, which its hash and its
comparison can depend on. -/
structure ConstItem where
  addr : Nat
  val : ConstVal
  deriving DecidableEq

structure LocVarItem where
  nameindex : Int
  typeindex : Int
  pos : BitVec 32
  index : Int
  deriving DecidableEq

structure VarItem where
  nameindex : Int
  typeindex : Int
  konst : BitVec 32
  deriving DecidableEq

structure FuncItem where
  nameindex : Int
  protoindex : Int
  codeindex : Int
  deriving DecidableEq

structure CodeItem where
  codes : List UInt8
  deriving DecidableEq

structure ClassItem where
  classindex : Int
  superindex : Int
  deriving DecidableEq

structure FieldItem where
  classindex : Int
  nameindex : Int
  typeindex : Int
  deriving DecidableEq

structure MethodItem where
  classindex : Int
  nameindex : Int
  protoindex : Int
  codeindex : Int
  deriving DecidableEq

structure TraitItem where
  classindex : Int
  traitsindex : Int
  deriving DecidableEq

structure NFuncItem where
  classindex : Int
  nameindex : Int
  protoindex : Int
  deriving DecidableEq

structure IMethItem where
  classindex : Int
  nameindex : Int
  protoindex : Int
  deriving DecidableEq

abbrev ItemData : ItemKind → Type
  | .ITEM_MAP => MapItem
  | .ITEM_STRING => StringItem
  | .ITEM_TYPE => TypeItem
  | .ITEM_TYPELIST => TypeListItem
  | .ITEM_PROTO => ProtoItem
  | .ITEM_CONST => ConstItem
  | .ITEM_LOCVAR => LocVarItem
  | .ITEM_VAR => VarItem
  | .ITEM_FUNC => FuncItem
  | .ITEM_CODE => CodeItem
  | .ITEM_CLASS => ClassItem
  | .ITEM_FIELD => FieldItem
  | .ITEM_METHOD => MethodItem
  | .ITEM_TRAIT => TraitItem
  | .ITEM_NFUNC => NFuncItem
  | .ITEM_IMETH => IMethItem

abbrev Entry := AtomEntry ItemKind ItemData

abbrev Table := AtomTable ItemKind ItemData

/-- The kinds whose items are appended as unique. -/
def ItemKind.unique : ItemKind → Bool
  | .ITEM_STRING | .ITEM_TYPE | .ITEM_TYPELIST | .ITEM_PROTO | .ITEM_CONST => true
  | _ => false

def stringitem_hash (item : StringItem) : Nat := hash_string (CString.ofData item.data)

def stringitem_equal (item1 item2 : StringItem) : Bool :=
  CString.ofData item1.data = CString.ofData item2.data

def typeitem_hash (item : TypeItem) : Nat :=
  hash_uint32 (uint32 (item.pathindex + item.typeindex))

def typeitem_equal (item1 item2 : TypeItem) : Bool :=
  if item1.kind ≠ item2.kind then false
  else if item1.pathindex ≠ item2.pathindex then false
  else if item1.typeindex ≠ item2.typeindex then false
  else true

def typelistitem_hash (item : TypeListItem) : Nat := hash_uint32 (uint32 item.index.sum)

def typelistitem_equal (item1 item2 : TypeListItem) : Bool := item1.index = item2.index

def protoitem_hash (item : ProtoItem) : Nat := hash_uint32 (uint32 (item.rindex + item.pindex))

def protoitem_equal (item1 item2 : ProtoItem) : Bool :=
  item1.rindex = item2.rindex && item1.pindex = item2.pindex

def constitem_hash (item : ConstItem) : Nat :=
  match item.val with
  | .CONST_INT ival => hash_uint32 (ival.toNat % 2 ^ 32)
  | .CONST_FLOAT _ => hash_uint32 (item.addr % 2 ^ 32)
  | .CONST_BOOL _ => hash_uint32 (item.addr % 2 ^ 32)
  | .CONST_STRING index => hash_uint32 (uint32 index)
  | .CONST_UCHAR uch => hash_uint32 uch.toNat

/-- A double whose exponent is all ones and whose mantissa is not zero. -/
def isNaN (f : BitVec 64) : Bool := f.toNat % 2 ^ 63 > 0x7ff * 2 ^ 52

/-- `==` on doubles: a NaN differs from every double and the two zeros are
equal. -/
def float_eq (f g : BitVec 64) : Bool :=
  !isNaN f && !isNaN g && (f = g || (f.toNat % 2 ^ 63 = 0 && g.toNat % 2 ^ 63 = 0))

def constitem_equal (item1 item2 : ConstItem) : Bool :=
  match item1.val, item2.val with
  | .CONST_INT ival1, .CONST_INT ival2 => ival1 = ival2
  | .CONST_FLOAT fval1, .CONST_FLOAT fval2 => float_eq fval1 fval2
  -- the items themselves are compared, not their values
  | .CONST_BOOL _, .CONST_BOOL _ => item1.addr = item2.addr
  | .CONST_STRING index1, .CONST_STRING index2 => index1 = index2
  | .CONST_UCHAR uch1, .CONST_UCHAR uch2 => uch1 = uch2
  | _, _ => false

/-- Only called on entries of the unique kinds: the other kinds have no hash. -/
def Item_Hash : Entry → Nat
  | ⟨.ITEM_STRING, _, data⟩ => stringitem_hash data
  | ⟨.ITEM_TYPE, _, data⟩ => typeitem_hash data
  | ⟨.ITEM_TYPELIST, _, data⟩ => typelistitem_hash data
  | ⟨.ITEM_PROTO, _, data⟩ => protoitem_hash data
  | ⟨.ITEM_CONST, _, data⟩ => constitem_hash data
  | _ => 0

def Item_Equal : Entry → Entry → Bool
  | ⟨.ITEM_STRING, _, data1⟩, ⟨.ITEM_STRING, _, data2⟩ => stringitem_equal data1 data2
  | ⟨.ITEM_TYPE, _, data1⟩, ⟨.ITEM_TYPE, _, data2⟩ => typeitem_equal data1 data2
  | ⟨.ITEM_TYPELIST, _, data1⟩, ⟨.ITEM_TYPELIST, _, data2⟩ => typelistitem_equal data1 data2
  | ⟨.ITEM_PROTO, _, data1⟩, ⟨.ITEM_PROTO, _, data2⟩ => protoitem_equal data1 data2
  | ⟨.ITEM_CONST, _, data1⟩, ⟨.ITEM_CONST, _, data2⟩ => constitem_equal data1 data2
  | _, _ => false

def StringItem_New (name : CString) : StringItem := ⟨name.bytes ++ [0]⟩

def TypeItem_Primitive_New (primitive : UInt8) : TypeItem := ⟨TYPE_BASE, primitive.toNat, 0⟩

def TypeItem_Klass_New (pathindex typeindex : Int) : TypeItem := ⟨TYPE_KLASS, pathindex, typeindex⟩

def TypeItem_Proto_New (protoindex : Int) : TypeItem := ⟨TYPE_PROTO, protoindex, 0⟩

def TypeItem_Array_New (dims : BitVec 32) (typeindex : Int) : TypeItem :=
  ⟨TYPE_ARRAY, dims.toInt, typeindex⟩

def TypeItem_Varg_New (typeindex : Int) : TypeItem := ⟨TYPE_VARG, typeindex, 0⟩

theorem StringItem_New_injective {s s' : CString} (h : StringItem_New s = StringItem_New s') :
    s = s' := by
  have hdata := congrArg (fun item => CString.ofData item.data) h
  simpa only [StringItem_New, CString.ofData_append_nul] using hdata

section append

def Append (table : Table) (type : ItemKind) (data : ItemData type) : Res (Int × Table) :=
  AtomTable_Append Item_Hash Item_Equal table type data type.unique

def Index (table : Table) (type : ItemKind) (data : ItemData type) : Int :=
  AtomTable_Index Item_Hash Item_Equal table type data

def Get (table : Table) (type : ItemKind) (index : Int) : Option (ItemData type) :=
  AtomTable_Get table type index

end append

/-- A table whose hash table matches its vectors. -/
abbrev WF (table : Table) : Prop :=
  koala.atomtable.WF Item_Hash Item_Equal ItemKind.unique table

end koala.image
