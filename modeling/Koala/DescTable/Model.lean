import Koala.Bytes
import Koala.HashTable.Map
import Koala.TypeDesc.Text

open koala.hashtable koala.stringbuf koala.typedesc

namespace koala.desctable

set_option linter.style.nameCheck false

/-- The address of a descriptor: they are numbered as they are made, the base
descriptors first. -/
abbrev Addr := Nat

/-- A descriptor without its head. A vector that was never made is `none`. -/
inductive Body where
  | base (type : BaseType)
  | klass (path : Str) (type : CString)
  | proto (arg ret : Option (List Addr))
  | array (dims : Int) (base : Addr)
  | map (key val : Addr)
  | set (base : Addr)
  | varg (base : Addr)

def Body.kind : Body → DescKind
  | .base _ => .TYPE_BASE
  | .klass _ _ => .TYPE_KLASS
  | .proto _ _ => .TYPE_PROTO
  | .array _ _ => .TYPE_ARRAY
  | .map _ _ => .TYPE_MAP
  | .set _ => .TYPE_SET
  | .varg _ => .TYPE_VARG

structure Desc where
  body : Body
  desc : CString
  refcnt : Nat

/-- The hash node of a descriptor, with the text it is hashed by. -/
structure DescNode where
  addr : Addr
  desc : CString
  deriving DecidableEq

/-- `desc_equal`, for texts that are there. -/
def desc_equal (k₁ k₂ : CString) : Bool := k₁ = k₂

/-- The descriptors by address, `none` once freed, and the order in which they
were freed. -/
structure Memory where
  heap : List (Option Desc)
  freed : List Addr

structure State extends Memory where
  descTable : HashTable DescNode

/-- A descriptor that was freed is out of bounds. -/
def State.read (s : State) (desc : Addr) : Res Desc :=
  match s.heap[desc]? with
  | some (some d) => .ok d
  | _ => .error .bounds

def State.write (s : State) (desc : Addr) (d : Desc) : State :=
  { s with heap := s.heap.set desc (some d) }

def Mfree (s : State) (desc : Addr) : Res State := do
  let _ ← s.read desc
  .ok { s with heap := s.heap.set desc none, freed := s.freed ++ [desc] }

def TYPE_INCREF (s : State) : Option Addr → Res State
  | none => .ok s
  | some desc => do
    let d ← s.read desc
    let refcnt ← addInt d.refcnt 1
    .ok (s.write desc { d with refcnt })

section free

variable (decref : State → Option Addr → Res State)

/-- `free_typelist`, with the macro `TYPE_DECREF` for each item. -/
def free_typelist (s : State) : Option (List Addr) → Res State
  | none => .ok s
  | some vec => vec.foldlM (fun s item => decref s (some item)) s

/-- The `fini` of `typedesc_ops`. -/
def fini (s : State) (d : Desc) : Res State :=
  match d.body with
  | .base _ => if d.refcnt > 0 then .ok s else .error .assertion
  | .klass _ _ => .ok s
  | .proto arg ret => do
    let s ← free_typelist decref s arg
    free_typelist decref s ret
  | .array _ base => decref s (some base)
  | .map key val => do
    let s ← decref s (some key)
    decref s (some val)
  | .set base => decref s (some base)
  | .varg base => decref s (some base)

/-- The links of the table run from descriptor to descriptor, so a call on it
may touch any that is linked. -/
def touch_linked (s : State) : Res Unit :=
  match HashTable_Visit s.descTable with
  | none => .error .fuel
  | some nodes => nodes.forM fun hnode => do
    let _ ← s.read hnode.addr
    .ok ()

def remove (s : State) (hnode : DescNode) : Res (HashTable DescNode) := do
  touch_linked s
  match HashTable_Remove DescNode.desc desc_equal s.descTable hnode with
  | none => .error .fuel
  | some (_, t) => .ok t

def TypeDesc_Free (s : State) (desc : Addr) : Res State := do
  let d ← s.read desc
  if d.body.kind = .TYPE_BASE then .error .assertion
  else
    let descTable ← remove s ⟨desc, d.desc⟩
    let s ← fini decref { s with descTable } d
    Mfree s desc

end free

/-- `TYPE_DECREF` to some depth of descriptors that are freed. -/
def TYPE_DECREF.loop : Nat → State → Option Addr → Res State
  | _, s, none => .ok s
  | 0, _, some _ => .error .fuel
  | fuel + 1, s, some desc => do
    let d ← s.read desc
    if d.refcnt = 0 then .error .assertion
    else
      let s := s.write desc { d with refcnt := d.refcnt - 1 }
      if d.refcnt - 1 ≤ 0 then TypeDesc_Free (loop fuel) s desc else .ok s

def TYPE_DECREF (s : State) (desc : Option Addr) : Res State :=
  TYPE_DECREF.loop s.heap.length s desc

def insert (s : State) (hnode : DescNode) : Res (Int × HashTable DescNode) := do
  touch_linked s
  match HashTable_Insert DescNode.desc hash_string desc_equal s.descTable hnode with
  | none => .error .fuel
  | some r => .ok r

/-- The address of a base descriptor. -/
def BaseType.addr (type : BaseType) : Addr := basic_types.idxOf type

/-- One step of the loop of `init_basictypes`. The result of the insertion is
not looked at. -/
def init_basictype (s : State) (type : BaseType) : Res State := do
  let desc := CString.ofData [type.letter, 0, 0, 0]
  let (_, descTable) ← insert s ⟨s.heap.length, desc⟩
  .ok { s with descTable, heap := s.heap ++ [some ⟨.base type, desc, 2⟩] }

def init_basictypes (s : State) : Res State := basic_types.foldlM init_basictype s

def Init_TypeDesc : Res State := init_basictypes ⟨⟨[], []⟩, HashTable_Init⟩

def desc_free_func (s : State) (hnode : DescNode) : Res State := TYPE_DECREF s (some hnode.addr)

/-- One step of the loop of `check_basic_refcnt`. -/
def check_basic (s : State) (type : BaseType) : Res Unit := do
  let base ← s.read (BaseType.addr type)
  if base.refcnt = 1 then .ok () else .error .assertion

def check_basic_refcnt (s : State) : Res Unit := basic_types.forM (check_basic s)

def Fini_TypeDesc (s : State) : Res State := do
  let visit := fun (p : HashTable DescNode × Memory) hnode => do
    touch_linked ⟨p.2, p.1⟩
    let s ← desc_free_func ⟨p.2, p.1⟩ hnode
    .ok (s.descTable, s.toMemory)
  let (descTable, memory) ← HashTable_Fini visit (s.descTable, s.toMemory)
  let s := ⟨memory, descTable⟩
  check_basic_refcnt s
  .ok s

section get

/-- The text that a buffer holds: there is none without data. -/
def cstr (buf : StringBuf) : Res CString :=
  match buf.data with
  | none => .error .null
  | some data => .ok (CString.ofData data)

def TypeDesc_Get_Base (base : UInt8) : Res Addr :=
  match get_basic base with
  | none => .error .null
  | some type => .ok (BaseType.addr type)

def FindTypeDesc (s : State) (desc : CString) : Res (Option Addr) := do
  touch_linked s
  match HashTable_Find DescNode.desc hash_string desc_equal s.descTable desc with
  | none => .error .fuel
  | some found => .ok (found.map DescNode.addr)

/-- A new descriptor: its fields are those that the caller goes on to store. -/
def new_typedesc (s : State) (body : Body) (descstr : CString) : Res (Addr × State) := do
  let desc := s.heap.length
  let (result, descTable) ← insert s ⟨desc, descstr⟩
  if result = 0 then
    .ok (desc, { s with descTable, heap := s.heap ++ [some ⟨body, descstr, 1⟩] })
  else .error .assertion

/-- `Vector_ForEach` of `TypeList_ToString`. -/
def append_descs (s : State) (buf : StringBuf) (vec : List Addr) : Res StringBuf :=
  vec.foldlM (fun buf desc => do
    let d ← s.read desc
    __StringBuf_Append buf (some d.desc)) buf

def TypeList_ToString (s : State) : Option (List Addr) → Res Str
  | none => .ok none
  | some [] => .ok none
  | some vec => do
    let buf ← append_descs s DeclareStringBuf vec
    let text ← cstr buf
    .ok (some text)

def TypeDesc_Get_Klass (s : State) (path : Str) (type : CString) : Res (Addr × State) := do
  let buf ← __StringBuf_Format DeclareStringBuf (chars "L#.#;") [path, some type]
  let text ← cstr buf
  let exist ← FindTypeDesc s text
  match exist with
  | some desc => .ok (desc, s)
  | none => new_typedesc s (.klass path type) text

def TypeDesc_Get_Proto (s : State) (arg ret : Option (List Addr)) : Res (Addr × State) := do
  let sArg ← TypeList_ToString s arg
  let sRet ← TypeList_ToString s ret
  let buf ← __StringBuf_Format DeclareStringBuf (chars "P#:#;") [sArg, sRet]
  let text ← cstr buf
  let exist ← FindTypeDesc s text
  match exist with
  | some desc => do
    let s ← free_typelist TYPE_DECREF s arg
    let s ← free_typelist TYPE_DECREF s ret
    .ok (desc, s)
  | none => new_typedesc s (.proto arg ret) text

def TypeDesc_Get_Array (s : State) (dims : Int) (base : Addr) : Res (Addr × State) := do
  let d ← s.read base
  let buf ← (List.replicate dims.toNat '['.toUInt8).foldlM __StringBuf_Append_Char DeclareStringBuf
  let buf ← __StringBuf_Append buf (some d.desc)
  let text ← cstr buf
  let exist ← FindTypeDesc s text
  match exist with
  | some desc => .ok (desc, s)
  | none => do
    let (desc, s) ← new_typedesc s (.array dims base) text
    let s ← TYPE_INCREF s (some base)
    .ok (desc, s)

def TypeDesc_Get_Map (s : State) (key val : Addr) : Res (Addr × State) := do
  let k ← s.read key
  let v ← s.read val
  let buf ← __StringBuf_Format DeclareStringBuf (chars "M#:#") [some k.desc, some v.desc]
  let text ← cstr buf
  let exist ← FindTypeDesc s text
  match exist with
  | some desc => .ok (desc, s)
  | none => do
    let (desc, s) ← new_typedesc s (.map key val) text
    let s ← TYPE_INCREF s (some key)
    let s ← TYPE_INCREF s (some val)
    .ok (desc, s)

def TypeDesc_Get_Set (s : State) (base : Addr) : Res (Addr × State) := do
  let d ← s.read base
  let buf ← __StringBuf_Format DeclareStringBuf (chars "S#") [some d.desc]
  let text ← cstr buf
  let exist ← FindTypeDesc s text
  match exist with
  | some desc => .ok (desc, s)
  | none => do
    let (desc, s) ← new_typedesc s (.set base) text
    let s ← TYPE_INCREF s (some base)
    .ok (desc, s)

def TypeDesc_Get_Varg (s : State) (base : Option Addr) : Res (Addr × State) := do
  let base := base.getD (BaseType.addr .BASE_ANY)
  let d ← s.read base
  let buf ← __StringBuf_Format DeclareStringBuf (chars "...#") [some d.desc]
  let text ← cstr buf
  let exist ← FindTypeDesc s text
  match exist with
  | some desc => .ok (desc, s)
  | none => do
    let (desc, s) ← new_typedesc s (.varg base) text
    let s ← TYPE_INCREF s (some base)
    .ok (desc, s)

end get

end koala.desctable
