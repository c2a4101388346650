import Koala.TypeDesc.Desc

open koala.typedesc

namespace koala.object

set_option linter.style.nameCheck false

/-- A pointer to a class: the static `Any_Klass`, or the `n`th class that
`Klass_New` allocated. -/
inductive KlassPtr where
  | Any_Klass
  | new (n : Nat)
  deriving DecidableEq, Repr

structure LRONode where
  offset : Nat
  klazz : KlassPtr
  deriving DecidableEq

/-- The member node of a field. -/
structure MNode where
  name : CString
  desc : TypeDesc
  offset : Nat

def Find_MNode (table : List MNode) (name : CString) : Option MNode :=
  table.find? fun m => m.name = name

/-- `HashTable_Insert`: nothing is inserted when the name is already there. -/
def insert (table : List MNode) (m : MNode) : List MNode :=
  if (Find_MNode table m.name).isSome then table else table ++ [m]

/-- `nrvars` counts the fields of the class itself, `totalvars` those of its
objects. -/
structure Klass where
  name : CString
  mtbl : List MNode
  nrvars : Nat
  totalvars : Nat
  lro : List LRONode

/-- The classes that were allocated, in order. -/
abbrev Klasses := List Klass

/-- `Any_Klass` has no fields. -/
def nrvars (ks : Klasses) : KlassPtr → Nat
  | .Any_Klass => 0
  | .new n => ks[n]?.elim 0 Klass.nrvars

def lro_find (lro : List LRONode) (klazz : KlassPtr) : Bool :=
  lro.any fun node => node.klazz = klazz

/-- The order built so far and the offset of the next class in it. -/
structure Line where
  offset : Nat
  lro : List LRONode

/-- `LRONode_New` and `Vector_Append` for one class. -/
def Line.append (ks : Klasses) (line : Line) (klazz : KlassPtr) : Line where
  offset := line.offset + nrvars ks klazz
  lro := line.lro ++ [⟨line.offset, klazz⟩]

/-- A class of the order of a base, unless it is already there. -/
def Line.add (ks : Klasses) (line : Line) (node : LRONode) : Line :=
  if lro_find line.lro node.klazz then line else line.append ks node.klazz

/-- The order of a class and the number of its variables, given the orders of
its bases. -/
def lro_build (ks : Klasses) (self : KlassPtr) (bases : List (List LRONode)) : Line :=
  let any := Line.append ks ⟨0, []⟩ .Any_Klass
  let line := bases.foldl (fun line base => base.foldl (Line.add ks) line) any
  { line with lro := line.lro ++ [⟨line.offset, self⟩] }

/-- The orders of the classes at some addresses. -/
def base_orders (ks : Klasses) : List Nat → Res (List (List LRONode))
  | [] => .ok []
  | base :: bases =>
    match ks[base]? with
    | none => .error .null
    | some klazz => do
      let orders ← base_orders ks bases
      .ok (klazz.lro :: orders)

def Klass_New (ks : Klasses) (name : CString) (bases : List Nat) : Res Klasses := do
  let orders ← base_orders ks bases
  let line := lro_build ks (.new ks.length) orders
  .ok (ks ++ [⟨name, [], 0, line.offset, line.lro⟩])

/-- The new field takes a slot also when its name is already there. -/
def Klass_Add_Field (ks : Klasses) (klazz : Nat) (name : CString) (desc : TypeDesc) :
    Res Klasses :=
  match ks[klazz]? with
  | none => .error .null
  | some k => .ok (ks.set klazz { k with
      mtbl := insert k.mtbl ⟨name, desc, k.nrvars⟩
      nrvars := k.nrvars + 1
      totalvars := k.totalvars + 1 })

/-- A call that builds classes. -/
inductive Call where
  | Klass_New (name : CString) (bases : List Nat)
  | Klass_Add_Field (klazz : Nat) (name : CString) (desc : TypeDesc)

def Call.run (ks : Klasses) : Call → Res Klasses
  | .Klass_New name bases => koala.object.Klass_New ks name bases
  | .Klass_Add_Field klazz name desc => koala.object.Klass_Add_Field ks klazz name desc

def run (ks : Klasses) : List Call → Res Klasses
  | [] => .ok ks
  | call :: calls => do
    let ks ← call.run ks
    run ks calls

/-- The bases of the class that a call builds. -/
def Call.bases? : Call → Option (List Nat)
  | .Klass_New _ bases => some bases
  | .Klass_Add_Field .. => none

/-- The bases that each class was built with. -/
def given (calls : List Call) : List (List Nat) := calls.filterMap Call.bases?

/-- The classes that a call is given. -/
def Call.klasses : Call → List Nat
  | .Klass_New _ bases => bases
  | .Klass_Add_Field klazz _ _ => [klazz]

/-- Every call is given classes that were already built, `n` of them before the
first call. -/
def Built (n : Nat) : List Call → Prop
  | [] => True
  | call :: calls =>
    (∀ klazz ∈ call.klasses, klazz < n) ∧ Built (n + (given [call]).length) calls

/-- Fields are added to a class only as long as it is no base. -/
def Settled (calls : List Call) : Prop :=
  ∀ pre klazz name desc post, calls = pre ++ .Klass_Add_Field klazz name desc :: post →
    ∀ bases ∈ given pre, klazz ∉ bases

/-- An object with its class and its slots. -/
structure Object (V : Type) where
  klass : Nat
  value : List (Option V)
  deriving DecidableEq

variable {V : Type}

def object_alloc (ks : Klasses) (klazz : Nat) : Res (Object V) :=
  match ks[klazz]? with
  | none => .error .null
  | some k => .ok ⟨klazz, List.replicate k.totalvars none⟩

/-- The members of a class. `Any_Klass` has none. -/
def mtbl (ks : Klasses) : KlassPtr → List MNode
  | .Any_Klass => []
  | .new n => ks[n]?.elim [] Klass.mtbl

/-- `super.` -/
def SUPER : List UInt8 :=
  ['s'.toUInt8, 'u'.toUInt8, 'p'.toUInt8, 'e'.toUInt8, 'r'.toUInt8, '.'.toUInt8]

/-- The comparison of the first six bytes. -/
def is_super (name : CString) : Bool := SUPER.isPrefixOf name.bytes

/-- The name six bytes further on. -/
def behind_super (name : CString) : CString :=
  ⟨name.bytes.drop 6, fun h => name.nonul (List.mem_of_mem_drop h)⟩

/-- The first loop of `__get_m`: the position of the base, from the end. -/
def base_loop (lro : List LRONode) (klazz : KlassPtr) : Nat → Nat
  | 0 => 0
  | index + 1 =>
    if lro[index + 1]?.any fun node => node.klazz = klazz then index + 1
    else base_loop lro klazz index

/-- The second loop of `__get_m`. -/
def member_loop (ks : Klasses) (lro : List LRONode) (name : CString) :
    Nat → Res (Option (LRONode × MNode))
  | 0 => .ok none
  | index + 1 =>
    match lro[index + 1]? with
    | none => .error .null
    | some node =>
      match Find_MNode (mtbl ks node.klazz) name with
      | some m => .ok (some (node, m))
      | none => member_loop ks lro name index

/-- The member that a name stands for from some base on, with the node of the
class it is found in. -/
def __get_m (ks : Klasses) (lro : List LRONode) (name : CString) (base : KlassPtr) :
    Res (Option (LRONode × MNode)) :=
  let index := base_loop lro base (lro.length - 1)
  if is_super name then member_loop ks lro (behind_super name) (index - 1)
  else member_loop ks lro name index

/-- The slot of a field of an object. Without a base the search starts at the
class of the object. -/
def field_slot (ks : Klasses) (ob : Object V) (base : Option KlassPtr) (name : CString) :
    Res Nat :=
  match ks[ob.klass]? with
  | none => .error .null
  | some k =>
    __get_m ks k.lro name (base.getD (.new ob.klass)) >>= fun
      | none => .error .assertion
      | some (node, m) => .ok (node.offset + m.offset)

def Get_Field (ks : Klasses) (ob : Object V) (base : Option KlassPtr) (name : CString) :
    Res (Option V) := do
  let index ← field_slot ks ob base name
  match ob.value[index]? with
  | none => .error .bounds
  | some value => .ok value

def Set_Field (ks : Klasses) (ob : Object V) (base : Option KlassPtr) (name : CString)
    (val : V) : Res (Object V) := do
  let index ← field_slot ks ob base name
  if index < ob.value.length then .ok { ob with value := ob.value.set index (some val) }
  else .error .bounds

/-- The arguments of a call of `Set_Field`. -/
structure SetCall (V : Type) where
  base : Option KlassPtr
  name : CString
  val : V

def set_fields (ks : Klasses) (ob : Object V) : List (SetCall V) → Res (Object V)
  | [] => .ok ob
  | call :: calls => do
    let ob ← Set_Field ks ob call.base call.name call.val
    set_fields ks ob calls

end koala.object
