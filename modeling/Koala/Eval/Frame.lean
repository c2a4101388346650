import Koala.OpCode
import Koala.Package.Model
import Mathlib.Logic.Function.Basic

open koala.typedesc koala.package

namespace koala.eval

set_option linter.style.nameCheck false

variable {α : Type}

def MAX_STACK_SIZE : Nat := 8

def MAX_FRAME_DEPTH : Nat := 16

/-- `sizeof(CallFrame)`: five pointers and two `int`s. -/
def sizeofCallFrame : Nat := 48

/-- `sizeof(Object *)`. -/
def sizeofObjectPtr : Nat := 8

/-- The items of an object whose class is `Tuple_Klass`, and the fields of
packages and other objects. -/
class Objects (α : Type) where
  items : α → Option (List (Option α))
  load_field : α → Option α → Res (Option α)

/-- The code of a function that was compiled. -/
structure CodeInfo (α : Type) where
  consts : Option α
  locvec : List LocVar
  codes : List UInt8

inductive CodeKind (α : Type) where
  | KCODE_KIND (codeinfo : CodeInfo α)
  | CFUNC_KIND (cfunc : Option α → Option α → Res (Option α))

structure CodeObject (α : Type) where
  proto : ProtoDesc
  kind : CodeKind α

/-- A frame; `index` is that of the last byte fetched. The ghost field `touched`
lists the slots of `locvars` that were read or written, in order. -/
structure CallFrame (α : Type) where
  code : CodeObject α
  ob : Option α
  args : Option α
  index : Int
  size : Nat
  locvars : Nat → Option α
  touched : List Nat

/-- The frames from `ks->frame` on, the counter and the operand stack, its top
first. -/
structure KoalaState (α : Type) where
  frame : List (CallFrame α)
  depth : Nat
  stack : List α

/-- `OB_INCREF` reads its object. -/
def OB_INCREF : Option α → Res α
  | none => .error .null
  | some ob => .ok ob

theorem OB_INCREF_eq_ok_iff {ob : Option α} {a : α} : OB_INCREF ob = .ok a ↔ ob = some a := by
  cases ob with
  | none => exact ⟨(nomatch ·), (nomatch ·)⟩
  | some o => exact ⟨fun h => congrArg some (Except.ok.inj h), fun h => by cases h; rfl⟩

section objects

variable [Objects α]

def Tuple_Size : Option α → Res Nat
  | none => .ok 0
  | some ob =>
    match Objects.items ob with
    | none => .error .assertion
    | some items => .ok items.length

def Tuple_Get (ob : Option α) (index : Nat) : Res (Option α) := do
  let ob ← OB_INCREF ob
  match Objects.items ob with
  | none => .error .assertion
  | some items => .ok (items[index]?.getD none)

def Code_Get_Argc (code : CodeObject α) : Nat := code.proto.arg.length

end objects

/-- The slots of the array that `push_frame` allocates. -/
def nrslots (code : CodeObject α) : Nat :=
  match code.kind with
  | .KCODE_KIND codeinfo => codeinfo.locvec.length
  | .CFUNC_KIND _ => 0

def push_frame (code : CodeObject α) (ob args : Option α) (ks : KoalaState α) :
    Res (KoalaState α) :=
  if ks.depth ≥ MAX_FRAME_DEPTH then
    .error .exit
  else
    let cf : CallFrame α :=
      { code, ob, args
        index := -1
        size := sizeofCallFrame + nrslots code * sizeofObjectPtr
        locvars := fun _ => none
        touched := [] }
    .ok { ks with frame := cf :: ks.frame, depth := ks.depth + 1 }

def CallFrame.touch (cf : CallFrame α) (slots : List Nat) : CallFrame α :=
  { cf with touched := cf.touched ++ slots }

def CallFrame.set (cf : CallFrame α) (index : Nat) (ob : α) : CallFrame α :=
  { cf with
    locvars := Function.update cf.locvars index (some ob)
    touched := cf.touched ++ [index] }

theorem CallFrame.set_locvars_self (cf : CallFrame α) (index : Nat) (ob : α) :
    (cf.set index ob).locvars index = some ob := Function.update_self ..

theorem CallFrame.set_locvars_of_ne (cf : CallFrame α) {index slot : Nat} (h : slot ≠ index)
    (ob : α) : (cf.set index ob).locvars slot = cf.locvars slot := Function.update_of_ne h ..

theorem CallFrame.set_touched (cf : CallFrame α) (index : Nat) (ob : α) :
    (cf.set index ob).touched = cf.touched ++ [index] := rfl

/-- Every slot below `cf->size` is released. -/
def free_frame (cf : CallFrame α) : CallFrame α := cf.touch (List.range cf.size)

/-- The frame on top is freed and given back. -/
def pop_frame (ks : KoalaState α) : Res (CallFrame α × KoalaState α) :=
  match ks.frame with
  | [] => .error .null
  | cf :: back => .ok (free_frame cf, { ks with frame := back })

def load (cf : CallFrame α) (index : Nat) : Res (Option α × CallFrame α) :=
  if index < cf.size then .ok (cf.locvars index, cf.touch [index]) else .error .assertion

def store (cf : CallFrame α) (index : Nat) : Option α → Res (CallFrame α)
  | none => .error .assertion
  | some val => if index < cf.size then .ok (cf.set index val) else .error .assertion

/-- `Stack_Push` would write the object after the last past the array. -/
def PUSH (stack : List α) (ob : α) : Res (List α) :=
  if stack.length < MAX_STACK_SIZE then .ok (ob :: stack) else .error .bounds

/-- `Stack_Pop` gives `NULL` on an empty stack. -/
def POP : List α → Option α × List α
  | [] => (none, [])
  | ob :: stack => (some ob, stack)

section prepare

variable [Objects α]

def check_arguments (cf : CallFrame α) : Res Unit := do
  let size ← Tuple_Size cf.args
  if size < Code_Get_Argc cf.code then .error .exit else .ok ()

/-- The items from number `i` on go to the slots after their numbers. -/
def prepare_items (cf : CallFrame α) (i : Nat) : List (Option α) → Res (CallFrame α)
  | [] => .ok cf
  | o :: items => do
    let o ← OB_INCREF o
    prepare_items (cf.set (i + 1) o) (i + 1) items

def prepare_kargs (cf : CallFrame α) : Res (CallFrame α) := do
  let ob ← OB_INCREF cf.ob
  let cf := cf.set 0 ob
  match cf.args with
  | none => .ok cf
  | some args =>
    match Objects.items args with
    | some items => prepare_items cf 0 items
    | none => .ok (cf.set 1 args)

end prepare

end koala.eval

namespace koala.eval

set_option linter.style.nameCheck false

variable {α : Type}

section fetch

/-- The byte after the last one fetched; the assertion is about the last. -/
def NEXT_CODE (cf : CallFrame α) (codes : List UInt8) : Res (UInt8 × CallFrame α) :=
  match codes[(cf.index + 1).toNat]? with
  | none => .error .bounds
  | some byte => .ok (byte, { cf with index := cf.index + 1 })

def fetch_byte (cf : CallFrame α) (codes : List UInt8) : Res (UInt8 × CallFrame α) :=
  if cf.index < codes.length then NEXT_CODE cf codes else .error .assertion

def fetch_2bytes (cf : CallFrame α) (codes : List UInt8) : Res (Nat × CallFrame α) :=
  if cf.index < codes.length then do
    let ⟨l, cf⟩ ← NEXT_CODE cf codes
    let ⟨h, cf⟩ ← NEXT_CODE cf codes
    .ok (h.toNat * 2 ^ 8 + l.toNat, cf)
  else
    .error .assertion

end fetch

section cases

variable [Objects α]

/-- A frame and the operand stack. -/
abbrev Machine (α : Type) := CallFrame α × List α

def load_const (index : Nat) (consts : Option α) (m : Machine α) : Res (Machine α) := do
  let ob ← Tuple_Get consts index
  let ob ← OB_INCREF ob
  let stack ← PUSH m.2 ob
  .ok (m.1, stack)

def load_local (index : Nat) (m : Machine α) : Res (Machine α) := do
  let ⟨ob, cf⟩ ← load m.1 index
  let ob ← OB_INCREF ob
  let stack ← PUSH m.2 ob
  .ok (cf, stack)

def store_local (index : Nat) (m : Machine α) : Res (Machine α) := do
  let cf ← store m.1 index (POP m.2).1
  .ok (cf, (POP m.2).2)

def load_member (index : Nat) (consts : Option α) (m : Machine α) : Res (Machine α) := do
  let name ← Tuple_Get consts index
  let ob ← OB_INCREF (POP m.2).1
  let ret ← Objects.load_field ob name
  let ret ← OB_INCREF ret
  let stack ← PUSH (POP m.2).2 ret
  .ok (m.1, stack)

/-- One pass of the loop of `eval_frame`; whether it goes on. -/
def eval_inst (codeinfo : CodeInfo α) (m : Machine α) : Res (Bool × Machine α) := do
  let ⟨op, cf⟩ ← fetch_byte m.1 codeinfo.codes
  match OpCode.ofNumber op with
  | some .POP_TOP | some .POP_TOPN | some .STORE_FIELD | some .JMP | some .NEW =>
    .ok (true, cf, m.2)
  | some .LOAD_CONST => do
    let ⟨index, cf⟩ ← fetch_2bytes cf codeinfo.codes
    let m ← load_const index codeinfo.consts (cf, m.2)
    .ok (true, m)
  | some .LOAD => do
    let ⟨index, cf⟩ ← fetch_2bytes cf codeinfo.codes
    let m ← load_local index (cf, m.2)
    .ok (true, m)
  | some .STORE => do
    let ⟨index, cf⟩ ← fetch_2bytes cf codeinfo.codes
    let m ← store_local index (cf, m.2)
    .ok (true, m)
  | some .LOAD_FIELD => do
    let ⟨index, cf⟩ ← fetch_2bytes cf codeinfo.codes
    let m ← load_member index codeinfo.consts (cf, m.2)
    .ok (true, m)
  | some .CALL => do
    let ⟨_argc, cf⟩ ← fetch_byte cf codeinfo.codes
    let ⟨index, cf⟩ ← fetch_2bytes cf codeinfo.codes
    -- the name of the function is looked up, and nothing is called
    let _name ← Tuple_Get codeinfo.consts index
    .ok (true, cf, m.2)
  | some .RETURN => .ok (false, cf, m.2)
  | _ => .error .assertion

/-- `fuel` bounds the number of passes. -/
def eval_loop (codeinfo : CodeInfo α) : Nat → Machine α → Res (Machine α)
  | 0, _ => .error .fuel
  | fuel + 1, m => do
    let ⟨loopflag, m⟩ ← eval_inst codeinfo m
    if loopflag then eval_loop codeinfo fuel m else .ok m

/-- The frame on top runs until `RETURN` and is freed. -/
def eval_frame (fuel : Nat) (codeinfo : CodeInfo α) (cf : CallFrame α) (back : List (CallFrame α))
    (ks : KoalaState α) : Res (CallFrame α × KoalaState α) := do
  let ⟨cf, stack⟩ ← eval_loop codeinfo fuel (cf, ks.stack)
  pop_frame { ks with frame := cf :: back, stack }

/-- The arguments are stored when no instruction was fetched yet. -/
def prepare_frame (cf : CallFrame α) : Res (CallFrame α) :=
  if cf.index < 0 then do
    check_arguments cf
    prepare_kargs cf
  else
    .ok cf

def run_kfunction (fuel : Nat) (codeinfo : CodeInfo α) (cf : CallFrame α)
    (back : List (CallFrame α)) (ks : KoalaState α) : Res (CallFrame α × KoalaState α) := do
  let cf ← prepare_frame cf
  eval_frame fuel codeinfo cf back ks

/-- The results are pushed from the last to the first. -/
def push_results (stack : List α) : List (Option α) → Res (List α)
  | [] => .ok stack
  | ob :: items => do
    let stack ← push_results stack items
    let ob ← OB_INCREF ob
    PUSH stack ob

def run_cfunction (cfunc : Option α → Option α → Res (Option α)) (cf : CallFrame α)
    (ks : KoalaState α) : Res (CallFrame α × KoalaState α) := do
  check_arguments cf
  let ret ← cfunc cf.ob cf.args
  match ret with
  | none => pop_frame ks
  | some ob =>
    match Objects.items ob with
    | some items => do
      let stack ← push_results ks.stack items
      pop_frame { ks with stack }
    | none => do
      -- `Tuple_Free` asserts that the object is a tuple
      let _stack ← PUSH ks.stack ob
      .error .assertion

/-- The frame on top runs once. -/
def run_frame (fuel : Nat) (ks : KoalaState α) : Res (CallFrame α × KoalaState α) :=
  match ks.frame with
  | [] => .error .null
  | cf :: back =>
    match cf.code.kind with
    | .KCODE_KIND codeinfo => run_kfunction fuel codeinfo cf back ks
    | .CFUNC_KIND cfunc => run_cfunction cfunc cf ks

/-- A function is called and its frame runs. -/
def call_code (fuel : Nat) (code : CodeObject α) (ob args : Option α) (ks : KoalaState α) :
    Res (CallFrame α × KoalaState α) := do
  let ks ← push_frame code ob args ks
  run_frame fuel ks

/-- The loop of `Koala_RunCode`, which runs every frame there is. -/
def run_frames (fuel : Nat) : Nat → KoalaState α → Res (KoalaState α)
  | 0, _ => .error .fuel
  | passes + 1, ks =>
    match ks.frame with
    | [] => .ok ks
    | _ :: _ => do
      let ⟨_, ks⟩ ← run_frame fuel ks
      run_frames fuel passes ks

def Koala_RunCode (fuel : Nat) (code : CodeObject α) (ob args : Option α) (ks : KoalaState α) :
    Res (KoalaState α) := do
  let ks ← push_frame code ob args ks
  run_frames fuel fuel ks

end cases

end koala.eval
