import Koala.Codegen.Model
import Koala.List
import Mathlib.Algebra.BigOperators.Group.List.Basic
import Mathlib.Data.BitVec

open intrusive koala.list koala.parser

namespace koala.codegen.heap

set_option linter.style.nameCheck false

/-- An instruction but for its link. -/
structure Inst extends koala.parser.Inst where
  bytes : BitVec 32
  upbytes : BitVec 32

/-- A block at an address `B` but for the head of its instructions. -/
structure CodeBlock (B : Type) where
  bytes : BitVec 32
  next : Option B
  ret : Bool

/-- The memory of the blocks `B` and of the instructions `I`: a list head is a
block's `insts` or an instruction's `link`. -/
structure Heap (B I : Type) where
  link : Links (B ⊕ I)
  inst : I → Inst
  block : B → CodeBlock B

variable {B I : Type}

section bytes

variable [DecidableEq B] (m : Heap B I) (b c : B) (n : BitVec 32)

def Heap.setBytes : Heap B I :=
  { m with block := Function.update m.block b { m.block b with bytes := n } }

@[simp] theorem Heap.setBytes_link : (m.setBytes b n).link = m.link := rfl

@[simp] theorem Heap.setBytes_inst : (m.setBytes b n).inst = m.inst := rfl

@[simp] theorem Heap.setBytes_bytes_self : ((m.setBytes b n).block b).bytes = n := by
  simp [Heap.setBytes]

variable {b c} in
theorem Heap.setBytes_bytes_of_ne (hne : c ≠ b) :
    ((m.setBytes b n).block c).bytes = (m.block c).bytes := by
  simp [Heap.setBytes, Function.update_of_ne hne]

@[simp] theorem Heap.setBytes_next : ((m.setBytes b n).block c).next = (m.block c).next := by
  by_cases hc : c = b
  · subst hc
    simp [Heap.setBytes]
  · simp [Heap.setBytes, Function.update_of_ne hc]

@[simp] theorem Heap.setBytes_ret : ((m.setBytes b n).block c).ret = (m.block c).ret := by
  by_cases hc : c = b
  · subst hc
    simp [Heap.setBytes]
  · simp [Heap.setBytes, Function.update_of_ne hc]

end bytes

section upbytes

variable [DecidableEq I] (m : Heap B I) (i j : I) (n : BitVec 32)

def Heap.setUpbytes : Heap B I :=
  { m with inst := Function.update m.inst i { m.inst i with upbytes := n } }

@[simp] theorem Heap.setUpbytes_link : (m.setUpbytes i n).link = m.link := rfl

@[simp] theorem Heap.setUpbytes_block : (m.setUpbytes i n).block = m.block := rfl

@[simp] theorem Heap.setUpbytes_upbytes : ((m.setUpbytes i n).inst i).upbytes = n := by
  simp [Heap.setUpbytes]

variable {i j} in
theorem Heap.setUpbytes_of_ne (hne : j ≠ i) : (m.setUpbytes i n).inst j = m.inst j := by
  simp [Heap.setUpbytes, Function.update_of_ne hne]

@[simp] theorem Heap.setUpbytes_bytes :
    ((m.setUpbytes i n).inst j).bytes = (m.inst j).bytes := by
  by_cases hj : j = i
  · subst hj
    simp [Heap.setUpbytes]
  · rw [m.setUpbytes_of_ne n hj]

@[simp] theorem Heap.setUpbytes_code :
    ((m.setUpbytes i n).inst j).toInst = (m.inst j).toInst := by
  by_cases hj : j = i
  · subst hj
    simp [Heap.setUpbytes]
  · rw [m.setUpbytes_of_ne n hj]

end upbytes

variable [DecidableEq B] [DecidableEq I]

section link

variable (m : Heap B I) (b : B) (i : I)

def Heap.list_del : Heap B I := { m with link := koala.list.list_del m.link (.inr i) }

def Heap.list_add_tail : Heap B I :=
  { m with link := koala.list.list_add_tail m.link (.inr i) (.inl b) }

@[simp] theorem Heap.list_del_link :
    (m.list_del i).link = koala.list.list_del m.link (.inr i) := rfl

@[simp] theorem Heap.list_del_inst : (m.list_del i).inst = m.inst := rfl

@[simp] theorem Heap.list_del_block : (m.list_del i).block = m.block := rfl

@[simp] theorem Heap.list_add_tail_link :
    (m.list_add_tail b i).link = koala.list.list_add_tail m.link (.inr i) (.inl b) := rfl

@[simp] theorem Heap.list_add_tail_inst : (m.list_add_tail b i).inst = m.inst := rfl

@[simp] theorem Heap.list_add_tail_block : (m.list_add_tail b i).block = m.block := rfl

end link

/-- A block at the fresh address `b`. -/
def CodeBlock_New (m : Heap B I) (b : B) : Heap B I :=
  { m with
    link := init_list_head m.link (.inl b)
    block := Function.update m.block b ⟨0, none, false⟩ }

/-- An instruction at the fresh address `i`. -/
def inst_new (m : Heap B I) (i : I) (op : OpCode) (val : Option ConstValue) :
    Res (Heap B I) := do
  let argcount ← OpCode_ArgCount op.number
  .ok { m with
    link := init_list_head m.link (.inr i)
    inst := Function.update m.inst i ⟨⟨op, val, 0⟩, 1 + BitVec.ofNat 32 argcount, 0⟩ }

/-- The stores that put an instruction at the end of a block. -/
def Heap.add_last (m : Heap B I) (b : B) (i : I) : Heap B I :=
  let m := m.list_add_tail b i
  let m := m.setBytes b ((m.block b).bytes + (m.inst i).bytes)
  m.setUpbytes i (m.block b).bytes

def Inst_Append (m : Heap B I) (b : B) (i : I) (op : OpCode) (val : Option ConstValue) :
    Res (Heap B I) := do
  let m ← inst_new m i op val
  .ok (m.add_last b i)

/-- An instruction of `from_` goes to the end of `to_`. -/
def CodeBlock_Merge.move (m : Heap B I) (from_ to_ : B) (i : I) : Heap B I :=
  let m := m.list_del i
  let m := m.setBytes from_ ((m.block from_).bytes - (m.inst i).bytes)
  m.add_last to_ i

/-- `list_for_each_safe` over the instructions of `from_`: `n` is read before
`p` is moved. A list head other than the block's own is no instruction. -/
def CodeBlock_Merge.loop (from_ to_ : B) :
    Nat → Heap B I → B ⊕ I → B ⊕ I → Res (Heap B I)
  | _, m, .inl b, _ => if b = from_ then .ok m else .error .bounds
  | 0, _, .inr _, _ => .error .fuel
  | fuel + 1, m, .inr i, n =>
    let m := move m from_ to_ i
    loop from_ to_ fuel m n (m.link.next n)

/-- The loop and the assertion after it. -/
def CodeBlock_Merge.one (fuel : Nat) (m : Heap B I) (from_ to_ : B) : Res (Heap B I) := do
  let p := m.link.next (.inl from_)
  let m ← loop from_ to_ fuel m p (m.link.next p)
  if (m.block from_).bytes = 0 then .ok m else .error .assertion

/-- The blocks that follow. -/
def CodeBlock_Merge.rest (fuel : Nat) (to_ : B) : Nat → Heap B I → Option B → Res (Heap B I)
  | _, m, none => .ok m
  | 0, _, some _ => .error .fuel
  | blocks + 1, m, some b => do
    let m ← one fuel m b to_
    rest fuel to_ blocks m (m.block b).next

/-- Each loop makes at most `fuel` rounds. -/
def CodeBlock_Merge (fuel : Nat) (m : Heap B I) (from_ to_ : B) : Res (Heap B I) := do
  let m ← CodeBlock_Merge.one fuel m from_ to_
  CodeBlock_Merge.rest fuel to_ fuel m (m.block from_).next

end koala.codegen.heap
