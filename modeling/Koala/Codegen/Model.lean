import Koala.Buffer
import Koala.Bytes
import Koala.Image.KImage
import Koala.Parser.Expression
import Koala.Image.Pool
import Koala.Parser.Accepted

open koala.buffer koala.image koala.parser

namespace koala.codegen

set_option linter.style.nameCheck false

/-- A row of the table of opcodes: an opcode, its name and the size of its
operands. -/
structure opcode where
  op : UInt8
  opstr : String
  argsize : Nat

def opcodes : List opcode :=
  [⟨1, "POP_TOP", 0⟩, ⟨2, "POP_TOPN", 1⟩,
    ⟨3, "DUP", 0⟩,
    ⟨4, "PUSH_BYTE", 1⟩, ⟨5, "PUSH_SHORT", 2⟩,
    ⟨10, "LOAD_CONST", 2⟩, ⟨11, "LOAD_PKG", 2⟩,
    ⟨12, "LOAD", 1⟩, ⟨13, "LOAD_0", 0⟩, ⟨14, "LOAD_1", 0⟩, ⟨15, "LOAD_2", 0⟩, ⟨16, "LOAD_3", 0⟩,
    ⟨17, "STORE", 1⟩, ⟨18, "STORE_0", 0⟩, ⟨19, "STORE_1", 0⟩, ⟨20, "STORE_2", 0⟩,
    ⟨21, "STORE_3", 0⟩,
    ⟨22, "LOAD_FIELD", 2⟩, ⟨23, "STORE_FIELD", 2⟩, ⟨24, "CALL", 3⟩, ⟨25, "RETURN", 0⟩,
    ⟨40, "ADD", 0⟩, ⟨41, "SUB", 0⟩, ⟨42, "MUL", 0⟩, ⟨43, "DIV", 0⟩, ⟨44, "MOD", 0⟩,
    ⟨45, "POWER", 0⟩, ⟨46, "NEG", 0⟩,
    ⟨47, "GT", 0⟩, ⟨48, "GE", 0⟩, ⟨49, "LT", 0⟩, ⟨50, "LE", 0⟩, ⟨51, "EQ", 0⟩, ⟨52, "NEQ", 0⟩,
    ⟨53, "AND", 0⟩, ⟨54, "OR", 0⟩, ⟨55, "NOT", 0⟩,
    ⟨56, "BAND", 0⟩, ⟨57, "BOR", 0⟩, ⟨58, "BXOR", 0⟩, ⟨59, "BNOT", 0⟩, ⟨60, "LSHIFT", 0⟩,
    ⟨61, "RSHIFT", 0⟩,
    ⟨70, "JMP", 0⟩, ⟨71, "JMP_TRUE", 0⟩, ⟨72, "JMP_FALSE", 0⟩, ⟨73, "JMP_CMPEQ", 0⟩,
    ⟨74, "JMP_CMPNEQ", 0⟩, ⟨75, "JMP_CMPLT", 0⟩, ⟨76, "JMP_CMPGT", 0⟩, ⟨77, "JMP_CMPLE", 0⟩,
    ⟨78, "JMP_CMPGE", 0⟩, ⟨79, "JMP_NIL", 0⟩, ⟨80, "JMP_NOTNIL", 0⟩,
    ⟨90, "NEW", 0⟩, ⟨91, "NEW_ARRAY", 0⟩, ⟨92, "NEW_MAP", 0⟩, ⟨93, "NEW_SET", 0⟩,
    ⟨94, "NEW_CLOSURE", 0⟩, ⟨95, "ARRAY_LOAD", 0⟩, ⟨96, "ARRAY_STORE", 0⟩, ⟨97, "MAP_LOAD", 0⟩,
    ⟨98, "MAP_STORE", 0⟩]

/-- The table is indexed by the opcode. -/
def OpCode_ArgCount (op : UInt8) : Res Nat :=
  match opcodes[op.toNat]? with
  | none => .error .bounds
  | some row => .ok row.argsize

/-- No row stands at the position of its opcode. -/
theorem opcodes_op_ne {i : Nat} {row : opcode} (h : opcodes[i]? = some row) :
    i < row.op.toNat := by
  have hrows : ∀ p ∈ opcodes.zipIdx, p.2 < p.1.op.toNat := by decide
  exact hrows (row, i) (List.mem_zipIdx_iff_getElem?.mpr h)

/-- An instruction with its size and the size of the code up to its end. -/
structure Inst extends koala.parser.Inst where
  bytes : Nat
  upbytes : Nat

structure CodeBlock where
  bytes : Nat
  insts : List Inst

def CodeBlock_New : CodeBlock := ⟨0, []⟩

def inst_new (i : koala.parser.Inst) : Res Inst := do
  let argcount ← OpCode_ArgCount i.op.number
  .ok { i with bytes := 1 + argcount, upbytes := 0 }

/-- The instruction `i` is appended, with the number of arguments that a call
gets afterwards. -/
def Inst_Append (b : CodeBlock) (i : koala.parser.Inst) : Res CodeBlock := do
  let i ← inst_new i
  let bytes := b.bytes + i.bytes
  .ok ⟨bytes, b.insts ++ [{ i with upbytes := bytes }]⟩

/-- Instructions are appended one after the other. -/
def Inst_Appends (b : CodeBlock) : List koala.parser.Inst → Res CodeBlock
  | [] => .ok b
  | i :: insts => do
    let b ← Inst_Append b i
    Inst_Appends b insts

def le16 (n : Nat) : List UInt8 := [UInt8.ofNat n, UInt8.ofNat (n / 2 ^ 8)]

def Buffer_Write_Byte (buf : Buffer) (data : Nat) : Buffer := Buffer_Write buf [UInt8.ofNat data]

def Buffer_Write_2Bytes (buf : Buffer) (data : Nat) : Buffer := Buffer_Write buf (le16 data)

def Buffer_Write_4Bytes (buf : Buffer) (data : Nat) : Buffer :=
  Buffer_Write buf (bytes.le32 data)

/-- The `str` of an argument. -/
def str : Option ConstValue → Res CString
  | none => .error .null
  | some (.BASE_STRING s) => .ok s
  | some _ => .error .bounds

section gen

variable [Arith] (mem : Memory) (n : Nat) (image : KImage)

/-- The constant of a `LOAD_CONST`. -/
def add_const : Option ConstValue → Res (Int × KImage)
  | some (.BASE_INT ival) => KImage_Add_Integer (mem.key n) (mem.item n) image ival
  | some (.BASE_FLOAT fval) => KImage_Add_Float (mem.key n) (mem.item n) image fval
  | some (.BASE_BOOL bval) => KImage_Add_Bool (mem.key n) (mem.item n) image (if bval then 1 else 0)
  | some (.BASE_STRING str) => KImage_Add_String (mem.key n) (mem.item n) image str
  | some (.BASE_CHAR ch) => KImage_Add_UChar (mem.key n) (mem.item n) image ch
  | none => .error .assertion

/-- The string that an instruction names. -/
def add_str (arg : Option ConstValue) : Res (Int × KImage) := do
  let s ← str arg
  KImage_Add_String (mem.key n) (mem.item n) image s

/-- The `n`th instruction is written. -/
def inst_gen (buf : Buffer) (i : koala.parser.Inst) : Res (KImage × Buffer) :=
  let buf := Buffer_Write buf [i.op.number]
  match i.op with
  | .LOAD_CONST => do
    let (index, image) ← add_const mem n image i.arg
    .ok (image, Buffer_Write_2Bytes buf (uint32 index))
  | .LOAD_PKG => do
    let (index, image) ← add_str mem n image i.arg
    .ok (image, Buffer_Write_2Bytes buf (uint32 index))
  | .LOAD => .ok (image, Buffer_Write_Byte buf (ival i.arg).toNat)
  | .STORE => .ok (image, Buffer_Write_Byte buf (ival i.arg).toNat)
  | .LOAD_FIELD => do
    let (index, image) ← add_str mem n image i.arg
    .ok (image, Buffer_Write_2Bytes buf (uint32 index))
  | .STORE_FIELD => do
    let (index, image) ← add_str mem n image i.arg
    .ok (image, Buffer_Write_2Bytes buf (uint32 index))
  | .CALL | .NEW => do
    let (index, image) ← add_str mem n image i.arg
    let buf := Buffer_Write_4Bytes buf (uint32 index)
    .ok (image, Buffer_Write_2Bytes buf i.argc)
  | .RETURN | .ADD | .SUB | .MUL | .DIV | .MOD | .GT | .GE | .LT | .LE | .EQ | .NEQ | .NEG =>
    .ok (image, buf)
  | .JMP | .JMP_TRUE | .JMP_FALSE => .ok (image, Buffer_Write_2Bytes buf (ival i.arg).toNat)
  | .NEW_ARRAY => .ok (image, Buffer_Write_4Bytes buf (ival i.arg).toNat)
  | .POP_TOP | .POP_TOPN | .LOAD_0 => .error .assertion

/-- Instructions are written, the first of them as the `n`th. -/
def inst_gens (n : Nat) (image : KImage) (buf : Buffer) :
    List koala.parser.Inst → Res (KImage × Buffer)
  | [] => .ok (image, buf)
  | i :: insts => do
    let (image, buf) ← inst_gen mem n image buf i
    inst_gens (n + 1) image buf insts

/-- The code of some instructions and its size. -/
def CodeBlock_To_RawCode (block : Option CodeBlock) : Res (KImage × List UInt8 × Nat) :=
  match block with
  | none => .ok (image, [], 0)
  | some block => do
    let buf := Buffer_Init 32 (by decide)
    let (image, buf) ← inst_gens mem n image buf (block.insts.map Inst.toInst)
    .ok (image, Buffer_RawData buf, Buffer_Size buf)

end gen

end koala.codegen

open koala.buffer koala.image koala.parser

namespace koala.codegen

set_option linter.style.nameCheck false

/-- The bytes that `inst_gen` writes for an instruction. -/
def codesize : OpCode → Nat
  | .LOAD_CONST | .LOAD_PKG | .LOAD_FIELD | .STORE_FIELD => 3
  | .LOAD | .STORE => 2
  | .CALL | .NEW => 7
  | .JMP | .JMP_TRUE | .JMP_FALSE => 3
  | .NEW_ARRAY => 5
  | .RETURN | .ADD | .SUB | .MUL | .DIV | .MOD | .GT | .GE | .LT | .LE | .EQ | .NEQ | .NEG => 1
  | .POP_TOP | .POP_TOPN | .LOAD_0 => 0

/-- The instructions that `inst_gen` supports: those of its cases, whose
argument is of the kind that the case reads. -/
def Supported (i : koala.parser.Inst) : Prop :=
  match i.op with
  | .LOAD_CONST => i.arg.isSome = true
  | .LOAD_PKG | .LOAD_FIELD | .STORE_FIELD | .CALL | .NEW => ∃ s, i.arg = some (.BASE_STRING s)
  | .LOAD | .STORE | .JMP | .JMP_TRUE | .JMP_FALSE | .NEW_ARRAY => ∃ v, i.arg = some (.BASE_INT v)
  | .POP_TOP | .POP_TOPN | .LOAD_0 => False
  | _ => True

section size

variable (buf : Buffer) (data : Nat)

@[simp] theorem length_le16 : (le16 data).length = 2 := rfl

@[simp] theorem size_write_byte :
    Buffer_Size (Buffer_Write_Byte buf data) = Buffer_Size buf + 1 := size_write ..

@[simp] theorem size_write_2bytes :
    Buffer_Size (Buffer_Write_2Bytes buf data) = Buffer_Size buf + 2 := size_write ..

@[simp] theorem size_write_4bytes :
    Buffer_Size (Buffer_Write_4Bytes buf data) = Buffer_Size buf + 4 := size_write ..

end size

section gen

variable [Arith] {mem : Memory} {n : Nat} {image image' : KImage} {buf buf' : Buffer}
  {i : koala.parser.Inst} {insts : List koala.parser.Inst}

theorem inst_gen_size (h : inst_gen mem n image buf i = .ok (image', buf')) :
    Buffer_Size buf' = Buffer_Size buf + codesize i.op := by
  obtain ⟨op, arg, argc⟩ := i
  have hop : Buffer_Size (Buffer_Write buf [op.number]) = Buffer_Size buf + 1 := size_write ..
  cases op with
  | LOAD_CONST | LOAD_PKG | LOAD_FIELD | STORE_FIELD =>
    obtain ⟨⟨index, image₁⟩, -, heq⟩ := bind_eq_ok_iff.mp h
    cases heq
    rw [size_write_2bytes, hop]
    rfl
  | CALL | NEW =>
    obtain ⟨⟨index, image₁⟩, -, heq⟩ := bind_eq_ok_iff.mp h
    cases heq
    rw [size_write_2bytes, size_write_4bytes, hop]
    rfl
  | LOAD | STORE =>
    cases h
    rw [size_write_byte, hop]
    rfl
  | JMP | JMP_TRUE | JMP_FALSE =>
    cases h
    rw [size_write_2bytes, hop]
    rfl
  | NEW_ARRAY =>
    cases h
    rw [size_write_4bytes, hop]
    rfl
  | POP_TOP | POP_TOPN | LOAD_0 => cases h
  | _ =>
    cases h
    exact hop

/-- The code of a list of instructions is as long as the codes of its
instructions together. -/
theorem inst_gens_size (h : inst_gens mem n image buf insts = .ok (image', buf')) :
    Buffer_Size buf' = Buffer_Size buf + (insts.map fun i => codesize i.op).sum := by
  induction insts generalizing n image buf with
  | nil =>
    cases h
    rfl
  | cons i insts ih =>
    obtain ⟨⟨image₁, buf₁⟩, hgen, h⟩ := bind_eq_ok_iff.mp h
    rw [ih h, inst_gen_size hgen, List.map_cons, List.sum_cons, Nat.add_assoc]

theorem rawCode_size {block : CodeBlock} {code : List UInt8} {size : Nat}
    (h : CodeBlock_To_RawCode mem n image (some block) = .ok (image', code, size)) :
    size = code.length ∧
      code.length = (block.insts.map fun i => codesize i.op).sum := by
  obtain ⟨⟨image₁, buf⟩, hgen, heq⟩ := bind_eq_ok_iff.mp h
  cases heq
  have hsize := inst_gens_size hgen
  have hempty : Buffer_Size (Buffer_Init 32 (by decide)) = 0 := rfl
  rw [hempty, Nat.zero_add, List.map_map] at hsize
  refine ⟨Buffer_Size_eq buf, ?_⟩
  rw [← Buffer_Size_eq, hsize]
  rfl

end gen

section new

variable (mem : Memory) (n : Nat) (name : Option CString)

/-- A constant can be added to a new image. -/
theorem new_add {a : Add} (ha : stores_const a = true) :
    ∃ r, (KImage_New name).add mem n a = .ok r := by
  have hsound : Sound (KImage_New name).table := sound_new
  obtain ⟨T, v, hT, -, -, hitems, hadd⟩ := add_constant hsound ha
  have hempty : ∀ addr, ∀ c ∈ T.items .ITEM_CONST, constitem_equal c ⟨addr, v⟩ = false := by
    intro addr c hc
    rw [hitems] at hc
    cases hc
  obtain ⟨T₁, hset, -, -⟩ := image.constitem_set_new hT.wf (hempty (mem.key n))
    (hempty (mem.item n))
  rw [hadd, hset]
  exact ⟨_, rfl⟩

theorem exists_of_withindex {x : Res (Int × KImage)} (h : ∃ r, withindex x = .ok r) :
    ∃ y, x = .ok y := by
  obtain ⟨r, h⟩ := h
  cases x with
  | ok y => exact ⟨y, rfl⟩
  | error e => cases h

theorem new_add_const {arg : Option ConstValue} (h : arg.isSome = true) :
    ∃ r, add_const mem n (KImage_New name) arg = .ok r := by
  obtain ⟨val, rfl⟩ := Option.isSome_iff_exists.mp h
  refine exists_of_withindex ?_
  cases val with
  | BASE_INT v => exact new_add mem n name (a := .Integer v) rfl
  | BASE_FLOAT v => exact new_add mem n name (a := .Float v) rfl
  | BASE_BOOL b => exact new_add mem n name (a := .Bool (if b then 1 else 0)) rfl
  | BASE_STRING s => exact new_add mem n name (a := .String s) rfl
  | BASE_CHAR c => exact new_add mem n name (a := .UChar c) rfl

theorem new_add_str (s : CString) :
    ∃ r, add_str mem n (KImage_New name) (some (.BASE_STRING s)) = .ok r := by
  rw [add_str, str, ok_bind]
  exact exists_of_withindex (new_add mem n name (a := .String s) rfl)

/-- A supported instruction can be written for a new image. -/
theorem new_inst_gen [Arith] (buf : Buffer) {i : koala.parser.Inst} (h : Supported i) :
    ∃ r, inst_gen mem n (KImage_New name) buf i = .ok r := by
  obtain ⟨op, arg, argc⟩ := i
  cases op with
  | LOAD_CONST =>
    obtain ⟨r, hadd⟩ := new_add_const mem n name h
    rw [inst_gen, hadd]
    exact ⟨_, rfl⟩
  | LOAD_PKG | LOAD_FIELD | STORE_FIELD | CALL | NEW =>
    obtain ⟨s, hs⟩ := h
    obtain ⟨r, hadd⟩ := new_add_str mem n name s
    dsimp only at hs
    rw [hs, inst_gen, hadd]
    exact ⟨_, rfl⟩
  | POP_TOP | POP_TOPN | LOAD_0 => exact h.elim
  | _ => exact ⟨_, rfl⟩

end new

/-- The sizes of the block that is built from some instructions: no lookup
leaves the table, the block counts the bytes of its code, every instruction
counts the bytes that are written for it, and `upbytes` is the offset behind
it. -/
def Counted [Arith] (insts : List koala.parser.Inst) : Prop :=
  ∃ b, Inst_Appends CodeBlock_New insts = .ok b ∧
    (∀ (mem : Memory) (n : Nat) (image image' : KImage) (code : List UInt8) (size : Nat),
      CodeBlock_To_RawCode mem n image (some b) = .ok (image', code, size) →
        b.bytes = code.length ∧ size = code.length) ∧
    ∀ (k : Nat) (i : Inst), b.insts[k]? = some i →
      (∀ (mem : Memory) (n : Nat) (image image' : KImage) (buf buf' : Buffer),
        inst_gen mem n image buf i.toInst = .ok (image', buf') →
          Buffer_Size buf' = Buffer_Size buf + i.bytes) ∧
      ∀ (mem : Memory) (n : Nat) (image image' : KImage) (code : List UInt8) (size : Nat),
        CodeBlock_To_RawCode mem n image (some { b with insts := b.insts.take (k + 1) }) =
          .ok (image', code, size) → i.upbytes = code.length

/-- The opcodes whose row in the table is found by accident: the row at their
position has the size of their operands. -/
def agrees : OpCode → Bool
  | .LOAD | .RETURN | .ADD | .SUB | .MUL | .DIV | .MOD | .NEG => true
  | .GT | .GE | .LT | .LE | .EQ | .NEQ => true
  | _ => false

/-- What the table says about the opcodes that code is generated for. -/
theorem agrees_iff (op : OpCode) :
    agrees op = true ↔ 0 < codesize op ∧
      OpCode_ArgCount op.number = .ok (codesize op - 1) := by
  cases op <;> decide

/-- The sizes in a block are those of the code of its instructions. -/
structure Exact (b : CodeBlock) : Prop where
  bytes : b.bytes = (b.insts.map fun i => codesize i.op).sum
  inst : ∀ i ∈ b.insts, i.bytes = codesize i.op
  upto : ∀ (k : Nat) (i : Inst), b.insts[k]? = some i →
    i.upbytes = ((b.insts.take (k + 1)).map fun i => codesize i.op).sum

theorem exact_new : Exact CodeBlock_New where
  bytes := rfl
  inst i hi := by cases hi
  upto k i hi := by simp [CodeBlock_New] at hi

section append

variable {b b' : CodeBlock} {i : koala.parser.Inst} {insts : List koala.parser.Inst}

theorem Inst_Append_ok (h : Inst_Append b i = .ok b') :
    ∃ j, b' = ⟨b.bytes + j.bytes, b.insts ++ [j]⟩ ∧ j.toInst = i ∧
      OpCode_ArgCount i.op.number = .ok (j.bytes - 1) ∧ 0 < j.bytes ∧
      j.upbytes = b.bytes + j.bytes := by
  obtain ⟨j, hnew, heq⟩ := bind_eq_ok_iff.mp h
  cases heq
  obtain ⟨argcount, hcount, heq⟩ := bind_eq_ok_iff.mp hnew
  cases heq
  refine ⟨{ i with bytes := 1 + argcount, upbytes := b.bytes + (1 + argcount) }, rfl, rfl, ?_, ?_,
    rfl⟩
  · rw [hcount, Nat.add_sub_cancel_left]
  · exact Nat.lt_of_lt_of_le Nat.one_pos (Nat.le_add_right 1 argcount)

/-- Every instruction of a built block has the size that its row gives. -/
theorem Inst_Appends_ok (h : Inst_Appends b insts = .ok b') :
    ∃ sized, b'.insts = b.insts ++ sized ∧ sized.map Inst.toInst = insts ∧
      ∀ i ∈ sized, OpCode_ArgCount i.op.number = .ok (i.bytes - 1) ∧ 0 < i.bytes := by
  induction insts generalizing b with
  | nil =>
    cases h
    exact ⟨[], by simp, rfl, by simp⟩
  | cons i insts ih =>
    obtain ⟨b₁, happend, hrest⟩ := bind_eq_ok_iff.mp h
    obtain ⟨j, rfl, rfl, hcount, hpos, -⟩ := Inst_Append_ok happend
    obtain ⟨sized, hinsts, hmap, hsized⟩ := ih hrest
    refine ⟨j :: sized, ?_, ?_, ?_⟩
    · rw [hinsts, List.append_assoc, List.singleton_append]
    · rw [List.map_cons, hmap]
    · exact List.forall_mem_cons.mpr ⟨⟨hcount, hpos⟩, hsized⟩

/-- One more instruction with the right row keeps the sizes right. -/
theorem Exact.append (h : Exact b) (hagrees : agrees i.op = true) :
    ∃ b', Inst_Append b i = .ok b' ∧ Exact b' := by
  obtain ⟨hpos, hcount⟩ := (agrees_iff i.op).mp hagrees
  have hbuild : ∃ b', Inst_Append b i = .ok b' := by
    rw [Inst_Append, inst_new, hcount]
    exact ⟨_, rfl⟩
  obtain ⟨b', hbuild⟩ := hbuild
  obtain ⟨j, rfl, rfl, hrow, hrowpos, hupto⟩ := Inst_Append_ok hbuild
  have hbytes : j.bytes = codesize j.op := by
    have heq := Except.ok.inj (hrow.symm.trans hcount)
    omega
  have hsum : b.bytes + j.bytes = ((b.insts ++ [j]).map fun i => codesize i.op).sum := by
    rw [List.map_append, List.sum_append, ← h.bytes, hbytes]
    simp
  refine ⟨_, hbuild, hsum, ?_, ?_⟩
  · intro i hi
    obtain hold | hnew := List.mem_append.mp hi
    · exact h.inst i hold
    · rw [List.mem_singleton.mp hnew, hbytes]
  · intro k i hi
    dsimp only at hi ⊢
    by_cases hk : k < b.insts.length
    · rw [List.getElem?_append_left hk] at hi
      rw [List.take_append_of_le_length hk]
      exact h.upto k i hi
    · rw [List.getElem?_append_right (Nat.not_lt.mp hk)] at hi
      rw [List.getElem?_singleton] at hi
      obtain ⟨hlast, heq⟩ := Option.ite_none_right_eq_some.mp hi
      rw [← Option.some.inj heq, List.take_of_length_le, ← hsum, hupto]
      rw [List.length_append, List.length_singleton]
      omega

theorem Exact.appends (h : Exact b) (hagrees : ∀ i ∈ insts, agrees i.op = true) :
    ∃ b', Inst_Appends b insts = .ok b' ∧ Exact b' := by
  induction insts generalizing b with
  | nil => exact ⟨b, rfl, h⟩
  | cons i insts ih =>
    obtain ⟨b₁, happend, h₁⟩ := h.append (hagrees i List.mem_cons_self)
    rw [Inst_Appends, happend]
    exact ih h₁ fun j hj => hagrees j (List.mem_cons_of_mem i hj)

end append

/-- For all instructions that `inst_gen` supports, in any number and order: the
sizes are right if and only if every opcode is one of these. -/
theorem counted_iff [Arith] {insts : List koala.parser.Inst} (hgen : ∀ i ∈ insts, Supported i) :
    Counted insts ↔ ∀ i ∈ insts, agrees i.op = true := by
  refine ⟨fun ⟨b, hbuild, _, heach⟩ i hi => ?_, fun hagrees => ?_⟩
  · obtain ⟨sized, hinsts, hmap, hsized⟩ := Inst_Appends_ok hbuild
    rw [← hmap] at hi
    obtain ⟨j, hj, rfl⟩ := List.mem_map.mp hi
    obtain ⟨hcount, hpos⟩ := hsized j hj
    have hjb : j ∈ b.insts := hinsts ▸ List.mem_append_right _ hj
    obtain ⟨k, hk⟩ := List.mem_iff_getElem?.mp hjb
    have hsupported := hgen j.toInst (hmap ▸ List.mem_map_of_mem hj)
    obtain ⟨⟨image, buf⟩, hrun⟩ := new_inst_gen .evenOdd 0 none (Buffer_Init 32 (by decide))
      hsupported
    have hcounted := (heach k j hk).1 _ _ _ _ _ _ hrun
    rw [inst_gen_size hrun, Nat.add_left_cancel_iff] at hcounted
    rw [agrees_iff, hcounted]
    exact ⟨hpos, hcount⟩
  · obtain ⟨b, hbuild, hexact⟩ := exact_new.appends hagrees
    refine ⟨b, hbuild, fun mem n image image' code size hraw => ?_, fun k i hi => ⟨?_, ?_⟩⟩
    · obtain ⟨hsize, hlength⟩ := rawCode_size hraw
      exact ⟨hexact.bytes.trans hlength.symm, hsize⟩
    · intro mem n image image' buf buf' hrun
      rw [inst_gen_size hrun, hexact.inst i (List.mem_of_getElem? hi)]
    · intro mem n image image' code size hraw
      rw [(rawCode_size hraw).2]
      exact hexact.upto k i hi

/-- A local variable is loaded and returned. -/
theorem counted_iff_load : Counted [⟨.LOAD, some (.BASE_INT 1), 0⟩, ⟨.RETURN, none, 0⟩] := by
  refine (counted_iff ?_).mpr ?_
  · intro i hi
    obtain rfl | rfl : i = ⟨.LOAD, some (.BASE_INT 1), 0⟩ ∨ i = ⟨.RETURN, none, 0⟩ := by
      simpa using hi
    · exact ⟨1, rfl⟩
    · exact trivial
  · decide

/-- A constant is loaded: three bytes are written, one is counted. -/
theorem not_counted : ¬ ∀ insts : List koala.parser.Inst,
    (∀ i ∈ insts, Supported i) → Counted insts := by
  intro h
  obtain ⟨b, hbuild, -, heach⟩ := h [⟨.LOAD_CONST, some (.BASE_INT 0), 0⟩] (by
    intro i hi
    rw [List.mem_singleton.mp hi]
    rfl)
  cases hbuild
  obtain ⟨⟨image, buf⟩, hrun⟩ := new_inst_gen .evenOdd 0 none (Buffer_Init 32 (by decide))
    (i := ⟨.LOAD_CONST, some (.BASE_INT 0), 0⟩) rfl
  have hcounted := (heach 0 _ rfl).1 _ _ _ _ _ _ hrun
  rw [inst_gen_size hrun] at hcounted
  exact absurd (Nat.add_left_cancel hcounted) (by decide)

end koala.codegen
