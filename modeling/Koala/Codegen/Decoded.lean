import Koala.Codegen.Model
import Koala.Eval.Fetch
import Koala.Parser.Accepted

open koala.buffer koala.image koala.parser koala.eval

namespace koala.codegen

set_option linter.style.nameCheck false

/-- The instructions that the emitters of the parser append. -/
def Appended (i : koala.parser.Inst) : Prop :=
  match i.op with
  | .LOAD_CONST => i.arg.isSome = true
  | .LOAD | .STORE => ∃ v, i.arg = some (.BASE_INT v)
  | .LOAD_FIELD | .STORE_FIELD | .CALL => ∃ s, i.arg = some (.BASE_STRING s)
  | .RETURN | .LOAD_0 => True
  | _ => False

section operands

variable [Arith] (mem : Memory) (n : Nat) (image : KImage)

/-- The operands of an instruction: the place of a constant or of a name in the
image, the number of a local variable, and that of the arguments of a call. -/
def inst_operands (i : koala.parser.Inst) : Res (KImage × List Nat) :=
  match i.op with
  | .LOAD_CONST => do
    let (index, image) ← add_const mem n image i.arg
    .ok (image, [uint32 index])
  | .LOAD_FIELD | .STORE_FIELD => do
    let (index, image) ← add_str mem n image i.arg
    .ok (image, [uint32 index])
  | .LOAD | .STORE => .ok (image, [(ival i.arg).toNat])
  | .CALL => do
    let (index, image) ← add_str mem n image i.arg
    .ok (image, [i.argc, uint32 index])
  | _ => .ok (image, [])

def insts_operands (n : Nat) (image : KImage) :
    List koala.parser.Inst → Res (KImage × List (OpCode × List Nat))
  | [] => .ok (image, [])
  | i :: insts => do
    let (image, operands) ← inst_operands mem n image i
    let (image, rest) ← insts_operands (n + 1) image insts
    .ok (image, (i.op, operands) :: rest)

end operands

/-- The operands fit their fields: one byte for a local variable, one for the
number of arguments of a call and two for a constant or a name. -/
inductive Fits : OpCode × List Nat → Prop where
  | LOAD_CONST {index : Nat} (hfit : index < 2 ^ 16) : Fits (.LOAD_CONST, [index])
  | LOAD {index : Nat} (hfit : index < 2 ^ 8) : Fits (.LOAD, [index])
  | STORE {index : Nat} (hfit : index < 2 ^ 8) : Fits (.STORE, [index])
  | LOAD_FIELD {index : Nat} (hfit : index < 2 ^ 16) : Fits (.LOAD_FIELD, [index])
  | STORE_FIELD {index : Nat} (hfit : index < 2 ^ 16) : Fits (.STORE_FIELD, [index])
  | CALL {argc index : Nat} (hargc : argc < 2 ^ 8) (hfit : index < 2 ^ 16) :
    Fits (.CALL, [argc, index])
  | RETURN : Fits (.RETURN, [])
  | LOAD_0 : Fits (.LOAD_0, [])

/-- The bytes of an instruction. -/
def inst_bytes : OpCode × List Nat → List UInt8
  | (.LOAD, [index]) => [OpCode.LOAD.number, UInt8.ofNat index]
  | (.STORE, [index]) => [OpCode.STORE.number, UInt8.ofNat index]
  | (.CALL, [argc, index]) => OpCode.CALL.number :: (bytes.le32 index ++ le16 argc)
  | (op, [index]) => op.number :: le16 index
  | (op, _) => [op.number]

section write

variable {buf : Buffer}

@[simp] theorem rawData_write_byte (data : Nat) :
    Buffer_RawData (Buffer_Write_Byte buf data) = Buffer_RawData buf ++ [UInt8.ofNat data] :=
  rawData_write ..

@[simp] theorem rawData_write_2bytes (data : Nat) :
    Buffer_RawData (Buffer_Write_2Bytes buf data) = Buffer_RawData buf ++ le16 data :=
  rawData_write ..

@[simp] theorem rawData_write_4bytes (data : Nat) :
    Buffer_RawData (Buffer_Write_4Bytes buf data) = Buffer_RawData buf ++ bytes.le32 data :=
  rawData_write ..

end write

section gen

variable [Arith] {mem : Memory} {n : Nat} {image image' : KImage}
  {i : koala.parser.Inst} {insts : List koala.parser.Inst} {operands : List Nat}
  {decoded : List (OpCode × List Nat)}

/-- Every instruction but `LOAD_0` is written with its operands. -/
theorem inst_gen_bytes (buf : Buffer) (happended : Appended i) (hop : i.op ≠ .LOAD_0)
    (h : inst_operands mem n image i = .ok (image', operands)) :
    ∃ buf', inst_gen mem n image buf i = .ok (image', buf') ∧
      Buffer_RawData buf' = Buffer_RawData buf ++ inst_bytes (i.op, operands) := by
  obtain ⟨op, arg, argc⟩ := i
  cases op with
  | LOAD_CONST =>
    obtain ⟨⟨index, image₁⟩, hadd, heq⟩ := bind_eq_ok_iff.mp h
    cases heq
    rw [inst_gen, hadd]
    refine ⟨_, rfl, ?_⟩
    rw [rawData_write_2bytes, rawData_write, List.append_assoc]
    rfl
  | LOAD_FIELD | STORE_FIELD =>
    obtain ⟨⟨index, image₁⟩, hadd, heq⟩ := bind_eq_ok_iff.mp h
    cases heq
    rw [inst_gen, hadd]
    refine ⟨_, rfl, ?_⟩
    rw [rawData_write_2bytes, rawData_write, List.append_assoc]
    rfl
  | CALL =>
    obtain ⟨⟨index, image₁⟩, hadd, heq⟩ := bind_eq_ok_iff.mp h
    cases heq
    rw [inst_gen, hadd]
    refine ⟨_, rfl, ?_⟩
    rw [rawData_write_2bytes, rawData_write_4bytes, rawData_write, List.append_assoc,
      List.append_assoc]
    rfl
  | LOAD | STORE =>
    cases h
    refine ⟨_, rfl, ?_⟩
    rw [rawData_write_byte, rawData_write, List.append_assoc]
    rfl
  | RETURN =>
    cases h
    exact ⟨_, rfl, rawData_write ..⟩
  | LOAD_0 => exact absurd rfl hop
  | _ => exact happended.elim

theorem inst_gens_bytes (buf : Buffer) (happended : ∀ i ∈ insts, Appended i)
    (hop : ∀ i ∈ insts, i.op ≠ .LOAD_0)
    (h : insts_operands mem n image insts = .ok (image', decoded)) :
    ∃ buf', inst_gens mem n image buf insts = .ok (image', buf') ∧
      Buffer_RawData buf' = Buffer_RawData buf ++ decoded.flatMap inst_bytes := by
  induction insts generalizing n image buf decoded with
  | nil =>
    cases h
    exact ⟨buf, rfl, by simp⟩
  | cons i insts ih =>
    obtain ⟨⟨image₁, operands⟩, hoperands, h⟩ := bind_eq_ok_iff.mp h
    obtain ⟨⟨image₂, rest⟩, hrest, heq⟩ := bind_eq_ok_iff.mp h
    cases heq
    obtain ⟨buf₁, hgen, hbytes⟩ := inst_gen_bytes buf (happended i List.mem_cons_self)
      (hop i List.mem_cons_self) hoperands
    obtain ⟨buf₂, hgens, hbytes₂⟩ := ih buf₁
      (fun j hj => happended j (List.mem_cons_of_mem i hj))
      (fun j hj => hop j (List.mem_cons_of_mem i hj)) hrest
    refine ⟨buf₂, ?_, ?_⟩
    · rw [inst_gens, hgen, ok_bind]
      exact hgens
    · rw [hbytes₂, hbytes, List.flatMap_cons, List.append_assoc]

/-- No code is generated for `LOAD_0`. -/
theorem inst_gens_LOAD_0 {buf : Buffer} (hmem : ∃ i ∈ insts, i.op = .LOAD_0) (r : KImage × Buffer) :
    inst_gens mem n image buf insts ≠ .ok r := by
  induction insts generalizing n image buf with
  | nil => simp at hmem
  | cons i insts ih =>
    intro h
    obtain ⟨⟨image₁, buf₁⟩, hgen, hrest⟩ := bind_eq_ok_iff.mp h
    obtain ⟨j, hj, hop⟩ := hmem
    obtain rfl | hj := List.mem_cons.mp hj
    · rw [inst_gen, hop] at hgen
      cases hgen
    · exact ih ⟨j, hj, hop⟩ hrest

theorem insts_operands_ops (h : insts_operands mem n image insts = .ok (image', decoded)) :
    decoded.map Prod.fst = insts.map fun i => i.op := by
  induction insts generalizing n image decoded with
  | nil =>
    cases h
    rfl
  | cons i insts ih =>
    obtain ⟨⟨image₁, operands⟩, -, h⟩ := bind_eq_ok_iff.mp h
    obtain ⟨⟨image₂, rest⟩, hrest, heq⟩ := bind_eq_ok_iff.mp h
    cases heq
    rw [List.map_cons, List.map_cons, ih hrest]

end gen

/-- The opcodes that the interpreter reads as they are written. -/
def decodes : OpCode → Bool
  | .LOAD_CONST | .LOAD_FIELD | .RETURN => true
  | _ => false

section walk

variable {α : Type} {codes rest : List UInt8} {cf : CallFrame α} {i : OpCode × List Nat}
  {decoded : List (OpCode × List Nat)}

theorem le16_value {index : Nat} (hfit : index < 2 ^ 16) :
    (UInt8.ofNat (index / 2 ^ 8)).toNat * 2 ^ 8 + (UInt8.ofNat index).toNat = index := by
  simp only [UInt8.toNat_ofNat']
  omega

theorem inst_bytes_head (i : OpCode × List Nat) :
    ∃ rest, inst_bytes i = i.1.number :: rest := by
  obtain ⟨op, operands⟩ := i
  unfold inst_bytes
  split <;> simp_all

theorem number_pos (op : OpCode) : 0 < op.number.toNat := by
  cases op <;> decide

/-- An instruction of one of these opcodes is fetched as it was written. -/
theorem fetch_decodes (hfits : Fits i) (hop : decodes i.1 = true)
    (hrest : Remaining cf codes (inst_bytes i ++ rest)) :
    ∃ cf', fetch_inst codes cf = .ok (i, cf') ∧ Remaining cf' codes rest := by
  cases hfits with
  | LOAD_CONST hfit | LOAD_FIELD hfit =>
    obtain ⟨cf₁, hbyte, hrest₁⟩ := fetch_byte_cons hrest
    obtain ⟨cf₂, hindex, hrest₂⟩ := fetch_2bytes_cons hrest₁
    rw [le16_value hfit] at hindex
    rw [fetch_inst, hbyte, ok_bind]
    dsimp only
    rw [OpCode.ofNumber_number]
    dsimp only
    rw [hindex]
    exact ⟨cf₂, rfl, hrest₂⟩
  | RETURN =>
    obtain ⟨cf₁, hbyte, hrest₁⟩ := fetch_byte_cons hrest
    rw [fetch_inst, hbyte]
    exact ⟨cf₁, rfl, hrest₁⟩
  | _ => cases hop

theorem flatMap_bytes_head {b : UInt8} (h : decoded.flatMap inst_bytes = b :: rest) :
    0 < b.toNat := by
  cases decoded with
  | nil => cases h
  | cons i decoded =>
    obtain ⟨more, hmore⟩ := inst_bytes_head i
    rw [List.flatMap_cons, hmore, List.cons_append] at h
    obtain ⟨rfl, -⟩ := List.cons_eq_cons.mp h
    exact number_pos i.1

/-- The one byte of a local variable is not read as two. -/
theorem fetch_2bytes_ne {index : Nat} (hfit : index < 2 ^ 8)
    (hrest : Remaining cf codes (UInt8.ofNat index :: decoded.flatMap inst_bytes))
    (cf' : CallFrame α) : fetch_2bytes cf codes ≠ .ok (index, cf') := by
  intro hfetch
  cases hbytes : decoded.flatMap inst_bytes with
  | nil =>
    rw [hbytes] at hrest
    rw [fetch_2bytes_single hrest] at hfetch
    cases hfetch
  | cons b more =>
    have hpos := flatMap_bytes_head hbytes
    rw [hbytes] at hrest
    obtain ⟨cf₁, hindex, -⟩ := fetch_2bytes_cons hrest
    rw [hindex] at hfetch
    have heq := (Prod.mk.injEq .. ▸ Except.ok.inj hfetch).1
    omega

/-- The bytes of another instruction, with those of more behind it, are not
fetched as they were written. -/
theorem walk_ne (hfits : Fits i) (hop : decodes i.1 = false) (hne : i.1 ≠ .LOAD_0)
    (hrest : Remaining cf codes (inst_bytes i ++ decoded.flatMap inst_bytes)) (fuel : Nat) :
    walk codes fuel cf ≠ .ok (i :: decoded) := by
  intro hwalk
  obtain ⟨fuel', cf', hfetch, hnext⟩ := walk_cons hwalk
  cases hfits with
  | LOAD hfit | STORE hfit =>
    obtain ⟨cf₁, hbyte, hrest₁⟩ := fetch_byte_cons hrest
    rw [fetch_inst, hbyte, ok_bind] at hfetch
    dsimp only at hfetch
    rw [OpCode.ofNumber_number] at hfetch
    obtain ⟨⟨index, cf₂⟩, hindex, heq⟩ := bind_eq_ok_iff.mp hfetch
    cases heq
    exact fetch_2bytes_ne hfit hrest₁ cf₂ hindex
  | STORE_FIELD hfit =>
    obtain ⟨cf₁, hbyte, -⟩ := fetch_byte_cons hrest
    rw [fetch_inst, hbyte] at hfetch
    cases hfetch
  | @CALL argc index hargc hfit =>
    -- the opcode, the four bytes of the index and the two of the number
    obtain ⟨cf₁, hbyte, hrest₁⟩ := fetch_byte_cons hrest
    obtain ⟨cf₂, hcount, hrest₂⟩ := fetch_byte_cons hrest₁
    obtain ⟨cf₃, hindex, hrest₃⟩ := fetch_2bytes_cons hrest₂
    rw [fetch_inst, hbyte, ok_bind] at hfetch
    dsimp only at hfetch
    rw [OpCode.ofNumber_number] at hfetch
    dsimp only at hfetch
    rw [hcount, ok_bind] at hfetch
    dsimp only at hfetch
    rw [hindex, ok_bind] at hfetch
    obtain rfl : cf₃ = cf' := (Prod.mk.inj (Except.ok.inj hfetch)).2
    have hhigh : UInt8.ofNat (index / 2 ^ 24) = 0 := by
      rw [Nat.div_eq_of_lt (by omega)]
      rfl
    obtain ⟨cf₄, -, -, herror⟩ := fetch_inst_cons hrest₃
    have hfailed := herror (by rw [hhigh]; rfl)
    cases decoded with
    | nil =>
      cases fuel' with
      | zero => cases hnext
      | succ fuel' => cases (walk_nil_iff hrest₃).mp hnext
    | cons j decoded =>
      obtain ⟨_, cf₅, hok, -⟩ := walk_cons hnext
      rw [hfailed] at hok
      cases hok
  | LOAD_0 => exact hne rfl
  | _ => cases hop

/-- The bytes of fitting instructions without `LOAD_0` are fetched as they were
written if and only if all are of these opcodes. -/
theorem walk_iff (hfits : ∀ i ∈ decoded, Fits i) (hne : ∀ i ∈ decoded, i.1 ≠ .LOAD_0)
    (hrest : Remaining cf codes (decoded.flatMap inst_bytes)) :
    (∃ fuel, walk codes fuel cf = .ok decoded) ↔ ∀ i ∈ decoded, decodes i.1 = true := by
  induction decoded generalizing cf with
  | nil => exact ⟨fun _ => by simp, fun _ => ⟨1, (walk_nil_iff hrest).mpr rfl⟩⟩
  | cons i decoded ih =>
    rw [List.flatMap_cons] at hrest
    have hfit := hfits i List.mem_cons_self
    cases hop : decodes i.1 with
    | false =>
      refine ⟨fun ⟨fuel, hwalk⟩ => ?_, fun hall => ?_⟩
      · exact absurd hwalk (walk_ne hfit hop (hne i List.mem_cons_self) hrest fuel)
      · rw [hall i List.mem_cons_self] at hop
        cases hop
    | true =>
      obtain ⟨cf', hfetch, hrest'⟩ := fetch_decodes hfit hop hrest
      have hiff := ih (fun j hj => hfits j (List.mem_cons_of_mem i hj))
        (fun j hj => hne j (List.mem_cons_of_mem i hj)) hrest'
      rw [List.forall_mem_cons, ← hiff]
      constructor
      · rintro ⟨fuel, hwalk⟩
        obtain ⟨fuel', cf₁, hfetch₁, hnext⟩ := walk_cons hwalk
        rw [hfetch] at hfetch₁
        cases hfetch₁
        exact ⟨hop, fuel', hnext⟩
      · rintro ⟨-, fuel, hwalk⟩
        refine ⟨fuel + 1, ?_⟩
        have hmore : cf.index + 1 ≠ codes.length := by
          rw [Ne, hrest.nil_iff]
          obtain ⟨more, hbytes⟩ := inst_bytes_head i
          simp [hbytes]
        rw [walk, if_neg hmore, hfetch, ok_bind]
        dsimp only
        rw [hwalk]
        rfl

end walk

/-- The code of a block is written, and the interpreter fetches from it the
instructions of the block with their operands, up to the last byte. -/
def Decodes [Arith] {α : Type} (mem : Memory) (n : Nat) (image : KImage) (block : CodeBlock)
    (decoded : List (OpCode × List Nat)) (cf : CallFrame α) : Prop :=
  ∃ (image' : KImage) (code : List UInt8) (size : Nat),
    CodeBlock_To_RawCode mem n image (some block) = .ok (image', code, size) ∧
      size = code.length ∧ ∃ fuel, walk code fuel cf = .ok decoded

/-- The frame of a function without variables, before its first instruction. -/
def frame : CallFrame Unit where
  code := ⟨⟨[], []⟩, .KCODE_KIND ⟨none, [], []⟩⟩
  ob := none
  args := none
  index := -1
  size := sizeofCallFrame
  locvars := fun _ => none
  touched := []

/-- A function that loads a constant and returns. -/
def returning : CodeBlock :=
  ⟨2, [⟨⟨.LOAD_CONST, some (.BASE_INT 7), 0⟩, 1, 1⟩, ⟨⟨.RETURN, none, 0⟩, 1, 2⟩]⟩

/-- A function that loads a local variable and returns: the number of the
variable is one byte, and two are fetched. -/
def loading : CodeBlock :=
  ⟨3, [⟨⟨.LOAD, some (.BASE_INT 1), 0⟩, 2, 2⟩, ⟨⟨.RETURN, none, 0⟩, 1, 3⟩]⟩

end koala.codegen
