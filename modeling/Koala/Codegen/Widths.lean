import Koala.Codegen.Model
import Koala.Codegen.Decoded
import Koala.Image.Constants
import Koala.Parser.Accepted
import Koala.Post

open koala.atomtable koala.buffer koala.image koala.parser

namespace koala.codegen

set_option linter.style.nameCheck false

/-- The number that some bytes are, the lowest byte first. -/
def unsigned : List UInt8 → Nat
  | [] => 0
  | b :: bytes => b.toNat + 2 ^ 8 * unsigned bytes

/-- The numbers in the first fields of some bytes. -/
def readback : List Nat → List UInt8 → List Nat
  | [], _ => []
  | width :: widths, bytes => unsigned (bytes.take width) :: readback widths (bytes.drop width)

section place

variable (T : Table)

/-- The place of a string that is stored, or the one it gets. -/
def string_place (s : CString) : Int :=
  if StringItem_Get T s < 0 then AtomTable_Size T .ITEM_STRING else StringItem_Get T s

/-- The place of a constant that is stored, or the one it gets. -/
def constitem_place (addr : Nat) (val : ConstVal) : Int :=
  if ConstItem_Get T ⟨addr, val⟩ < 0 then AtomTable_Size T .ITEM_CONST
  else ConstItem_Get T ⟨addr, val⟩

/-- The place of an argument in the pool of constants. -/
def const_place (addr : Nat) : Option ConstValue → Int
  | none => 0
  | some (.BASE_INT v) => constitem_place T addr (.CONST_INT v)
  | some (.BASE_FLOAT v) => constitem_place T addr (.CONST_FLOAT v)
  | some (.BASE_BOOL b) => constitem_place T addr (.CONST_BOOL (if b then 1 else 0))
  | some (.BASE_STRING s) => constitem_place T addr (.CONST_STRING (string_place T s))
  | some (.BASE_CHAR c) => constitem_place T addr (.CONST_UCHAR c)

/-- The indices, the slot and the number that an instruction stands for fit its
fields. The operands of a jump and of `NEW_ARRAY` are none of these. -/
def InRange [Arith] (addr : Nat) (i : koala.parser.Inst) : Prop :=
  match i.op with
  | .LOAD_CONST | .LOAD_PKG | .LOAD_FIELD | .STORE_FIELD => const_place T addr i.arg < 2 ^ 16
  | .LOAD | .STORE => 0 ≤ (ival i.arg).toInt ∧ (ival i.arg).toInt < 2 ^ 8
  | .CALL | .NEW => const_place T addr i.arg < 2 ^ 32 ∧ i.argc < 2 ^ 16
  | _ => True

end place

section gen

variable [Arith] (mem : Memory) (n : Nat) (image : KImage)

/-- The widths of the fields of an instruction, with the index of the constant
or name, the slot, or the number of arguments that each stands for. -/
def fields (i : koala.parser.Inst) : Res (List (Nat × Int)) :=
  match i.op with
  | .LOAD_CONST => do
    let (index, _) ← add_const mem n image i.arg
    .ok [(2, index)]
  | .LOAD_PKG | .LOAD_FIELD | .STORE_FIELD => do
    let (index, _) ← add_str mem n image i.arg
    .ok [(2, index)]
  | .LOAD | .STORE => .ok [(1, (ival i.arg).toInt)]
  | .CALL | .NEW => do
    let (index, _) ← add_str mem n image i.arg
    .ok [(4, index), (2, (i.argc : Int))]
  | _ => .ok []

/-- The bytes written behind the opcode read back as what they stand for. -/
def ReadsBack (buf : Buffer) (i : koala.parser.Inst) (buf' : Buffer) : Prop :=
  ∃ operands fs, Buffer_RawData buf' = Buffer_RawData buf ++ i.op.number :: operands ∧
    fields mem n image i = .ok fs ∧
    (readback (fs.map Prod.fst) operands).map Int.ofNat = fs.map Prod.snd

end gen

section places

variable {T T₁ : Table} {key item : Nat} {val : ConstVal} {index : Int}

theorem constitem_place_nonneg : 0 ≤ constitem_place T key val := by
  unfold constitem_place
  split <;> omega

theorem const_place_nonneg (arg : Option ConstValue) : 0 ≤ const_place T key arg := by
  cases arg with
  | none => exact le_rfl
  | some v => cases v <;> exact constitem_place_nonneg

theorem constitem_set_place (hwf : WF T) (h : constitem_set key item T val = .ok (index, T₁)) :
    index = constitem_place T key val ∧ WF T₁ := by
  unfold constitem_place
  unfold constitem_set at h
  dsimp only at h
  split at h
  · next hneg =>
    rw [if_pos hneg]
    exact ⟨(AtomTable_Append_ok h).1, hwf.append h⟩
  · next hpos =>
    cases h
    rw [if_neg hpos]
    exact ⟨rfl, hwf⟩

/-- Storing a string moves no constant. -/
theorem StringItem_Set_place (hwf : WF T) {s : CString}
    (h : StringItem_Set T s = .ok (index, T₁)) :
    index = string_place T s ∧ WF T₁ ∧ T₁.items .ITEM_CONST = T.items .ITEM_CONST := by
  unfold string_place
  unfold StringItem_Set at h
  dsimp only at h
  split at h
  · next hneg =>
    rw [if_pos hneg]
    obtain ⟨hindex, hitems, -, -⟩ := AtomTable_Append_ok h
    refine ⟨hindex, hwf.append h, ?_⟩
    rw [hitems, appended_of_ne _ _ (by simp)]
  · next hpos =>
    cases h
    rw [if_neg hpos]
    exact ⟨rfl, hwf, rfl⟩

theorem constitem_place_congr (hwf : WF T) (hwf₁ : WF T₁) (hplain : val.plain = true)
    (hitems : T₁.items .ITEM_CONST = T.items .ITEM_CONST) :
    constitem_place T₁ key val = constitem_place T key val := by
  unfold constitem_place AtomTable_Size
  rw [ConstItem_Get_congr hwf hwf₁ hplain hitems, hitems]

end places

section adds

variable {mem : Memory} {n : Nat} {image image' : KImage} {arg : Option ConstValue} {index : Int}

theorem KImage_Add_String_place (hwf : WF image.table) {s : CString} {key item : Nat}
    (h : KImage_Add_String key item image s = .ok (index, image')) :
    index = const_place image.table key (some (.BASE_STRING s)) ∧ WF image'.table := by
  obtain ⟨⟨idx, T₁⟩, hstring, h⟩ := bind_eq_ok_iff.mp h
  obtain ⟨hidx, hwf₁, hitems⟩ := StringItem_Set_place hwf hstring
  dsimp only at h
  split at h
  · obtain ⟨⟨place, T₂⟩, hset, heq⟩ := bind_eq_ok_iff.mp h
    cases heq
    obtain ⟨hplace, hwf₂⟩ := constitem_set_place hwf₁ hset
    refine ⟨?_, hwf₂⟩
    rw [hplace, constitem_place_congr hwf hwf₁ rfl hitems, hidx]
    rfl
  · cases h

/-- A constant is put where it stands, or behind the others. -/
theorem add_const_place (hwf : WF image.table)
    (h : add_const mem n image arg = .ok (index, image')) :
    index = const_place image.table (mem.key n) arg ∧ WF image'.table := by
  cases arg with
  | none => cases h
  | some v =>
    cases v with
    | BASE_STRING s => exact KImage_Add_String_place hwf h
    | BASE_INT | BASE_FLOAT | BASE_BOOL | BASE_CHAR =>
      obtain ⟨⟨place, T₁⟩, hset, heq⟩ := bind_eq_ok_iff.mp h
      cases heq
      exact constitem_set_place hwf hset

theorem add_str_place (hwf : WF image.table)
    (h : add_str mem n image arg = .ok (index, image')) :
    index = const_place image.table (mem.key n) arg ∧ WF image'.table := by
  obtain ⟨s, hs, hadd⟩ := bind_eq_ok_iff.mp h
  obtain rfl : arg = some (.BASE_STRING s) := by
    unfold str at hs
    split at hs <;> simp_all
  exact KImage_Add_String_place hwf hadd

end adds

section read

theorem unsigned_byte (n : Nat) : unsigned [UInt8.ofNat n] = n % 2 ^ 8 := by
  simp [unsigned]

theorem unsigned_le16 (n : Nat) : unsigned (le16 n) = n % 2 ^ 16 := by
  simp only [le16, unsigned, UInt8.toNat_ofNat']
  omega

theorem unsigned_le32 (n : Nat) : unsigned (bytes.le32 n) = n % 2 ^ 32 := by
  simp only [bytes.le32, unsigned, UInt8.toNat_ofNat']
  omega

/-- Two bytes hold an index below 2^16. -/
theorem readback_le16_iff {index : Int} (hpos : 0 ≤ index) :
    (unsigned (le16 (uint32 index)) : Int) = index ↔ index < 2 ^ 16 := by
  rw [unsigned_le16, uint32]
  omega

theorem readback_le32_iff {index : Int} (hpos : 0 ≤ index) :
    (unsigned (bytes.le32 (uint32 index)) : Int) = index ↔ index < 2 ^ 32 := by
  rw [unsigned_le32, uint32]
  omega

/-- One byte holds a slot from 0 to 255. -/
theorem readback_byte_iff (v : BitVec 64) :
    (unsigned [UInt8.ofNat v.toNat] : Int) = v.toInt ↔ 0 ≤ v.toInt ∧ v.toInt < 2 ^ 8 := by
  rw [unsigned_byte, BitVec.toInt_eq_toNat_cond]
  have hlt := v.isLt
  split <;> omega

end read

section step

theorem rawData_write_behind (buf : Buffer) (op : UInt8) (data : List UInt8) :
    Buffer_RawData (Buffer_Write (Buffer_Write buf [op]) data) =
      Buffer_RawData buf ++ op :: data := by
  simp

theorem readback_append {width : Nat} {field : List UInt8} (hwidth : field.length = width)
    (widths : List Nat) (rest : List UInt8) :
    readback (width :: widths) (field ++ rest) = unsigned field :: readback widths rest := by
  rw [readback, List.take_left' hwidth, List.drop_left' hwidth]

variable [Arith] {mem : Memory} {n : Nat} {image image' : KImage} {buf buf' : Buffer}
  {i : koala.parser.Inst} {operands : List UInt8} {index : Int}

theorem readsBack_iff {fs : List (Nat × Int)}
    (hraw : Buffer_RawData buf' = Buffer_RawData buf ++ i.op.number :: operands)
    (hfields : fields mem n image i = .ok fs) :
    ReadsBack mem n image buf i buf' ↔
      (readback (fs.map Prod.fst) operands).map Int.ofNat = fs.map Prod.snd := by
  constructor
  · rintro ⟨operands', fs', hraw', hfs, hread⟩
    rw [hfields] at hfs
    cases hfs
    rw [hraw, List.append_cancel_left_eq, List.cons_eq_cons] at hraw'
    rwa [hraw'.2]
  · intro hread
    exact ⟨operands, fs, hraw, hfields, hread⟩

/-- An index in two bytes. -/
theorem readsBack_index_iff (hpos : 0 ≤ index)
    (hraw : Buffer_RawData buf' = Buffer_RawData buf ++ i.op.number :: le16 (uint32 index))
    (hfields : fields mem n image i = .ok [(2, index)]) :
    ReadsBack mem n image buf i buf' ↔ index < 2 ^ 16 := by
  rw [readsBack_iff hraw hfields, ← readback_le16_iff hpos]
  have hread := readback_append (length_le16 (uint32 index)) [] []
  rw [List.append_nil] at hread
  simp [hread, readback]

/-- A slot in one byte. -/
theorem readsBack_slot_iff {v : BitVec 64}
    (hraw : Buffer_RawData buf' = Buffer_RawData buf ++ i.op.number :: [UInt8.ofNat v.toNat])
    (hfields : fields mem n image i = .ok [(1, v.toInt)]) :
    ReadsBack mem n image buf i buf' ↔ 0 ≤ v.toInt ∧ v.toInt < 2 ^ 8 := by
  rw [readsBack_iff hraw hfields, ← readback_byte_iff]
  simp [readback]

/-- An index in four bytes and a number of arguments in two. -/
theorem readsBack_call_iff (hpos : 0 ≤ index)
    (hraw : Buffer_RawData buf' =
      Buffer_RawData buf ++ i.op.number :: (bytes.le32 (uint32 index) ++ le16 i.argc))
    (hfields : fields mem n image i = .ok [(4, index), (2, (i.argc : Int))]) :
    ReadsBack mem n image buf i buf' ↔ index < 2 ^ 32 ∧ i.argc < 2 ^ 16 := by
  rw [readsBack_iff hraw hfields, ← readback_le32_iff hpos]
  have hargc := readback_append (length_le16 i.argc) [] []
  rw [List.append_nil] at hargc
  have hread := readback_append (bytes.length_le32 (uint32 index)) [2] (le16 i.argc)
  have hlow : unsigned (le16 i.argc) = i.argc ↔ i.argc < 2 ^ 16 := by
    rw [unsigned_le16]
    omega
  rw [List.map_cons, List.map_cons, List.map_nil, hread, hargc]
  simp only [readback, List.map_cons, List.map_nil, List.cons_eq_cons, and_true,
    Int.ofNat_eq_natCast, Int.natCast_inj, hlow]

/-- The fields of an instruction that is written hold what they stand for if and
only if that fits them. -/
theorem readsBack_iff_inRange (hwf : WF image.table)
    (h : inst_gen mem n image buf i = .ok (image', buf')) :
    ReadsBack mem n image buf i buf' ↔ InRange image.table (mem.key n) i := by
  obtain ⟨op, arg, argc⟩ := i
  cases op with
  | LOAD_CONST =>
    obtain ⟨⟨index, image₁⟩, hadd, heq⟩ := bind_eq_ok_iff.mp h
    cases heq
    obtain ⟨hplace, -⟩ := add_const_place hwf hadd
    have hpos : 0 ≤ index := hplace ▸ const_place_nonneg arg
    rw [readsBack_index_iff hpos (by simp) (by simp [fields, hadd]), hplace]
    rfl
  | LOAD_PKG | LOAD_FIELD | STORE_FIELD =>
    obtain ⟨⟨index, image₁⟩, hadd, heq⟩ := bind_eq_ok_iff.mp h
    cases heq
    obtain ⟨hplace, -⟩ := add_str_place hwf hadd
    have hpos : 0 ≤ index := hplace ▸ const_place_nonneg arg
    rw [readsBack_index_iff hpos (by simp) (by simp [fields, hadd]), hplace]
    rfl
  | CALL | NEW =>
    obtain ⟨⟨index, image₁⟩, hadd, heq⟩ := bind_eq_ok_iff.mp h
    cases heq
    obtain ⟨hplace, -⟩ := add_str_place hwf hadd
    have hpos : 0 ≤ index := hplace ▸ const_place_nonneg arg
    rw [readsBack_call_iff hpos (by simp) (by simp [fields, hadd]), hplace]
    rfl
  | LOAD | STORE =>
    cases h
    exact readsBack_slot_iff (by simp) rfl
  | JMP | JMP_TRUE | JMP_FALSE | NEW_ARRAY =>
    cases h
    exact iff_of_true ((readsBack_iff (rawData_write_behind ..) rfl).mpr rfl) trivial
  | POP_TOP | POP_TOPN | LOAD_0 => cases h
  | _ =>
    cases h
    exact iff_of_true ((readsBack_iff (rawData_write ..) rfl).mpr rfl) trivial

/-- Writing an instruction keeps the table in order. -/
theorem inst_gen_wf (hwf : WF image.table)
    (h : inst_gen mem n image buf i = .ok (image', buf')) : WF image'.table := by
  obtain ⟨op, arg, argc⟩ := i
  cases op with
  | LOAD_CONST =>
    obtain ⟨⟨index, image₁⟩, hadd, heq⟩ := bind_eq_ok_iff.mp h
    cases heq
    exact (add_const_place hwf hadd).2
  | LOAD_PKG | LOAD_FIELD | STORE_FIELD | CALL | NEW =>
    obtain ⟨⟨index, image₁⟩, hadd, heq⟩ := bind_eq_ok_iff.mp h
    cases heq
    exact (add_str_place hwf hadd).2
  | POP_TOP | POP_TOPN | LOAD_0 => cases h
  | _ =>
    cases h
    exact hwf

theorem inst_gens_wf {insts : List koala.parser.Inst} (hwf : WF image.table)
    (h : inst_gens mem n image buf insts = .ok (image', buf')) : WF image'.table := by
  induction insts generalizing n image buf with
  | nil =>
    cases h
    exact hwf
  | cons i insts ih =>
    obtain ⟨⟨image₁, buf₁⟩, hgen, h⟩ := bind_eq_ok_iff.mp h
    exact ih (inst_gen_wf hwf hgen) h

end step

section program

variable [Arith] (mem : Memory) (n : Nat) (image : KImage) (buf : Buffer)
  (insts : List koala.parser.Inst)

/-- Each instruction of a program reads back from the bytes that are written for
it behind those of the instructions before it. -/
def Untruncated : Prop :=
  ∀ k i image₁ buf₁ image₂ buf₂, insts[k]? = some i →
    inst_gens mem n image buf (insts.take k) = .ok (image₁, buf₁) →
    inst_gen mem (n + k) image₁ buf₁ i = .ok (image₂, buf₂) →
    ReadsBack mem (n + k) image₁ buf₁ i buf₂

/-- Each instruction of a program is in range in the image before it. -/
def AllInRange : Prop :=
  ∀ k i image₁ buf₁, insts[k]? = some i →
    inst_gens mem n image buf (insts.take k) = .ok (image₁, buf₁) →
    InRange image₁.table (mem.key (n + k)) i

variable {mem n image buf insts}

/-- A program that is written is written instruction by instruction. -/
theorem inst_gens_at {r : KImage × Buffer} (h : inst_gens mem n image buf insts = .ok r) {k : Nat}
    {i : koala.parser.Inst} (hi : insts[k]? = some i) :
    ∃ image₁ buf₁, inst_gens mem n image buf (insts.take k) = .ok (image₁, buf₁) ∧
      Finishes (inst_gen mem (n + k) image₁ buf₁ i) := by
  induction insts generalizing n image buf k with
  | nil => simp at hi
  | cons j insts ih =>
    obtain ⟨⟨image₁, buf₁⟩, hgen, h⟩ := bind_eq_ok_iff.mp h
    cases k with
    | zero =>
      obtain rfl : j = i := by simpa using hi
      exact ⟨image, buf, rfl, _, hgen⟩
    | succ k =>
      obtain ⟨image₂, buf₂, htake, hfin⟩ := ih h (by simpa using hi)
      refine ⟨image₂, buf₂, ?_, ?_⟩
      · rw [List.take_succ_cons, inst_gens, hgen]
        exact htake
      · rwa [Nat.add_right_comm] at hfin

/-- For every image that calls build and every program: its code is only written
with all operands as they are if and only if it is only written when they all
fit their fields. -/
theorem untruncated_iff {name : Option CString} {calls : List Add}
    (hrun : KImage.run mem 0 (KImage_New name) calls = .ok image) :
    (Finishes (inst_gens mem n image buf insts) → Untruncated mem n image buf insts) ↔
      (Finishes (inst_gens mem n image buf insts) → AllInRange mem n image buf insts) := by
  have hwf := (KImage.run_sound hrun).wf
  refine imp_congr_right fun ⟨r, hgens⟩ => ⟨?_, ?_⟩
  · intro huntruncated k i image₁ buf₁ hi htake
    obtain ⟨image₂, buf₂, htake', ⟨image₃, buf₃⟩, hgen⟩ := inst_gens_at hgens hi
    rw [htake] at htake'
    cases htake'
    have hread := huntruncated k i image₁ buf₁ image₃ buf₃ hi htake hgen
    exact (readsBack_iff_inRange (inst_gens_wf hwf htake) hgen).mp hread
  · intro hrange k i image₁ buf₁ image₂ buf₂ hi htake hgen
    have hin := hrange k i image₁ buf₁ hi htake
    exact (readsBack_iff_inRange (inst_gens_wf hwf htake) hgen).mpr hin

end program

/-- The last slot that fits one byte is loaded. -/
theorem untruncated_iff_load :
    Untruncated .evenOdd 0 (KImage_New none) (Buffer_Init 32 (by decide))
      [⟨.LOAD, some (.BASE_INT 255), 0⟩] := by
  have hrun : KImage.run .evenOdd 0 (KImage_New none) [] = .ok (KImage_New none) := rfl
  refine (untruncated_iff hrun).mpr ?_ ⟨_, rfl⟩
  intro _ k i image₁ buf₁ hi htake
  cases k with
  | zero =>
    obtain rfl : _ = i := Option.some.inj hi
    exact ⟨by decide, by decide⟩
  | succ k => simp at hi

/-- The local variable in slot 256 is loaded: the byte written is 0. -/
theorem not_untruncated : ¬ ∀ insts : List koala.parser.Inst,
    Finishes (inst_gens .evenOdd 0 (KImage_New none) (Buffer_Init 32 (by decide)) insts) →
      Untruncated .evenOdd 0 (KImage_New none) (Buffer_Init 32 (by decide)) insts := by
  intro h
  have hread := h [⟨.LOAD, some (.BASE_INT 256), 0⟩] ⟨_, rfl⟩ 0 _ _ _ _ _ rfl rfl rfl
  rw [readsBack_slot_iff (by simp) rfl] at hread
  exact absurd hread.2 (by decide)

end koala.codegen
