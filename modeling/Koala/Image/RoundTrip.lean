import Koala.Image.Finish

open koala.atomtable koala.bytes

namespace koala.image

set_option linter.style.nameCheck false

/-- `fread`: how many elements were read, their bytes, and the rest of the
file. Nothing is read when the elements have no size. -/
def fread (size count : Nat) (file : List UInt8) : Nat × List UInt8 × List UInt8 :=
  if size = 0 then (0, [], file)
  else
    let n := min count (file.length / size)
    (n, file.take (n * size), file.drop (n * size))

/-- `fseek` to an offset from the start of the file. -/
def fseek (file : List UInt8) (offset : Nat) : List UInt8 := file.drop offset

/-- The `i`th word of a struct. -/
def field (data : List UInt8) (i : Nat) : Nat := word (data.drop (4 * i))

def header_read (data : List UInt8) : ImageHeader where
  magic := data.take 4
  version := (data.drop 4).take 4
  file_size := field data 2
  header_size := field data 3
  endian_tag := field data 4
  map_offset := field data 5
  map_size := field data 6
  crc32 := field data 7
  pkgname := (data.drop 32).take PKG_NAME_MAX

def header_check (header : ImageHeader) : Int :=
  if header.magic[0]? ≠ some 'K'.toUInt8 then -1
  else if header.magic[1]? ≠ some 'L'.toUInt8 then -1
  else if header.magic[2]? ≠ some 'C'.toUInt8 then -1
  else 0

/-- A type that is none of the macros fails an assertion when the constant is
hashed. -/
def constval_read (data : List UInt8) : Res ConstVal :=
  let type := field data 0
  let val := field data 2
  if type = CONST_INT then .ok (.CONST_INT (BitVec.ofNat 64 (val + field data 3 * 2 ^ 32)))
  else if type = CONST_FLOAT then .ok (.CONST_FLOAT (BitVec.ofNat 64 (val + field data 3 * 2 ^ 32)))
  else if type = CONST_BOOL then .ok (.CONST_BOOL (BitVec.ofNat 32 val))
  else if type = CONST_STRING then .ok (.CONST_STRING (int32 val))
  else if type = CONST_UCHAR then .ok (.CONST_UCHAR (BitVec.ofNat 32 val))
  else .error .assertion

/-- The type is the first half of the first word. -/
def mapitem_read (data : List UInt8) : MapItem :=
  ⟨field data 0 % 2 ^ 16, field data 1, int32 (field data 2)⟩

/-- The item with the given struct and array, copied to `addr`. A string without a NUL is read
past its end when it is hashed. -/
def item_read (addr : Nat) : (type : ItemKind) → List UInt8 → List UInt8 → Res (ItemData type)
  | .ITEM_MAP, data, _ => .ok (mapitem_read data)
  | .ITEM_STRING, _, array => if 0 ∈ array then .ok ⟨array⟩ else .error .bounds
  | .ITEM_TYPE, data, _ =>
    .ok ⟨int32 (field data 0), int32 (field data 1), int32 (field data 2)⟩
  | .ITEM_TYPELIST, _, array => .ok ⟨(ofBytes (array.length / 4) array).map int32⟩
  | .ITEM_PROTO, data, _ => .ok ⟨int32 (field data 0), int32 (field data 1)⟩
  | .ITEM_CONST, data, _ => do
    let val ← constval_read data
    .ok ⟨addr, val⟩
  | .ITEM_LOCVAR, data, _ => .ok ⟨int32 (field data 0), int32 (field data 1),
      BitVec.ofNat 32 (field data 2), int32 (field data 3)⟩
  | .ITEM_VAR, data, _ =>
    .ok ⟨int32 (field data 0), int32 (field data 1), BitVec.ofNat 32 (field data 2)⟩
  | .ITEM_FUNC, data, _ =>
    .ok ⟨int32 (field data 0), int32 (field data 1), int32 (field data 2)⟩
  | .ITEM_CODE, _, array => .ok ⟨array⟩
  | .ITEM_CLASS, data, _ => .ok ⟨int32 (field data 0), int32 (field data 1)⟩
  | .ITEM_FIELD, data, _ =>
    .ok ⟨int32 (field data 0), int32 (field data 1), int32 (field data 2)⟩
  | .ITEM_METHOD, data, _ => .ok ⟨int32 (field data 0), int32 (field data 1),
      int32 (field data 2), int32 (field data 3)⟩
  | .ITEM_TRAIT, data, _ => .ok ⟨int32 (field data 0), int32 (field data 1)⟩
  | .ITEM_NFUNC, data, _ =>
    .ok ⟨int32 (field data 0), int32 (field data 1), int32 (field data 2)⟩
  | .ITEM_IMETH, data, _ =>
    .ok ⟨int32 (field data 0), int32 (field data 1), int32 (field data 2)⟩

/-- The size of an element of the array that ends an item. -/
def ItemKind.isize : ItemKind → Option Nat
  | .ITEM_STRING => some 1
  | .ITEM_TYPELIST => some 4
  | .ITEM_CODE => some 1
  | _ => none

/-- The size of an item that ends with an array, an `int`. -/
def VaItem_New (bsize isize len : Nat) : Res Nat := addInt bsize (isize * len)

/-- Reading items that end with an array: one at a time, the length first. -/
def read_arrays (type : ItemKind) (isize : Nat) : Nat → List UInt8 → Table → Res Table
  | 0, _, table => .ok table
  | size + 1, file, table => do
    let (sz, len, file) := fread 4 1 file
    if sz ≠ 1 then .error .assertion
    else
      let _ ← VaItem_New type.sizeof isize (word len)
      let (sz, array, file) := fread (isize * word len) 1 file
      if sz ≠ 1 then .error .assertion
      else
        let item ← item_read 0 type len array
        let (_, table) ← Append table type item
        read_arrays type isize size file table

/-- Appending copies of the structs; the `n`th of them is copied to `addr n`. -/
def append_structs (addr : Nat → Nat) (type : ItemKind) :
    Nat → List (List UInt8) → Table → Res Table
  | _, [], table => .ok table
  | n, data :: structs, table => do
    let item ← item_read (addr n) type data []
    let (_, table) ← Append table type item
    append_structs addr type (n + 1) structs table

/-- Reading items of one size: all structs first, into an array of that many. -/
def read_structs (addr : Nat → Nat) (type : ItemKind) (n : Nat) (size : Int) (file : List UInt8)
    (table : Table) : Res Table :=
  if size < 0 then .error .bounds
  else
    let (sz, data, _) := fread type.sizeof size.toNat file
    if sz ≠ size.toNat then .error .assertion
    else append_structs addr type n (chunks type.sizeof size.toNat data) table

/-- The items of one map item, the first of them the `n`th of the file. A map
item that is no region of items fails an assertion. -/
def read_map (load : ItemKind → Bool) (addr : Nat → Nat) (n : Nat) (file : List UInt8)
    (map : MapItem) (table : Table) : Res Table :=
  let file := fseek file map.offset
  match ItemKind.ofNumber map.type with
  | none => .error .assertion
  | some .ITEM_MAP => .error .assertion
  | some type =>
    if load type then
      match type.isize with
      | some isize => read_arrays type isize map.size.toNat file table
      | none => read_structs addr type n map.size file table
    else .ok table

def append_maps : List MapItem → Table → Res Table
  | [], table => .ok table
  | map :: maps, table => do
    let (_, table) ← Append table .ITEM_MAP map
    append_maps maps table

def read_maps (load : ItemKind → Bool) (addr : Nat → Nat) (file : List UInt8) :
    Nat → List MapItem → Table → Res Table
  | _, [], table => .ok table
  | n, map :: maps, table => do
    let table ← read_map load addr n file map table
    read_maps load addr file (n + map.size.toNat) maps table

/-- The image in a file, without the kinds that are not to be loaded; `addr n`
is where its `n`th item is put. A file that is no image gives none. The number of map items is
compared as an `int`, as is their index. -/
def KImage_Read_File (load : ItemKind → Bool) (addr : Nat → Nat) (file : List UInt8) :
    Res (Option KImage) := do
  let (sz, data, _) := fread sizeofImageHeader 1 file
  if sz < 1 then .ok none
  else
    let header := header_read data
    if header_check header < 0 then .ok none
    else
      let (sz, data, _) := fread (ItemKind.sizeof .ITEM_MAP) header.map_size
        (fseek file header.map_offset)
      if int32 sz < int32 header.map_size then .ok none
      else if sz < header.map_size then .error .uninitialized
      else if INT_MAX < header.map_size then .error .overflow
      else
        let mapitems := (chunks (ItemKind.sizeof .ITEM_MAP) header.map_size data).map mapitem_read
        let table ← append_maps mapitems (KImage_New none).table
        let table ← read_maps load addr file 0 mapitems table
        .ok (some ⟨header, table⟩)

section fread

theorem fread_zero (count : Nat) (file : List UInt8) : fread 0 count file = (0, [], file) := rfl

/-- Elements that are there are read. -/
theorem fread_append {size count : Nat} {data : List UInt8} (hsize : size ≠ 0)
    (hdata : data.length = count * size) (rest : List UInt8) :
    fread size count (data ++ rest) = (count, data, rest) := by
  have hcount : count ≤ (data ++ rest).length / size := by
    rw [Nat.le_div_iff_mul_le (Nat.pos_of_ne_zero hsize), List.length_append, hdata]
    exact Nat.le_add_right _ _
  rw [fread, if_neg hsize]
  dsimp only
  rw [Nat.min_eq_left hcount, List.take_left' hdata, List.drop_left' hdata]

/-- A word of a struct is read back. -/
theorem field_words_append {ws : List Nat} (h : ∀ w ∈ ws, w < 2 ^ 32) (rest : List UInt8)
    {i w : Nat} (hi : ws[i]? = some w) : field (words ws ++ rest) i = w := by
  induction ws generalizing i with
  | nil => cases hi
  | cons v ws ih =>
    rw [field, words_cons, List.append_assoc]
    cases i with
    | zero =>
      rw [Nat.mul_zero, List.drop_zero, word_le32 (h v List.mem_cons_self)]
      exact Option.some.inj hi
    | succ i =>
      rw [Nat.mul_succ, Nat.add_comm, ← List.drop_drop, List.drop_left' (length_le32 v)]
      exact ih (fun u hu => h u (List.mem_cons_of_mem v hu)) hi

theorem field_words {ws : List Nat} (h : ∀ w ∈ ws, w < 2 ^ 32) {i w : Nat}
    (hi : ws[i]? = some w) : field (words ws) i = w := by
  have hfield := field_words_append h [] hi
  rwa [List.append_nil] at hfield

end fread

/-- The item at another address. Only a constant knows its address. -/
def readdress (addr : Nat) : (type : ItemKind) → ItemData type → ItemData type
  | .ITEM_CONST, item => ⟨addr, item.val⟩
  | _, item => item

/-- The signed fields of an item. -/
def item_ints : (type : ItemKind) → ItemData type → List Int
  | .ITEM_MAP, item => [item.size]
  | .ITEM_STRING, _ => []
  | .ITEM_TYPE, item => [item.kind, item.pathindex, item.typeindex]
  | .ITEM_TYPELIST, item => item.index
  | .ITEM_PROTO, item => [item.rindex, item.pindex]
  | .ITEM_CONST, item =>
    match item.val with
    | .CONST_STRING index => [index]
    | _ => []
  | .ITEM_LOCVAR, item => [item.nameindex, item.typeindex, item.index]
  | .ITEM_VAR, item => [item.nameindex, item.typeindex]
  | .ITEM_FUNC, item => [item.nameindex, item.protoindex, item.codeindex]
  | .ITEM_CODE, _ => []
  | .ITEM_CLASS, item => [item.classindex, item.superindex]
  | .ITEM_FIELD, item => [item.classindex, item.nameindex, item.typeindex]
  | .ITEM_METHOD, item => [item.classindex, item.nameindex, item.protoindex, item.codeindex]
  | .ITEM_TRAIT, item => [item.classindex, item.traitsindex]
  | .ITEM_NFUNC, item => [item.classindex, item.nameindex, item.protoindex]
  | .ITEM_IMETH, item => [item.classindex, item.nameindex, item.protoindex]

/-- The fields of an item and its size are within the ranges of their C types, and its string
is terminated. -/
structure ItemFits (type : ItemKind) (item : ItemData type) : Prop where
  words : ∀ w ∈ item_words type item, w < 2 ^ 32
  ints : ∀ i ∈ item_ints type item, FitsInt i
  size : item_length type item ≤ INT_MAX
  nul : type = .ITEM_STRING → 0 ∈ item_array type item

theorem constval_read_write {val : ConstVal} (hwords : ∀ w ∈ constitem_words val, w < 2 ^ 32)
    (hints : ∀ index, val = .CONST_STRING index → FitsInt index) :
    constval_read (words (constitem_words val)) = .ok val := by
  have hfield : ∀ i w, (constitem_words val)[i]? = some w →
      field (words (constitem_words val)) i = w := fun i w => field_words hwords
  have hsum : ∀ v : BitVec 64, v.toNat % 2 ^ 32 + v.toNat / 2 ^ 32 * 2 ^ 32 = v.toNat :=
    fun v => by omega
  unfold constval_read
  dsimp only
  cases val with
  | CONST_INT ival =>
    rw [hfield 0 CONST_INT rfl, if_pos rfl, hfield 2 _ rfl, hfield 3 _ rfl, hsum,
      BitVec.ofNat_toNat, BitVec.setWidth_eq]
  | CONST_FLOAT fval =>
    rw [hfield 0 CONST_FLOAT rfl, if_neg (by decide), if_pos rfl, hfield 2 _ rfl,
      hfield 3 _ rfl, hsum, BitVec.ofNat_toNat, BitVec.setWidth_eq]
  | CONST_BOOL bval =>
    rw [hfield 0 CONST_BOOL rfl, if_neg (by decide), if_neg (by decide), if_pos rfl,
      hfield 2 _ rfl, BitVec.ofNat_toNat, BitVec.setWidth_eq]
  | CONST_STRING index =>
    rw [hfield 0 CONST_STRING rfl, if_neg (by decide), if_neg (by decide),
      if_neg (by decide), if_pos rfl, hfield 2 _ rfl, int32_uint32 (hints index rfl)]
  | CONST_UCHAR uch =>
    rw [hfield 0 CONST_UCHAR rfl, if_neg (by decide), if_neg (by decide),
      if_neg (by decide), if_neg (by decide), if_pos rfl, hfield 2 _ rfl, BitVec.ofNat_toNat,
      BitVec.setWidth_eq]

theorem mapitem_read_write {map : MapItem} (hfits : ItemFits .ITEM_MAP map)
    (htype : map.type < 2 ^ 16) : mapitem_read (words (item_words .ITEM_MAP map)) = map := by
  have hfield : ∀ i w, (item_words .ITEM_MAP map)[i]? = some w →
      field (words (item_words .ITEM_MAP map)) i = w := fun i w => field_words hfits.words
  have hsize : FitsInt map.size := hfits.ints _ (by simp [item_ints])
  rw [mapitem_read, hfield 0 _ rfl, hfield 1 _ rfl, hfield 2 _ rfl, Nat.mod_eq_of_lt htype,
    int32_uint32 hsize]

theorem map_int32_uint32 {l : List Int} (h : ∀ i ∈ l, FitsInt i) :
    (l.map uint32).map int32 = l := by
  rw [List.map_map]
  exact (List.map_congr_left fun i hi => int32_uint32 (h i hi)).trans (List.map_id l)

/-- An item that is written is read back at the address of its copy. -/
theorem item_read_write {type : ItemKind} (htype : type ≠ .ITEM_MAP) {item : ItemData type}
    (hfits : ItemFits type item) (addr : Nat) :
    item_read addr type (words (item_words type item)) (item_array type item) =
      .ok (readdress addr type item) := by
  have hfield : ∀ i w, (item_words type item)[i]? = some w →
      field (words (item_words type item)) i = w := fun i w => field_words hfits.words
  have hint : ∀ i ∈ item_ints type item, int32 (uint32 i) = i :=
    fun i hi => int32_uint32 (hfits.ints i hi)
  cases type with
  | ITEM_MAP => exact absurd rfl htype
  | ITEM_CODE => rfl
  | ITEM_STRING => exact if_pos (hfits.nul rfl)
  | ITEM_TYPE | ITEM_FUNC | ITEM_FIELD | ITEM_NFUNC | ITEM_IMETH =>
    rw [item_read, hfield 0 _ rfl, hfield 1 _ rfl, hfield 2 _ rfl,
      hint _ (by simp [item_ints]), hint _ (by simp [item_ints]), hint _ (by simp [item_ints])]
    rfl
  | ITEM_PROTO | ITEM_CLASS | ITEM_TRAIT =>
    rw [item_read, hfield 0 _ rfl, hfield 1 _ rfl, hint _ (by simp [item_ints]),
      hint _ (by simp [item_ints])]
    rfl
  | ITEM_METHOD =>
    rw [item_read, hfield 0 _ rfl, hfield 1 _ rfl, hfield 2 _ rfl, hfield 3 _ rfl,
      hint _ (by simp [item_ints]), hint _ (by simp [item_ints]), hint _ (by simp [item_ints]),
      hint _ (by simp [item_ints])]
    rfl
  | ITEM_LOCVAR =>
    rw [item_read, hfield 0 _ rfl, hfield 1 _ rfl, hfield 2 _ rfl, hfield 3 _ rfl,
      hint _ (by simp [item_ints]), hint _ (by simp [item_ints]), hint _ (by simp [item_ints]),
      BitVec.ofNat_toNat, BitVec.setWidth_eq]
    rfl
  | ITEM_VAR =>
    rw [item_read, hfield 0 _ rfl, hfield 1 _ rfl, hfield 2 _ rfl,
      hint _ (by simp [item_ints]), hint _ (by simp [item_ints]), BitVec.ofNat_toNat,
      BitVec.setWidth_eq]
    rfl
  | ITEM_TYPELIST =>
    have hlength : (words (item.index.map uint32)).length / 4 = (item.index.map uint32).length := by
      rw [length_words]
      omega
    have hlt : ∀ w ∈ item.index.map uint32, w < 2 ^ 32 := by
      intro w hw
      obtain ⟨i, _, rfl⟩ := List.mem_map.mp hw
      exact uint32_lt i
    have hwords := ofBytes_words hlt []
    rw [List.append_nil] at hwords
    have hindex : (item.index.map uint32).map int32 = item.index := map_int32_uint32 hfits.ints
    rw [item_read, item_array, hlength, hwords, hindex]
    rfl
  | ITEM_CONST =>
    have hval : constval_read (words (constitem_words item.val)) = .ok item.val :=
      constval_read_write hfits.words fun index heq => hfits.ints index (by simp [item_ints, heq])
    rw [item_read, item_words, hval]
    rfl

end koala.image
