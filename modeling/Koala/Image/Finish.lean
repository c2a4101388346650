import Koala.Bytes
import Koala.Image.KImage
import Koala.Tiling

open koala.bytes koala.atomtable koala.tiling

namespace koala.image

set_option linter.style.nameCheck false

/-- The kinds in the order of the loops over `item_func`. -/
def ItemKind.all : List ItemKind :=
  [.ITEM_MAP, .ITEM_STRING, .ITEM_TYPE, .ITEM_TYPELIST, .ITEM_PROTO, .ITEM_CONST, .ITEM_LOCVAR,
    .ITEM_VAR, .ITEM_FUNC, .ITEM_CODE, .ITEM_CLASS, .ITEM_FIELD, .ITEM_METHOD, .ITEM_TRAIT,
    .ITEM_NFUNC, .ITEM_IMETH]

/-- The value of the macro. -/
def ItemKind.number (type : ItemKind) : Nat := ItemKind.all.idxOf type

def ItemKind.ofNumber (n : Nat) : Option ItemKind := ItemKind.all[n]?

theorem ItemKind.mem_all (type : ItemKind) : type ∈ ItemKind.all := by
  cases type <;> decide

@[simp] theorem ItemKind.ofNumber_number (type : ItemKind) :
    ItemKind.ofNumber type.number = some type := by
  cases type <;> rfl

theorem ItemKind.number_lt (type : ItemKind) : type.number < ITEM_MAX := by
  cases type <;> decide

/-- The size of the struct of an item, without the array that ends some. -/
def ItemKind.sizeof : ItemKind → Nat
  | .ITEM_MAP => 12
  | .ITEM_STRING => 4
  | .ITEM_TYPE => 12
  | .ITEM_TYPELIST => 4
  | .ITEM_PROTO => 8
  | .ITEM_CONST => 16
  | .ITEM_LOCVAR => 16
  | .ITEM_VAR => 12
  | .ITEM_FUNC => 12
  | .ITEM_CODE => 4
  | .ITEM_CLASS => 8
  | .ITEM_FIELD => 12
  | .ITEM_METHOD => 16
  | .ITEM_TRAIT => 8
  | .ITEM_NFUNC => 12
  | .ITEM_IMETH => 12

/-- The `length` functions of `item_func`. -/
def item_length : (type : ItemKind) → ItemData type → Nat
  | .ITEM_STRING, item => ItemKind.sizeof .ITEM_STRING + item.data.length
  | .ITEM_TYPELIST, item => ItemKind.sizeof .ITEM_TYPELIST + item.index.length * 4
  | .ITEM_CODE, item => ItemKind.sizeof .ITEM_CODE + item.codes.length
  | type, _ => type.sizeof

def CONST_INT : Nat := 1
def CONST_FLOAT : Nat := 2
def CONST_BOOL : Nat := 3
def CONST_STRING : Nat := 4
def CONST_UCHAR : Nat := 5

/-- The words of a constant: its type, padding, and the eight bytes of the union. -/
def constitem_words : ConstVal → List Nat
  | .CONST_INT ival => [CONST_INT, 0, ival.toNat % 2 ^ 32, ival.toNat / 2 ^ 32]
  | .CONST_FLOAT fval => [CONST_FLOAT, 0, fval.toNat % 2 ^ 32, fval.toNat / 2 ^ 32]
  | .CONST_BOOL bval => [CONST_BOOL, 0, bval.toNat, 0]
  | .CONST_STRING index => [CONST_STRING, 0, uint32 index, 0]
  | .CONST_UCHAR uch => [CONST_UCHAR, 0, uch.toNat, 0]

/-- The words of the struct of an item. The two halves of the first word of a
map item are its type and zero. -/
def item_words : (type : ItemKind) → ItemData type → List Nat
  | .ITEM_MAP, item => [item.type, item.offset, uint32 item.size]
  | .ITEM_STRING, item => [item.data.length]
  | .ITEM_TYPE, item => [uint32 item.kind, uint32 item.pathindex, uint32 item.typeindex]
  | .ITEM_TYPELIST, item => [item.index.length]
  | .ITEM_PROTO, item => [uint32 item.rindex, uint32 item.pindex]
  | .ITEM_CONST, item => constitem_words item.val
  | .ITEM_LOCVAR, item =>
    [uint32 item.nameindex, uint32 item.typeindex, item.pos.toNat, uint32 item.index]
  | .ITEM_VAR, item => [uint32 item.nameindex, uint32 item.typeindex, item.konst.toNat]
  | .ITEM_FUNC, item => [uint32 item.nameindex, uint32 item.protoindex, uint32 item.codeindex]
  | .ITEM_CODE, item => [item.codes.length]
  | .ITEM_CLASS, item => [uint32 item.classindex, uint32 item.superindex]
  | .ITEM_FIELD, item => [uint32 item.classindex, uint32 item.nameindex, uint32 item.typeindex]
  | .ITEM_METHOD, item => [uint32 item.classindex, uint32 item.nameindex,
      uint32 item.protoindex, uint32 item.codeindex]
  | .ITEM_TRAIT, item => [uint32 item.classindex, uint32 item.traitsindex]
  | .ITEM_NFUNC, item => [uint32 item.classindex, uint32 item.nameindex, uint32 item.protoindex]
  | .ITEM_IMETH, item => [uint32 item.classindex, uint32 item.nameindex, uint32 item.protoindex]

/-- The array that ends an item. -/
def item_array : (type : ItemKind) → ItemData type → List UInt8
  | .ITEM_STRING, item => item.data
  | .ITEM_TYPELIST, item => words (item.index.map uint32)
  | .ITEM_CODE, item => item.codes
  | _, _ => []

/-- The `write` functions of `item_func`: the bytes of the item as it lies in
memory. -/
def item_write (type : ItemKind) (item : ItemData type) : List UInt8 :=
  words (item_words type item) ++ item_array type item

/-- As many bytes are written as the length function counts. -/
theorem length_item_write (type : ItemKind) (item : ItemData type) :
    (item_write type item).length = item_length type item := by
  rw [item_write, List.length_append, length_words]
  cases type with
  | ITEM_TYPELIST =>
    rw [item_array, length_words, List.length_map, item_length, Nat.mul_comm item.index.length]
    rfl
  | ITEM_CONST =>
    obtain ⟨addr, val⟩ := item
    cases val <;> rfl
  | _ => rfl

def header_write (h : ImageHeader) : List UInt8 :=
  h.magic ++ h.version ++
    words [h.file_size, h.header_size, h.endian_tag, h.map_offset, h.map_size, h.crc32] ++
    h.pkgname

/-- The arrays of a header have the sizes their types say. -/
structure HeaderWF (h : ImageHeader) : Prop where
  magic : h.magic.length = 4
  version : h.version.length = 4
  pkgname : h.pkgname.length = PKG_NAME_MAX

theorem length_header_write {h : ImageHeader} (hwf : HeaderWF h) :
    (header_write h).length = sizeofImageHeader := by
  simp [header_write, hwf.magic, hwf.version, hwf.pkgname, PKG_NAME_MAX, sizeofImageHeader]

theorem headerWF_init (name : Option CString) : HeaderWF (init_header name) where
  magic := rfl
  version := rfl
  pkgname := by
    cases name with
    | none => simp [init_header]
    | some name =>
      have hle : (name.bytes.take (PKG_NAME_MAX - 1)).length ≤ PKG_NAME_MAX - 1 :=
        List.length_take_le _ _
      simp only [init_header, strncpy, List.length_append, List.length_replicate]
      omega

/-- The first loop of `KImage_Finish`: the offset behind the map. -/
def map_space (table : Table) : List ItemKind → Nat → Nat
  | [], offset => offset
  | i :: kinds, offset =>
    map_space table kinds
      (if 0 < AtomTable_Size table i then offset + ItemKind.sizeof .ITEM_MAP else offset)

def items_length (type : ItemKind) : List (ItemData type) → Nat → Res Nat
  | [], length => .ok length
  | item :: items, length => do
    let length ← addInt length (item_length type item)
    items_length type items length

/-- The second loop of `KImage_Finish`. -/
def finish_loop : List ItemKind → Table → Nat → Nat → Res (Table × Nat × Nat)
  | [], table, offset, length => .ok (table, offset, length)
  | i :: kinds, table, offset, length => do
    let size := AtomTable_Size table i
    if 0 < size then
      let offset ← addInt offset length
      let (_, table) ← Append table .ITEM_MAP ⟨i.number, offset, size⟩
      let length ← items_length i (table.items i) 0
      finish_loop kinds table offset length
    else finish_loop kinds table offset length

def KImage_Finish (image : KImage) : Res KImage := do
  let offset := map_space image.table ItemKind.all.tail image.header.header_size
  let (table, offset, length) ← finish_loop ItemKind.all.tail image.table offset 0
  let file_size ← addInt offset length
  .ok ⟨{ image.header with file_size, map_size := AtomTable_Size table .ITEM_MAP }, table⟩

def image_write_header (image : KImage) : List UInt8 :=
  (header_write image.header).take image.header.header_size

def image_write_item (image : KImage) (type : ItemKind) : List UInt8 :=
  (image.table.items type).flatMap (item_write type)

def image_write_items (image : KImage) : List ItemKind → List UInt8
  | [] => []
  | i :: kinds =>
    (if 0 < AtomTable_Size image.table i then image_write_item image i else []) ++
      image_write_items image kinds

/-- The bytes of the file. -/
def KImage_Write_File (image : KImage) : List UInt8 :=
  image_write_header image ++ image_write_items image ItemKind.all

/-- The lengths of all items of a kind. -/
def region_length (table : Table) (type : ItemKind) : Nat :=
  ((table.items type).map (item_length type)).sum

theorem items_length_ok {type : ItemKind} {items : List (ItemData type)} {n m : Nat}
    (h : items_length type items n = .ok m) : m = n + (items.map (item_length type)).sum := by
  induction items generalizing n with
  | nil =>
    cases h
    rfl
  | cons item items ih =>
    obtain ⟨k, hk, h⟩ := bind_eq_ok_iff.mp h
    obtain ⟨_, rfl⟩ := addInt_eq_ok_iff.mp hk
    rw [ih h, List.map_cons, List.sum_cons, Nat.add_assoc]

theorem items_length_total {type : ItemKind} {items : List (ItemData type)} {n : Nat}
    (h : n + (items.map (item_length type)).sum ≤ INT_MAX) :
    items_length type items n = .ok (n + (items.map (item_length type)).sum) := by
  induction items generalizing n with
  | nil => rfl
  | cons item items ih =>
    rw [List.map_cons, List.sum_cons, ← Nat.add_assoc] at h ⊢
    have hadd : addInt n (item_length type item) = .ok (n + item_length type item) :=
      addInt_eq_ok_iff.mpr ⟨by omega, rfl⟩
    rw [items_length, hadd, ok_bind]
    exact ih h

/-- The items of a kind in the file. -/
structure Region where
  kind : ItemKind
  extent : Extent

/-- The map item of a region. -/
def Region.entry (table : Table) (r : Region) : MapItem :=
  ⟨r.kind.number, r.extent.offset, AtomTable_Size table r.kind⟩

/-- The regions of some kinds, one after the other. -/
def regions (table : Table) : Nat → List ItemKind → List Region
  | _, [] => []
  | start, type :: kinds =>
    ⟨type, ⟨start, region_length table type⟩⟩ ::
      regions table (start + region_length table type) kinds

/-- The kinds that have items. -/
def used (table : Table) (kinds : List ItemKind) : List ItemKind :=
  kinds.filter fun type => 0 < AtomTable_Size table type

/-- The length of the regions of some kinds. -/
def total (table : Table) (kinds : List ItemKind) : Nat :=
  ((used table kinds).map (region_length table)).sum

section regions

variable {T : Table}

theorem used_cons_pos {type : ItemKind} {kinds : List ItemKind}
    (h : 0 < AtomTable_Size T type) : used T (type :: kinds) = type :: used T kinds :=
  List.filter_cons_of_pos (by simpa using h)

theorem used_cons_neg {type : ItemKind} {kinds : List ItemKind}
    (h : ¬ 0 < AtomTable_Size T type) : used T (type :: kinds) = used T kinds :=
  List.filter_cons_of_neg (by simpa using h)

theorem map_space_eq (kinds : List ItemKind) (offset : Nat) :
    map_space T kinds offset = offset + ItemKind.sizeof .ITEM_MAP * (used T kinds).length := by
  induction kinds generalizing offset with
  | nil => rfl
  | cons type kinds ih =>
    rw [map_space, ih]
    by_cases h : 0 < AtomTable_Size T type
    · rw [if_pos h, used_cons_pos h, List.length_cons, Nat.mul_succ]
      omega
    · rw [if_neg h, used_cons_neg h]

theorem map_kind_regions (start : Nat) (kinds : List ItemKind) :
    (regions T start kinds).map Region.kind = kinds := by
  induction kinds generalizing start with
  | nil => rfl
  | cons type kinds ih => rw [regions, List.map_cons, ih]

theorem map_extent_regions (start : Nat) (kinds : List ItemKind) :
    (regions T start kinds).map Region.extent = layout start (kinds.map (region_length T)) := by
  induction kinds generalizing start with
  | nil => rfl
  | cons type kinds ih => rw [regions, List.map_cons, ih, List.map_cons, layout]

theorem length_of_mem_regions {start : Nat} {kinds : List ItemKind} :
    ∀ r ∈ regions T start kinds, r.extent.length = region_length T r.kind := by
  induction kinds generalizing start with
  | nil => simp [regions]
  | cons type kinds ih =>
    intro r hr
    rcases List.mem_cons.mp hr with rfl | hr
    · rfl
    · exact ih r hr

end regions

/-- A table whose vectors are those of `T`, except for the map. -/
def SameItems (T table : Table) : Prop := ∀ type, type ≠ .ITEM_MAP → table.items type = T.items type

theorem SameItems.size_eq {T table : Table} (h : SameItems T table) {type : ItemKind}
    (htype : type ≠ .ITEM_MAP) : AtomTable_Size table type = AtomTable_Size T type := by
  rw [AtomTable_Size, AtomTable_Size, h type htype]

theorem append_map (table : Table) (entry : MapItem) :
    ∃ i table', Append table .ITEM_MAP entry = .ok (i, table') ∧ SameItems table table' ∧
      table'.items .ITEM_MAP = table.items .ITEM_MAP ++ [entry] := by
  refine ⟨_, _, AtomTable_Append_not_unique table .ITEM_MAP entry, fun type htype => ?_, ?_⟩
  · exact appended_of_ne table entry htype
  · exact appended_self table .ITEM_MAP entry

/-- The loop appends the map items of the regions, and its offset and length end
where they end. -/
theorem finish_loop_ok {T : Table} {kinds : List ItemKind} (hkinds : .ITEM_MAP ∉ kinds)
    {table table' : Table} {offset length offset' length' : Nat} (hT : SameItems T table)
    (h : finish_loop kinds table offset length = .ok (table', offset', length')) :
    SameItems T table' ∧
      table'.items .ITEM_MAP = table.items .ITEM_MAP ++
        (regions T (offset + length) (used T kinds)).map (Region.entry T) ∧
      offset' + length' = offset + length + total T kinds := by
  induction kinds generalizing table offset length with
  | nil =>
    cases h
    exact ⟨hT, (List.append_nil _).symm, rfl⟩
  | cons type kinds ih =>
    obtain ⟨hne, hrest⟩ := List.ne_and_not_mem_of_not_mem_cons hkinds
    have hsize := hT.size_eq hne.symm
    rw [finish_loop] at h
    dsimp only at h
    rw [hsize] at h
    split at h
    · next hpos =>
      obtain ⟨offset₁, hoffset, h⟩ := bind_eq_ok_iff.mp h
      obtain ⟨_, rfl⟩ := addInt_eq_ok_iff.mp hoffset
      obtain ⟨_, table₁, happend, hsame, hmap⟩ :=
        append_map table ⟨type.number, offset + length, AtomTable_Size T type⟩
      rw [happend, ok_bind] at h
      obtain ⟨length₁, hlength, h⟩ := bind_eq_ok_iff.mp h
      have hT₁ : SameItems T table₁ := fun k hk => (hsame k hk).trans (hT k hk)
      rw [hT₁ type hne.symm] at hlength
      have hregion : length₁ = region_length T type := by
        rw [items_length_ok hlength, Nat.zero_add, region_length]
      obtain ⟨hT', hentries, hend⟩ := ih hrest hT₁ h
      refine ⟨hT', ?_, ?_⟩
      · rw [hentries, hmap, used_cons_pos hpos, regions, List.map_cons, List.append_assoc, hregion]
        rfl
      · rw [hend, total, total, used_cons_pos hpos, List.map_cons, List.sum_cons, hregion]
        omega
    · next hzero =>
      obtain ⟨hT', hentries, hend⟩ := ih hrest hT h
      rw [used_cons_neg hzero, total, used_cons_neg hzero]
      exact ⟨hT', hentries, hend⟩

/-- Nothing overflows when the end of the regions is an `int`. -/
theorem finish_loop_total {T : Table} {kinds : List ItemKind} (hkinds : .ITEM_MAP ∉ kinds)
    {table : Table} {offset length : Nat} (hT : SameItems T table)
    (h : offset + length + total T kinds ≤ INT_MAX) :
    ∃ r, finish_loop kinds table offset length = .ok r := by
  induction kinds generalizing table offset length with
  | nil => exact ⟨_, rfl⟩
  | cons type kinds ih =>
    obtain ⟨hne, hrest⟩ := List.ne_and_not_mem_of_not_mem_cons hkinds
    rw [finish_loop]
    dsimp only
    rw [hT.size_eq hne.symm]
    by_cases hpos : 0 < AtomTable_Size T type
    · rw [total, used_cons_pos hpos, List.map_cons, List.sum_cons] at h
      have hadd : addInt offset length = .ok (offset + length) :=
        addInt_eq_ok_iff.mpr ⟨by omega, rfl⟩
      obtain ⟨_, table₁, happend, hsame, hmap⟩ :=
        append_map table ⟨type.number, offset + length, AtomTable_Size T type⟩
      have hT₁ : SameItems T table₁ := fun k hk => (hsame k hk).trans (hT k hk)
      have hlength : items_length type (table₁.items type) 0 = .ok (region_length T type) := by
        rw [hT₁ type hne.symm, items_length_total, Nat.zero_add, region_length]
        rw [Nat.zero_add, ← region_length]
        omega
      rw [if_pos hpos, hadd, ok_bind, happend, ok_bind, hlength, ok_bind]
      refine ih hrest hT₁ ?_
      rw [total]
      omega
    · rw [total, used_cons_neg hpos] at h
      rw [if_neg hpos]
      exact ih hrest hT h

end koala.image
