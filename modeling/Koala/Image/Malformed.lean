import Koala.Image.Layout
import Koala.Image.Partial

open koala.atomtable koala.bytes

namespace koala.image

set_option linter.style.nameCheck false

/-- What each image starts with. -/
def magic : List UInt8 := ['K'.toUInt8, 'L'.toUInt8, 'C'.toUInt8]

/-- How many of the map items that the header states are in the file. -/
def map_count (file : List UInt8) : Nat :=
  min (file_header file).map_size
    ((file.drop (file_header file).map_offset).length / ItemKind.sizeof .ITEM_MAP)

/-- A file without a header, with another magic, or without its map. -/
def NoImage (file : List UInt8) : Prop :=
  file.length < sizeofImageHeader ∨ ¬ magic <+: file ∨
    int32 (map_count file) < int32 (file_header file).map_size

/-- Two items that the table of a kind can hold, if each is in it once. -/
def Apart : (type : ItemKind) → ItemData type → ItemData type → Prop
  | .ITEM_CONST, x, y =>
    match x.val, y.val with
    | .CONST_FLOAT f, .CONST_FLOAT g => float_eq f g = false
    | .CONST_BOOL _, .CONST_BOOL _ => True
    | v, w => v ≠ w
  | type, x, y => item_equal type x y = false

/-- The items that a map item states are in the file, and are different if they have to be. -/
structure Intact (file : List UInt8) (type : ItemKind) (map : MapItem) : Prop where
  size : 0 ≤ map.size
  items : ∃ items, Lies type (file.drop map.offset) items ∧ items.length = map.size.toNat ∧
    (type.unique = true → items.Pairwise (Apart type))

/-- The numbers of items of a kind that map items state. -/
def stated (type : ItemKind) (maps : List MapItem) : List Int :=
  (maps.filter fun map => ItemKind.ofNumber map.type = some type).map MapItem.size

/-- A file with its map and the items of the kinds that are to be loaded. -/
structure WellFormed (file : List UInt8) (unload : BitVec 32) : Prop where
  count : (file_header file).map_size ≤ INT_MAX
  maps : (file_header file).map_size * ItemKind.sizeof .ITEM_MAP ≤
    (file.drop (file_header file).map_offset).length
  kinds : ∀ map ∈ file_maps file, ∃ type, type ≠ .ITEM_MAP ∧
    ItemKind.ofNumber map.type = some type ∧ (LOAD unload type = true → Intact file type map)
  once : ∀ type, LOAD unload type = true →
    (stated type (file_maps file)).Pairwise fun size size' => size = 0 ∧ size' = 0

/-- Each table that is loaded has as many items as the map states. -/
def Counted (unload : BitVec 32) (image : KImage) : Prop :=
  ∀ type, LOAD unload type = true → ∀ size ∈ stated type (image.table.items .ITEM_MAP),
    (AtomTable_Size image.table type : Int) = size

/-- What is asked of `KImage_Read_File`, wherever it puts the items. -/
structure Handled (file : List UInt8) (unload : BitVec 32) : Prop where
  returns : ∀ addr : Nat → Nat, Function.Injective addr → ∃ r,
    KImage_Read_File (LOAD unload) addr file = .ok r ∧ ∀ image, r = some image →
      Counted unload image
  magic : ¬ magic <+: file → ∀ addr, KImage_Read_File (LOAD unload) addr file = .ok none

section header

variable {file : List UInt8} {load : ItemKind → Bool} {addr : Nat → Nat}

theorem fread_header (hlength : sizeofImageHeader ≤ file.length) :
    fread sizeofImageHeader 1 file =
      (1, file.take sizeofImageHeader, file.drop sizeofImageHeader) := by
  have hsplit : fread sizeofImageHeader 1
      (file.take sizeofImageHeader ++ file.drop sizeofImageHeader) =
        (1, file.take sizeofImageHeader, file.drop sizeofImageHeader) := by
    refine fread_append (by decide) ?_ _
    rw [List.length_take, Nat.one_mul, Nat.min_eq_left hlength]
  rwa [List.take_append_drop] at hsplit

theorem fread_header_count (hlength : sizeofImageHeader ≤ file.length) :
    ¬ (fread sizeofImageHeader 1 file).1 < 1 := by
  rw [fread_header hlength]
  exact Nat.lt_irrefl 1

theorem fread_no_header (hlength : file.length < sizeofImageHeader) :
    (fread sizeofImageHeader 1 file).1 < 1 := by
  have hzero : file.length / sizeofImageHeader = 0 := Nat.div_eq_of_lt hlength
  rw [fread, if_neg (by decide)]
  dsimp only
  rw [hzero, Nat.min_zero]
  exact Nat.one_pos

theorem header_check_iff (hlength : sizeofImageHeader ≤ file.length) :
    header_check (file_header file) < 0 ↔ ¬ magic <+: file := by
  have hmagic : (file_header file).magic = file.take 4 := by
    rw [file_header, fread_header hlength, header_read, List.take_take]
    rfl
  obtain ⟨a, b, c, rest, rfl⟩ : ∃ a b c rest, file = a :: b :: c :: rest := by
    obtain ⟨a, file, rfl⟩ := List.exists_cons_of_length_pos (lt_of_lt_of_le (by decide) hlength)
    have htwo : 0 < file.length := by
      rw [List.length_cons, sizeofImageHeader] at hlength
      omega
    obtain ⟨b, file, rfl⟩ := List.exists_cons_of_length_pos htwo
    have hthree : 0 < file.length := by
      rw [List.length_cons, List.length_cons, sizeofImageHeader] at hlength
      omega
    obtain ⟨c, rest, rfl⟩ := List.exists_cons_of_length_pos hthree
    exact ⟨a, b, c, rest, rfl⟩
  have hkey : magic <+: a :: b :: c :: rest ↔
      a = 'K'.toUInt8 ∧ b = 'L'.toUInt8 ∧ c = 'C'.toUInt8 := by
    rw [magic, List.cons_prefix_cons, List.cons_prefix_cons, List.cons_prefix_cons, eq_comm,
      eq_comm (b := b), eq_comm (b := c)]
    simp only [List.nil_prefix, and_true]
  rw [hkey, header_check, hmagic]
  simp only [List.take_succ_cons, List.getElem?_cons_zero, List.getElem?_cons_succ, ne_eq,
    Option.some.injEq]
  split
  · next hk => exact iff_of_true (by decide) fun h => hk h.1
  · next hk =>
    split
    · next hl => exact iff_of_true (by decide) fun h => hl h.2.1
    · next hl =>
      split
      · next hc => exact iff_of_true (by decide) fun h => hc h.2.2
      · next hc =>
        exact iff_of_false (by decide)
          (not_not.mpr ⟨not_not.mp hk, not_not.mp hl, not_not.mp hc⟩)

theorem map_count_eq (file : List UInt8) : (fread (ItemKind.sizeof .ITEM_MAP)
    (file_header file).map_size (fseek file (file_header file).map_offset)).1 = map_count file :=
  rfl

/-- A file that is no image gives none. -/
theorem KImage_Read_File_none (h : NoImage file) : KImage_Read_File load addr file = .ok none := by
  unfold KImage_Read_File
  dsimp only
  by_cases hlength : file.length < sizeofImageHeader
  · rw [if_pos (fread_no_header hlength)]
  · rw [if_neg (fread_header_count (Nat.not_lt.mp hlength))]
    by_cases hcheck : header_check (file_header file) < 0
    · exact if_pos hcheck
    · refine (if_neg hcheck).trans (if_pos ?_)
      rw [header_check_iff (Nat.not_lt.mp hlength)] at hcheck
      exact (h.resolve_left hlength).resolve_left hcheck

/-- The other files are read up to the end of the map. -/
theorem KImage_Read_File_image (h : ¬ NoImage file) : KImage_Read_File load addr file =
    if map_count file < (file_header file).map_size then .error .uninitialized
    else if INT_MAX < (file_header file).map_size then .error .overflow
    else (do
      let table ← append_maps (file_maps file) AtomTable_New
      let table ← read_maps load addr file 0 (file_maps file) table
      .ok (some ⟨file_header file, table⟩)) := by
  rw [NoImage, not_or, not_or, not_not] at h
  obtain ⟨hlength, hmagic, hmaps⟩ := h
  have hcheck : ¬ header_check (file_header file) < 0 := by
    rw [header_check_iff (Nat.not_lt.mp hlength)]
    exact not_not.mpr hmagic
  unfold KImage_Read_File
  dsimp only
  rw [if_neg (fread_header_count (Nat.not_lt.mp hlength))]
  exact (if_neg hcheck).trans (if_neg hmaps)

theorem map_count_iff (file : List UInt8) : ¬ map_count file < (file_header file).map_size ↔
    (file_header file).map_size * ItemKind.sizeof .ITEM_MAP ≤
      (file.drop (file_header file).map_offset).length := by
  rw [Nat.not_lt, map_count, Nat.le_min, Nat.le_div_iff_mul_le (by decide)]
  exact ⟨fun h => h.2, fun h => ⟨Nat.le_refl _, h⟩⟩

end header

section apart

variable {type : ItemKind} {addr : Nat → Nat} {items : List (ItemData type)} {n : Nat}

/-- Items that are different can be put anywhere. -/
theorem differing_copies (haddr : Function.Injective addr) (h : items.Pairwise (Apart type)) :
    Differing type (copies addr type n items) := by
  refine pairwise_copies (fun i j x y hij hxy => ?_) h
  cases type with
  | ITEM_CONST =>
    obtain ⟨addrx, x⟩ := x
    obtain ⟨addry, y⟩ := y
    have hne : addr i ≠ addr j := fun heq => hij (haddr heq)
    change constitem_equal ⟨addr i, x⟩ ⟨addr j, y⟩ = false
    cases x <;> cases y <;> simp only [constitem_equal, decide_eq_false_iff_not]
    case CONST_INT.CONST_INT v w => exact fun heq => hxy (congrArg ConstVal.CONST_INT heq)
    case CONST_FLOAT.CONST_FLOAT f g => exact hxy
    case CONST_BOOL.CONST_BOOL v w => exact hne
    case CONST_STRING.CONST_STRING v w => exact fun heq => hxy (congrArg ConstVal.CONST_STRING heq)
    case CONST_UCHAR.CONST_UCHAR v w => exact fun heq => hxy (congrArg ConstVal.CONST_UCHAR heq)
  | _ => exact hxy

/-- Items that a table holds at addresses of one hash are different. -/
theorem apart_of_copies (haddr : ∀ n, addr n % 2 ^ 32 = 0)
    (h : (copies addr type n items).Pairwise fun x y =>
      item_hash type x = item_hash type y → item_equal type x y = false) :
    items.Pairwise (Apart type) := by
  refine pairwise_of_copies (fun i j x y hxy => ?_) h
  have hother : ∀ {x y : ItemData type}, type ≠ .ITEM_CONST →
      (item_hash type x = item_hash type y → item_equal type x y = false) →
        item_equal type x y = false := by
    intro x y htype hxy
    by_contra hne
    have hequal : item_equal type x y = true := by simpa using hne
    exact hne (hxy (item_hash_of_equal htype hequal))
  cases type with
  | ITEM_CONST =>
    obtain ⟨addrx, x⟩ := x
    obtain ⟨addry, y⟩ := y
    change constitem_hash ⟨addr i, x⟩ = constitem_hash ⟨addr j, y⟩ →
      constitem_equal ⟨addr i, x⟩ ⟨addr j, y⟩ = false at hxy
    cases x <;> cases y <;> try exact ConstVal.noConfusion
    case CONST_INT.CONST_INT v w =>
      rintro ⟨⟩
      exact absurd (hxy rfl) (by simp [constitem_equal])
    case CONST_FLOAT.CONST_FLOAT f g =>
      refine hxy ?_
      rw [constitem_hash, constitem_hash, haddr, haddr]
    case CONST_BOOL.CONST_BOOL v w => trivial
    case CONST_STRING.CONST_STRING v w =>
      rintro ⟨⟩
      exact absurd (hxy rfl) (by simp [constitem_equal])
    case CONST_UCHAR.CONST_UCHAR v w =>
      rintro ⟨⟩
      exact absurd (hxy rfl) (by simp [constitem_equal])
  | _ => exact hother (by simp) hxy

end apart

section maps

variable {load : ItemKind → Bool} {addr : Nat → Nat} {file : List UInt8} {map : MapItem}
  {maps : List MapItem} {n : Nat} {T T' : Table}

/-- What reading a map item has done, and what it read. -/
theorem read_map_ok (hwf : WF T) (h : read_map load addr n file map T = .ok T') :
    ∃ type, type ≠ .ITEM_MAP ∧ ItemKind.ofNumber map.type = some type ∧ WF T' ∧
      (load type = false → T' = T) ∧
      (load type = true → (type.isize = none → 0 ≤ map.size) ∧
        ∃ items, Lies type (file.drop map.offset) items ∧ items.length = map.size.toNat ∧
          T'.items = loaded T type (copies addr type n items)) := by
  obtain ⟨type, hmap, hnumber⟩ := kind_of_read_map h
  have hread := h
  rw [read_map_of_kind hmap hnumber] at hread
  cases hl : load type with
  | false =>
    rw [hl, if_neg (by decide)] at hread
    cases hread
    exact ⟨type, hmap, hnumber, hwf, fun _ => rfl,
      fun htrue => Bool.noConfusion (hl.symm.trans htrue)⟩
  | true =>
    have hall : read_map (fun _ => true) addr n file map T = .ok T' := by
      rw [read_map_of_kind hmap hnumber, if_pos rfl]
      rwa [hl, if_pos rfl] at hread
    obtain ⟨b, hb, -⟩ := map_items_of_read (fun _ => rfl) hall
    rw [read_map_eq hb] at h
    rw [map_items_of_kind hmap hnumber] at hb
    obtain ⟨items, hitems, heq⟩ := bind_eq_ok_iff.mp hb
    cases heq
    rw [load_batch, hl, if_pos rfl] at h
    obtain ⟨hwf', hitems', -⟩ := load_items_ok hwf h
    obtain ⟨hsize, hlies, hlength⟩ := kind_items_iff.mp hitems
    exact ⟨type, hmap, hnumber, hwf', fun hfalse => Bool.noConfusion (hl.symm.trans hfalse),
      fun _ => ⟨hsize, items, hlies, hlength, hitems'⟩⟩

theorem Lies.readable {type : ItemKind} {bytes : List UInt8} {items : List (ItemData type)}
    (h : Lies type bytes items) : ∀ item ∈ items, Readable type item := by
  induction h with
  | nil => nofun
  | struct hsize _ _ _ ih =>
    refine List.forall_mem_cons.mpr ⟨fun hsome => ?_, ih⟩
    rw [hsize] at hsome
    cases hsome
  | @array isize len array rest item items hsize _ hpos harray _ hitem _ ih =>
    refine List.forall_mem_cons.mpr ⟨fun _ hnil => ?_, ih⟩
    have hlength := item_read_isize hsize hitem
    rw [hnil, harray, Nat.mul_div_cancel_left _ (isize_pos hsize), List.length_nil] at hlength
    exact Nat.ne_of_lt (Nat.mul_pos hpos (isize_pos hsize)) hlength

/-- A map item of a kind whose table is empty can be read. -/
theorem read_map_total (hwf : WF T) (haddr : Function.Injective addr) {type : ItemKind}
    (hmap : type ≠ .ITEM_MAP) (hnumber : ItemKind.ofNumber map.type = some type)
    (hintact : load type = true → Intact file type map ∧ T.items type = []) :
    ∃ T', read_map load addr n file map T = .ok T' := by
  cases hl : load type with
  | false =>
    refine ⟨T, ?_⟩
    rw [read_map_of_kind hmap hnumber, hl, if_neg (by decide)]
  | true =>
    obtain ⟨⟨hsize, items, hlies, hlength, hapart⟩, hempty⟩ := hintact hl
    have hitems : kind_items type map.size (fseek file map.offset) = .ok items :=
      kind_items_iff.mpr ⟨fun _ => hsize, hlies, hlength⟩
    have hb : map_items file map = .ok ⟨type, items⟩ := by
      rw [map_items_of_kind hmap hnumber, hitems, ok_bind]
    obtain ⟨T', hload⟩ : ∃ T', load_items addr type n items T = .ok T' := by
      refine load_items_total hwf hlies.readable fun hunique => ?_
      rw [hempty, List.nil_append]
      exact differing_copies haddr (hapart hunique)
    refine ⟨T', ?_⟩
    rw [read_map_eq hb, load_batch, hl, if_pos rfl, hload]

theorem stated_cons_self {type : ItemKind} (hnumber : ItemKind.ofNumber map.type = some type)
    (maps : List MapItem) : stated type (map :: maps) = map.size :: stated type maps := by
  rw [stated, List.filter_cons_of_pos (by simp [hnumber]), List.map_cons]
  rfl

theorem stated_cons_of_ne {type other : ItemKind} (hnumber : ItemKind.ofNumber map.type = some type)
    (hne : other ≠ type) (maps : List MapItem) :
    stated other (map :: maps) = stated other maps := by
  have hnot : ¬ some type = some other := fun heq => hne (Option.some.inj heq).symm
  rw [stated, List.filter_cons_of_neg (by simp [hnumber, hnot])]
  rfl

theorem mem_stated {type : ItemKind} (hmem : map ∈ maps)
    (hnumber : ItemKind.ofNumber map.type = some type) : map.size ∈ stated type maps :=
  List.mem_map_of_mem (List.mem_filter.mpr ⟨hmem, by simp [hnumber]⟩)

theorem length_copies {type : ItemKind} (n : Nat) (items : List (ItemData type)) :
    (copies addr type n items).length = items.length := by
  induction items generalizing n with
  | nil => rfl
  | cons item items ih => rw [copies, List.length_cons, List.length_cons, ih]

/-- What was read of a map item, and is in the table. -/
def Read (load : ItemKind → Bool) (addr : Nat → Nat) (file : List UInt8) (T : Table)
    (map : MapItem) : Prop :=
  ∃ type, type ≠ .ITEM_MAP ∧ ItemKind.ofNumber map.type = some type ∧
    (load type = true → ∃ items m, Lies type (file.drop map.offset) items ∧
      items.length = map.size.toNat ∧ List.Sublist (copies addr type m items) (T.items type))

/-- What reading the map items has done: tables of loaded kinds grow by what the map states. -/
theorem read_maps_ok (hwf : WF T) (h : read_maps load addr file n maps T = .ok T') :
    WF T' ∧ Extends T T' ∧ T'.items .ITEM_MAP = T.items .ITEM_MAP ∧
      (∀ type, load type = true → (T'.items type).length =
        (T.items type).length + ((stated type maps).map Int.toNat).sum) ∧
      ∀ map ∈ maps, Read load addr file T' map := by
  induction maps generalizing n T with
  | nil =>
    cases h
    exact ⟨hwf, .refl _, rfl, fun _ _ => rfl, nofun⟩
  | cons map maps ih =>
    obtain ⟨T₁, hmap, hrest⟩ := bind_eq_ok_iff.mp h
    obtain ⟨type, hne, hnumber, hwf₁, hskipped, hread⟩ := read_map_ok hwf hmap
    obtain ⟨hwf', hext, hmaps, hlength, hreads⟩ := ih hwf₁ hrest
    have hlater : ∀ other, other ≠ type → T₁.items other = T.items other := by
      intro other hother
      cases hl : load type with
      | false => rw [hskipped hl]
      | true =>
        obtain ⟨-, items, -, -, hitems⟩ := hread hl
        rw [hitems, loaded_of_ne _ hother]
    have hgrown : load type = true →
        (T₁.items type).length = (T.items type).length + map.size.toNat := by
      intro hl
      obtain ⟨-, items, -, hsize, hitems⟩ := hread hl
      rw [hitems, loaded_self, List.length_append, length_copies, hsize]
    refine ⟨hwf', fun other => ?_, ?_, fun other hl => ?_, ?_⟩
    · by_cases hother : other = type
      · subst hother
        refine List.IsPrefix.trans ?_ (hext other)
        cases hl : load other with
        | false =>
          obtain rfl := hskipped hl
          exact List.prefix_rfl
        | true =>
          obtain ⟨-, items, -, -, hitems⟩ := hread hl
          rw [hitems, loaded_self]
          exact List.prefix_append _ _
      · rw [← hlater other hother]
        exact hext other
    · rw [hmaps, hlater _ (Ne.symm hne)]
    · rw [hlength other hl]
      by_cases hother : other = type
      · subst hother
        rw [hgrown hl, stated_cons_self hnumber, List.map_cons, List.sum_cons]
        omega
      · rw [hlater other hother, stated_cons_of_ne hnumber hother]
    · refine List.forall_mem_cons.mpr ⟨⟨type, hne, hnumber, fun hl => ?_⟩, hreads⟩
      obtain ⟨-, items, hlies, hsize, hitems⟩ := hread hl
      refine ⟨items, n, hlies, hsize, List.Sublist.trans ?_ (hext type).sublist⟩
      rw [hitems, loaded_self]
      exact List.sublist_append_right _ _

/-- Map items of intact regions can be read, if no kind with items occurs twice. -/
theorem read_maps_total (hwf : WF T) (haddr : Function.Injective addr)
    (hkinds : ∀ map ∈ maps, ∃ type, type ≠ .ITEM_MAP ∧ ItemKind.ofNumber map.type = some type ∧
      (load type = true → Intact file type map ∧ T.items type = []))
    (honce : ∀ type, load type = true →
      (stated type maps).Pairwise fun size size' => size = 0 ∧ size' = 0) :
    ∃ T', read_maps load addr file n maps T = .ok T' := by
  induction maps generalizing n T with
  | nil => exact ⟨T, rfl⟩
  | cons map maps ih =>
    obtain ⟨hhead, htail⟩ := List.forall_mem_cons.mp hkinds
    obtain ⟨type, hmap, hnumber, hintact⟩ := hhead
    obtain ⟨T₁, hread⟩ := read_map_total (n := n) hwf haddr hmap hnumber hintact
    obtain ⟨type', _, hnumber', hwf₁, hskipped, hloaded⟩ := read_map_ok hwf hread
    cases hnumber.symm.trans hnumber'
    have htail₁ : ∀ map ∈ maps, ∃ type, type ≠ .ITEM_MAP ∧
        ItemKind.ofNumber map.type = some type ∧
        (load type = true → Intact file type map ∧ T₁.items type = []) := by
      intro other hother
      obtain ⟨kind, hkind, hkindnumber, hkindintact⟩ := htail other hother
      refine ⟨kind, hkind, hkindnumber, fun hl => ⟨(hkindintact hl).1, ?_⟩⟩
      have hempty := (hkindintact hl).2
      by_cases heq : kind = type
      · subst heq
        -- the kind occurs again, so nothing is read now
        have hpairs := honce kind hl
        rw [stated_cons_self hnumber] at hpairs
        have hzero := ((List.pairwise_cons.mp hpairs).1 _ (mem_stated hother hkindnumber)).1
        obtain ⟨-, items, -, hlength, hitems⟩ := hloaded hl
        rw [hzero] at hlength
        rw [hitems, loaded_self, hempty, List.eq_nil_of_length_eq_zero hlength]
        rfl
      · cases hlt : load type with
        | false =>
          rw [hskipped hlt]
          exact hempty
        | true =>
          obtain ⟨-, items, -, -, hitems⟩ := hloaded hlt
          rw [hitems, loaded_of_ne _ heq]
          exact hempty
    have honce₁ : ∀ type, load type = true →
        (stated type maps).Pairwise fun size size' => size = 0 ∧ size' = 0 := by
      intro other hl
      have hpairs := honce other hl
      by_cases heq : other = type
      · subst heq
        rw [stated_cons_self hnumber] at hpairs
        exact (List.pairwise_cons.mp hpairs).2
      · rwa [stated_cons_of_ne hnumber heq] at hpairs
    obtain ⟨T', hrest⟩ := @ih (n + map.size.toNat) T₁ hwf₁ htail₁ honce₁
    refine ⟨T', ?_⟩
    rw [read_maps, hread, ok_bind, hrest]

end maps

/-- Map items that state their number of items are each the only one with items of its kind. -/
theorem sum_toNat_iff (sizes : List Int) :
    (∀ size ∈ sizes, (((sizes.map Int.toNat).sum : Nat) : Int) = size) ↔
      (∀ size ∈ sizes, 0 ≤ size) ∧ sizes.Pairwise fun size size' => size = 0 ∧ size' = 0 := by
  constructor
  · intro h
    refine ⟨fun size hsize => ?_, ?_⟩
    · have hsum := h size hsize
      omega
    · match sizes, h with
      | [], _ => exact List.Pairwise.nil
      | [size], _ => exact List.pairwise_singleton _ _
      | size :: size' :: sizes, h =>
        have hfirst := h size List.mem_cons_self
        have hsecond := h size' (List.mem_cons_of_mem _ List.mem_cons_self)
        rw [List.map_cons, List.map_cons, List.sum_cons, List.sum_cons] at hfirst hsecond
        have hzero : ∀ other ∈ size :: size' :: sizes, other = 0 := by
          intro other hother
          have hall := h other hother
          rw [List.map_cons, List.map_cons, List.sum_cons, List.sum_cons] at hall
          omega
        exact List.pairwise_of_forall_mem_list fun x hx y hy => ⟨hzero x hx, hzero y hy⟩
  · rintro ⟨hnonneg, hpairs⟩ size hsize
    cases sizes with
    | nil => cases hsize
    | cons first sizes =>
      have hfirst := hnonneg first List.mem_cons_self
      have hrest := (List.pairwise_cons.mp hpairs).1
      have hsum : (sizes.map Int.toNat).sum = 0 := by
        refine List.sum_eq_zero fun m hm => ?_
        obtain ⟨other, hother, rfl⟩ := List.mem_map.mp hm
        rw [(hrest other hother).2]
        rfl
      rw [List.map_cons, List.sum_cons, hsum]
      rcases List.mem_cons.mp hsize with rfl | hmem
      · omega
      · rw [(hrest size hmem).1, (hrest size hmem).2]
        rfl

section handled

variable {file : List UInt8} {unload : BitVec 32} {addr : Nat → Nat}

/-- A well-formed file is loaded. -/
theorem WellFormed.returns (h : WellFormed file unload) (himage : ¬ NoImage file)
    (haddr : Function.Injective addr) : ∃ image,
      KImage_Read_File (LOAD unload) addr file = .ok (some image) ∧ Counted unload image := by
  obtain ⟨R, happend, hwf, hsame, hmaps⟩ := append_maps_ok (file_maps file) AtomTable_New
  have hwfR := hwf (koala.atomtable.wf_new ItemKind.unique)
  obtain ⟨T, hread⟩ : ∃ T, read_maps (LOAD unload) addr file 0 (file_maps file) R = .ok T := by
    refine read_maps_total hwfR haddr (fun map hmap => ?_) h.once
    obtain ⟨type, hne, hnumber, hintact⟩ := h.kinds map hmap
    exact ⟨type, hne, hnumber, fun hl => ⟨hintact hl, hsame type hne⟩⟩
  obtain ⟨-, -, hsamemaps, hlength, -⟩ := read_maps_ok hwfR hread
  refine ⟨⟨file_header file, T⟩, ?_, fun type hl size hsize => ?_⟩
  · rw [KImage_Read_File_image himage, if_neg ((map_count_iff file).mpr h.maps),
      if_neg (Nat.not_lt.mpr h.count), happend, ok_bind, hread, ok_bind]
  · rw [hsamemaps, hmaps] at hsize
    change size ∈ stated type (file_maps file) at hsize
    have hne : type ≠ .ITEM_MAP := by
      rintro rfl
      obtain ⟨map, hmap, -⟩ := List.mem_map.mp hsize
      obtain ⟨hmem, hnumber⟩ := List.mem_filter.mp hmap
      obtain ⟨type, hnot, hnumber', -⟩ := h.kinds map hmem
      exact hnot (Option.some.inj (hnumber'.symm.trans (of_decide_eq_true hnumber)))
    have hnonneg : ∀ size ∈ stated type (file_maps file), 0 ≤ size := by
      intro size hsize
      obtain ⟨map, hmap, rfl⟩ := List.mem_map.mp hsize
      obtain ⟨hmem, hnumber⟩ := List.mem_filter.mp hmap
      obtain ⟨type', -, hnumber', hintact⟩ := h.kinds map hmem
      cases (of_decide_eq_true hnumber).symm.trans hnumber'
      exact (hintact hl).size
    have hsum := (sum_toNat_iff _).mpr ⟨hnonneg, h.once type hl⟩ size hsize
    rw [AtomTable_Size, hlength type hl, hsame type hne]
    change ((0 + _ : Nat) : Int) = size
    rw [Nat.zero_add]
    exact hsum

/-- A file that is loaded, with the numbers of items that its map states, is well formed. -/
theorem wellFormed_of_read (himage : ¬ NoImage file) (haddr : ∀ n, addr n % 2 ^ 32 = 0)
    {r : Option KImage} (h : KImage_Read_File (LOAD unload) addr file = .ok r)
    (hcounted : ∀ image, r = some image → Counted unload image) : WellFormed file unload := by
  obtain ⟨R, happend, hwf, hsame, hmaps⟩ := append_maps_ok (file_maps file) AtomTable_New
  have hwfR := hwf (koala.atomtable.wf_new ItemKind.unique)
  rw [KImage_Read_File_image himage] at h
  split at h
  · cases h
  · next hcount =>
    split at h
    · cases h
    · next hint =>
      rw [happend, ok_bind] at h
      obtain ⟨T, hread, heq⟩ := bind_eq_ok_iff.mp h
      cases heq
      obtain ⟨hwfT, -, hsamemaps, hlength, hreads⟩ := read_maps_ok hwfR hread
      have hsizes : ∀ type, type ≠ .ITEM_MAP → LOAD unload type = true →
          ∀ size ∈ stated type (file_maps file),
            ((((stated type (file_maps file)).map Int.toNat).sum : Nat) : Int) = size := by
        intro type hne hl size hsize
        have hstated := hcounted _ rfl type hl size
        rw [AtomTable_Size, hlength type hl, hsame type hne, hsamemaps, hmaps] at hstated
        change size ∈ stated type (file_maps file) → ((0 + _ : Nat) : Int) = size at hstated
        rw [Nat.zero_add] at hstated
        exact hstated hsize
      refine ⟨Nat.not_lt.mp hint, (map_count_iff file).mp hcount, fun map hmap => ?_,
        fun type hl => ?_⟩
      · obtain ⟨type, hne, hnumber, hitems⟩ := hreads map hmap
        refine ⟨type, hne, hnumber, fun hl => ?_⟩
        obtain ⟨items, m, hlies, hsize, hsub⟩ := hitems hl
        have hnonneg := ((sum_toNat_iff _).mp (hsizes type hne hl)).1 _ (mem_stated hmap hnumber)
        refine ⟨hnonneg, items, hlies, hsize, fun hunique => ?_⟩
        exact apart_of_copies haddr ((items_pairwise hwfT hunique).sublist hsub)
      · by_cases hne : type = .ITEM_MAP
        · have hnil : stated type (file_maps file) = [] := by
            refine List.map_eq_nil_iff.mpr (List.filter_eq_nil_iff.mpr fun map hmap => ?_)
            obtain ⟨kind, hkind, hnumber, -⟩ := hreads map hmap
            rw [hnumber, decide_eq_true_iff]
            exact fun heq => hkind ((Option.some.inj heq).trans hne)
          rw [hnil]
          exact List.Pairwise.nil
        · exact ((sum_toNat_iff _).mp (hsizes type hne hl)).2

/-- A file is handled exactly when it is no image, or one that is well formed. -/
theorem handled_iff (file : List UInt8) (unload : BitVec 32) :
    Handled file unload ↔ NoImage file ∨ WellFormed file unload := by
  by_cases himage : NoImage file
  · refine iff_of_true ⟨fun addr _ => ⟨none, KImage_Read_File_none himage, nofun⟩,
      fun _ addr => KImage_Read_File_none himage⟩ (Or.inl himage)
  · constructor
    · intro h
      have hinjective : Function.Injective fun n : Nat => n * 2 ^ 32 := fun m n hmn =>
        Nat.eq_of_mul_eq_mul_right (by decide) hmn
      obtain ⟨r, hread, hcounted⟩ := h.returns _ hinjective
      exact Or.inr (wellFormed_of_read himage (fun n => Nat.mul_mod_left n _) hread hcounted)
    · intro h
      refine ⟨fun addr haddr => ?_, fun hmagic => absurd (Or.inr (Or.inl hmagic)) himage⟩
      obtain ⟨image, hread, hcounted⟩ := (h.resolve_left himage).returns himage haddr
      refine ⟨some image, hread, ?_⟩
      rintro _ ⟨⟩
      exact hcounted

set_option maxRecDepth 4000 in
/-- The last byte of a file with two constants is missing. -/
theorem truncated_not_handled : ¬ Handled two_zeros.dropLast 0 := by
  intro h
  obtain ⟨r, hread, -⟩ := h.returns id Function.injective_id
  have herror : KImage_Read_File (LOAD 0) id two_zeros.dropLast = .error .assertion := rfl
  rw [herror] at hread
  cases hread

end handled

end koala.image
