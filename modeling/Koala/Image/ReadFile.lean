import Koala.Image.Described
import Koala.Image.Reload

open koala.atomtable koala.bytes

namespace koala.image

set_option linter.style.nameCheck false

/-- Loading the items that `T` has of a kind, unless it is not to be loaded. -/
def load_kind (load : ItemKind → Bool) (addr : Nat → Nat) (n : Nat) (T : Table) (type : ItemKind)
    (table : Table) : Res Table :=
  if load type then load_items addr type n (T.items type) table else .ok table

def load_kinds (load : ItemKind → Bool) (addr : Nat → Nat) (T : Table) :
    Nat → List ItemKind → Table → Res Table
  | _, [], table => .ok table
  | n, type :: kinds, table => do
    let table ← load_kind load addr n T type table
    load_kinds load addr T (n + (T.items type).length) kinds table

section load

variable {load : ItemKind → Bool} {addr : Nat → Nat} {T : Table}

theorem loaded_of_ne {R : Table} {type other : ItemKind} (items : List (ItemData type))
    (h : other ≠ type) : loaded R type items other = R.items other :=
  Function.update_of_ne h _ _

theorem loaded_self {R : Table} {type : ItemKind} (items : List (ItemData type)) :
    loaded R type items type = R.items type ++ items := Function.update_self _ _ _

/-- The kinds that are loaded get copies of the items, the others are left alone. -/
theorem load_kinds_ok {kinds : List ItemKind} {R R' : Table} (hnodup : kinds.Nodup)
    (hempty : ∀ type ∈ kinds, R.items type = []) (hwf : WF R) {n : Nat}
    (h : load_kinds load addr T n kinds R = .ok R') :
    WF R' ∧
      (∀ type ∈ kinds, load type = true →
        (∃ m, R'.items type = copies addr type m (T.items type)) ∧
          ∀ item ∈ T.items type, Readable type item) ∧
      ∀ type, type ∉ kinds ∨ load type = false → R'.items type = R.items type := by
  induction kinds generalizing R n with
  | nil =>
    cases h
    exact ⟨hwf, by simp, fun _ _ => rfl⟩
  | cons type kinds ih =>
    obtain ⟨hnot, hnodup'⟩ := List.nodup_cons.mp hnodup
    obtain ⟨R₁, hload, h⟩ := bind_eq_ok_iff.mp h
    have hne : ∀ other ∈ kinds, other ≠ type := by
      rintro other hother rfl
      exact hnot hother
    cases hl : load type with
    | true =>
      rw [load_kind, hl, if_pos rfl] at hload
      obtain ⟨hwf₁, hitems₁, hreadable⟩ := load_items_ok hwf hload
      obtain ⟨hwf', hloaded, hrest⟩ := ih hnodup' (fun other hother => by
        rw [hitems₁, loaded_of_ne _ (hne other hother)]
        exact hempty other (List.mem_cons_of_mem type hother)) hwf₁ h
      refine ⟨hwf', fun other hother hlother => ?_, fun other hother => ?_⟩
      · rcases List.mem_cons.mp hother with rfl | hother
        · rw [hrest other (Or.inl hnot), hitems₁, loaded_self,
            hempty other List.mem_cons_self, List.nil_append]
          exact ⟨⟨n, rfl⟩, hreadable⟩
        · exact hloaded other hother hlother
      · have hdiff : other ≠ type := by
          rintro rfl
          rcases hother with hother | hother
          · exact hother List.mem_cons_self
          · rw [hl] at hother
            cases hother
        rw [hrest other (hother.imp (fun hn hm => hn (List.mem_cons_of_mem type hm)) id),
          hitems₁, loaded_of_ne _ hdiff]
    | false =>
      rw [load_kind, hl, if_neg (by decide)] at hload
      cases hload
      obtain ⟨hwf', hloaded, hrest⟩ := ih hnodup'
        (fun other hother => hempty other (List.mem_cons_of_mem type hother)) hwf h
      refine ⟨hwf', fun other hother hlother => ?_, fun other hother => ?_⟩
      · rcases List.mem_cons.mp hother with rfl | hother
        · rw [hl] at hlother
          cases hlother
        · exact hloaded other hother hlother
      · by_cases heq : other = type
        · subst heq
          exact hrest other (Or.inr hl)
        · exact hrest other (hother.imp (fun hn hm => hn (List.mem_cons_of_mem type hm)) id)

/-- Kinds whose items are readable and differ from each other can be loaded. -/
theorem load_kinds_total {kinds : List ItemKind} {R : Table} (hnodup : kinds.Nodup)
    (hempty : ∀ type ∈ kinds, R.items type = []) (hwf : WF R)
    (hitems : ∀ type ∈ kinds, load type = true →
      (∀ item ∈ T.items type, Readable type item) ∧
        (type.unique = true → ∀ n, Differing type (copies addr type n (T.items type))))
    (n : Nat) : ∃ R', load_kinds load addr T n kinds R = .ok R' := by
  induction kinds generalizing R n with
  | nil => exact ⟨R, rfl⟩
  | cons type kinds ih =>
    obtain ⟨hnot, hnodup'⟩ := List.nodup_cons.mp hnodup
    have hrest := fun other hother => hitems other (List.mem_cons_of_mem type hother)
    rw [load_kinds, load_kind]
    cases hl : load type with
    | true =>
      obtain ⟨hreadable, hdiffer⟩ := hitems type List.mem_cons_self hl
      obtain ⟨R₁, hload⟩ := load_items_total hwf hreadable (n := n) (fun hunique => by
        rw [hempty type List.mem_cons_self, List.nil_append]
        exact hdiffer hunique n)
      obtain ⟨hwf₁, hitems₁, _⟩ := load_items_ok hwf hload
      rw [if_pos rfl, hload, ok_bind]
      refine ih hnodup' (fun other hother => ?_) hwf₁ hrest _
      have hne : other ≠ type := by
        rintro rfl
        exact hnot hother
      rw [hitems₁, loaded_of_ne _ hne]
      exact hempty other (List.mem_cons_of_mem type hother)
    | false =>
      rw [if_neg (by decide), ok_bind]
      exact ih hnodup' (fun other hother => hempty other (List.mem_cons_of_mem type hother)) hwf
        hrest _

end load

/-- The fields of a header are within the ranges of their types. -/
structure HeaderFits (h : ImageHeader) : Prop extends HeaderWF h where
  words : ∀ w ∈ [h.file_size, h.header_size, h.endian_tag, h.map_offset, h.map_size, h.crc32],
    w < 2 ^ 32

theorem header_read_write {h : ImageHeader} (hfits : HeaderFits h) :
    header_read (header_write h) = h := by
  have hversion : (h.magic ++ h.version).length = 8 := by
    rw [List.length_append, hfits.magic, hfits.version]
  have hfield : ∀ i w, [h.file_size, h.header_size, h.endian_tag, h.map_offset, h.map_size,
      h.crc32][i]? = some w → field (header_write h) (i + 2) = w := by
    intro i w hi
    have hdrop : (header_write h).drop (4 * (i + 2)) = (words [h.file_size, h.header_size,
        h.endian_tag, h.map_offset, h.map_size, h.crc32] ++ h.pkgname).drop (4 * i) := by
      rw [Nat.mul_add, Nat.add_comm, ← List.drop_drop, header_write, List.append_assoc,
        List.drop_left' hversion]
    have hword := field_words_append hfits.words h.pkgname hi
    rw [field] at hword ⊢
    rw [hdrop, hword]
  have hmagic : (header_write h).take 4 = h.magic := by
    rw [header_write, List.append_assoc, List.append_assoc]
    exact List.take_left' hfits.magic
  have htail : ((header_write h).drop 4).take 4 = h.version := by
    rw [header_write, List.append_assoc, List.append_assoc, List.drop_left' hfits.magic]
    exact List.take_left' hfits.version
  have hname : ((header_write h).drop 32).take PKG_NAME_MAX = h.pkgname := by
    have hlength : (h.magic ++ h.version ++ words [h.file_size, h.header_size, h.endian_tag,
        h.map_offset, h.map_size, h.crc32]).length = 32 := by
      rw [List.length_append, hversion, length_words]
      rfl
    rw [header_write, List.drop_left' hlength, ← hfits.pkgname, List.take_length]
  rw [header_read, hmagic, htail, hname, hfield 0 _ rfl, hfield 1 _ rfl, hfield 2 _ rfl,
    hfield 3 _ rfl, hfield 4 _ rfl, hfield 5 _ rfl]

/-- The maps of a new image. -/
theorem append_maps_ok (maps : List MapItem) (table : Table) :
    ∃ table', append_maps maps table = .ok table' ∧ (WF table → WF table') ∧
      SameItems table table' ∧ table'.items .ITEM_MAP = table.items .ITEM_MAP ++ maps := by
  induction maps generalizing table with
  | nil => exact ⟨table, rfl, id, fun _ _ => rfl, (List.append_nil _).symm⟩
  | cons map maps ih =>
    have happend : Append table .ITEM_MAP map = .ok ((AtomTable_Size table .ITEM_MAP : Int),
        ⟨table.table, appended table .ITEM_MAP map⟩) :=
      AtomTable_Append_not_unique table .ITEM_MAP map
    obtain ⟨table', hrest, hwf, hsame, hmaps⟩ := ih ⟨table.table, appended table .ITEM_MAP map⟩
    refine ⟨table', ?_, fun hT => hwf (hT.append happend), fun type htype => ?_, ?_⟩
    · rw [append_maps, happend, ok_bind]
      exact hrest
    · rw [hsame type htype]
      exact appended_of_ne table map htype
    · have hself : appended table .ITEM_MAP map .ITEM_MAP = table.items .ITEM_MAP ++ [map] :=
        appended_self table .ITEM_MAP map
      rw [hmaps]
      dsimp only
      rw [hself, List.append_assoc]
      rfl

section file

variable {image image' : KImage} {name : Option CString}

theorem length_finished_regions_le (image : KImage) :
    (finished_regions image).length ≤ ItemKind.all.length := by
  have hle : (used image.table ItemKind.all.tail).length ≤ ItemKind.all.tail.length :=
    List.length_filter_le _ _
  have hmap : (finished_regions image).length = (used image.table ItemKind.all.tail).length := by
    rw [← List.length_map Region.kind, finished_regions, map_kind_regions]
  rw [hmap]
  exact hle.trans (by decide)

theorem Finished.headerFits (hf : Finished image image')
    (hinit : image.header = init_header name) (hsize : fileSize image ≤ INT_MAX) :
    HeaderFits image'.header := by
  have hregions := length_finished_regions_le image
  rw [hf.header, hinit]
  refine ⟨?_, ?_⟩
  · have hwf := headerWF_init name
    exact ⟨hwf.magic, hwf.version, hwf.pkgname⟩
  · have hall : ItemKind.all.length = 16 := rfl
    have hmax : INT_MAX = 2 ^ 31 - 1 := rfl
    simp only [init_header, sizeofImageHeader, ENDIAN_TAG, List.forall_mem_cons]
    refine ⟨by omega, by omega, by omega, by omega, by omega, by omega, by simp⟩

/-- The read regions are those that were written. -/
theorem read_maps_write (load : ItemKind → Bool) (addr : Nat → Nat) (rs : List Region)
    (hfits : ∀ type, ∀ item ∈ image.table.items type, ItemFits type item)
    (hmap : ∀ r ∈ rs, r.kind ≠ .ITEM_MAP)
    (hwritten : ∀ r ∈ rs, ∃ pre post, r.extent.offset = pre.length ∧
      KImage_Write_File image = pre ++ (image_write_item image r.kind ++ post)) (n : Nat)
    (table : Table) :
    read_maps load addr (KImage_Write_File image) n (rs.map (Region.entry image.table)) table =
      load_kinds load addr image.table n (rs.map Region.kind) table := by
  induction rs generalizing n table with
  | nil => rfl
  | cons r rs ih =>
    obtain ⟨pre, post, hoffset, hfile⟩ := hwritten r List.mem_cons_self
    have hread : read_map load addr n (KImage_Write_File image) (Region.entry image.table r)
        table = load_kind load addr n image.table r.kind table := by
      rw [hfile, Region.entry, hoffset]
      exact read_map_write (hmap r List.mem_cons_self) (hfits r.kind) n table
    rw [List.map_cons, read_maps, hread, List.map_cons, load_kinds]
    refine bind_congr fun table' => ?_
    exact ih (fun s hs => hmap s (List.mem_cons_of_mem r hs))
      (fun s hs => hwritten s (List.mem_cons_of_mem r hs)) _ table'

theorem Finished.write_header (h : Unfinished image) (hf : Finished image image')
    (hheader : HeaderFits image'.header) :
    image_write_header image' = header_write image'.header := by
  have hsize : image'.header.header_size = (header_write image'.header).length := by
    rw [length_header_write hheader.toHeaderWF, hf.header]
    exact h.header_size
  rw [image_write_header, hsize, List.take_length]

theorem write_maps (image : KImage) : image_write_items image [.ITEM_MAP] =
    (image.table.items .ITEM_MAP).flatMap (item_write .ITEM_MAP) := by
  rw [image_write_items, image_write_items, List.append_nil]
  split
  · rfl
  · next hzero =>
    have hnil : image.table.items .ITEM_MAP = [] :=
      List.eq_nil_of_length_eq_zero (Nat.eq_zero_of_not_pos hzero)
    rw [hnil, List.flatMap_nil]

theorem chunks_maps (maps : List MapItem) (hfits : ∀ map ∈ maps, ItemFits .ITEM_MAP map)
    (htype : ∀ map ∈ maps, map.type < 2 ^ 16) :
    (chunks (ItemKind.sizeof .ITEM_MAP) maps.length
      (maps.flatMap (item_write .ITEM_MAP))).map mapitem_read = maps := by
  have hisize : ItemKind.isize .ITEM_MAP = none := rfl
  have hchunks := chunks_flatMap (length_words_of_isize hisize) maps []
  rw [List.append_nil] at hchunks
  rw [hchunks, List.map_map]
  refine (List.map_congr_left fun map hmap => ?_).trans (List.map_id maps)
  have hwrite : item_write .ITEM_MAP map = words (item_words .ITEM_MAP map) :=
    List.append_nil _
  rw [Function.comp_apply, hwrite, mapitem_read_write (hfits map hmap) (htype map hmap), id_eq]

/-- A file that starts with a header and its maps. -/
theorem KImage_Read_File_maps (load : ItemKind → Bool) (addr : Nat → Nat) (rest : List UInt8)
    {header : ImageHeader} {maps : List MapItem} {R : Table} (hheader : HeaderFits header)
    (hcheck : header_check header = 0) (hoffset : header.map_offset = sizeofImageHeader)
    (hsize : header.map_size = maps.length) (hfits : ∀ map ∈ maps, ItemFits .ITEM_MAP map)
    (htype : ∀ map ∈ maps, map.type < 2 ^ 16) (hcount : maps.length ≤ INT_MAX)
    (hmaps : append_maps maps AtomTable_New = .ok R) :
    KImage_Read_File load addr
        (header_write header ++ (maps.flatMap (item_write .ITEM_MAP) ++ rest)) = (do
      let table ← read_maps load addr
        (header_write header ++ (maps.flatMap (item_write .ITEM_MAP) ++ rest)) 0 maps R
      .ok (some ⟨header, table⟩)) := by
  have hlength := length_header_write hheader.toHeaderWF
  have hhead : fread sizeofImageHeader 1
      (header_write header ++ (maps.flatMap (item_write .ITEM_MAP) ++ rest)) =
      (1, header_write header, maps.flatMap (item_write .ITEM_MAP) ++ rest) :=
    fread_append (by decide) (by rw [hlength, Nat.one_mul]) _
  have hseek : fseek (header_write header ++ (maps.flatMap (item_write .ITEM_MAP) ++ rest))
      sizeofImageHeader = maps.flatMap (item_write .ITEM_MAP) ++ rest :=
    List.drop_left' hlength
  have hisize : ItemKind.isize .ITEM_MAP = none := rfl
  have hmapread : fread (ItemKind.sizeof .ITEM_MAP) maps.length
      (maps.flatMap (item_write .ITEM_MAP) ++ rest) =
      (maps.length, maps.flatMap (item_write .ITEM_MAP), rest) :=
    fread_append (by decide)
      (length_flatMap_of_length (length_words_of_isize hisize) maps) _
  have hnot : ¬ (1 : Nat) < 1 := by decide
  have hpass : ¬ (0 : Int) < 0 := by decide
  unfold KImage_Read_File
  simp only [hhead, header_read_write hheader, hcheck, hoffset, hseek, hsize, hmapread,
    if_neg hnot, if_neg hpass, if_neg (Int.lt_irrefl _), if_neg (Nat.lt_irrefl maps.length),
    if_neg (Nat.not_lt.mpr hcount), chunks_maps maps hfits htype]
  rw [KImage_New, hmaps]
  rfl

/-- Reading a written file: the header, the map, and the items of every region. -/
theorem Finished.read (h : Unfinished image) (hf : Finished image image')
    (hinit : image.header = init_header name) (hsize : fileSize image ≤ INT_MAX)
    (hfits : ∀ type, ∀ item ∈ image'.table.items type, ItemFits type item) :
    ∃ R, WF R ∧ (∀ type, type ≠ .ITEM_MAP → R.items type = []) ∧
      R.items .ITEM_MAP = image'.table.items .ITEM_MAP ∧
      ∀ load addr, KImage_Read_File load addr (KImage_Write_File image') = (do
        let table ← load_kinds load addr image'.table 0
          ((finished_regions image).map Region.kind) R
        .ok (some ⟨image'.header, table⟩)) := by
  have hdescribed := hf.described h
  have hheader := hf.headerFits hinit hsize
  have hcheck : header_check image'.header = 0 := by
    rw [hf.header, hinit]
    rfl
  have hoffset : image'.header.map_offset = sizeofImageHeader := by
    rw [hf.header, hinit]
    rfl
  have hcount : image'.header.map_size = (image'.table.items .ITEM_MAP).length := by
    rw [hdescribed.map_size, hdescribed.entries, List.length_map]
  have htype : ∀ map ∈ image'.table.items .ITEM_MAP, map.type < 2 ^ 16 := by
    intro map hmap
    rw [hdescribed.entries] at hmap
    obtain ⟨r, _, rfl⟩ := List.mem_map.mp hmap
    exact r.kind.number_lt.trans (by decide)
  have hlength : (image'.table.items .ITEM_MAP).length ≤ INT_MAX := by
    rw [hdescribed.entries, List.length_map]
    exact (length_finished_regions_le image).trans (by decide)
  obtain ⟨R, hmaps, hwf, hsame, hitems⟩ :=
    append_maps_ok (image'.table.items .ITEM_MAP) AtomTable_New
  have hfile : KImage_Write_File image' = header_write image'.header ++
      ((image'.table.items .ITEM_MAP).flatMap (item_write .ITEM_MAP) ++
        image_write_items image' ItemKind.all.tail) := by
    rw [KImage_Write_File, hf.write_header h hheader, ← write_maps, ← image_write_items_append]
    rfl
  refine ⟨R, hwf (koala.atomtable.wf_new ItemKind.unique), hsame, by rw [hitems]; rfl,
    fun load addr => ?_⟩
  have hread := KImage_Read_File_maps load addr (image_write_items image' ItemKind.all.tail)
    hheader hcheck hoffset hcount (hfits .ITEM_MAP) htype hlength hmaps
  rw [← hfile] at hread
  have hregions := read_maps_write load addr (finished_regions image) hfits (fun r hr => ?_)
    (fun r hr => ?_) 0 R
  · rw [← hdescribed.entries] at hregions
    rw [hread, hregions]
  · have hkind : r.kind ∈ (finished_regions image).map Region.kind := List.mem_map_of_mem hr
    rw [hdescribed.kinds] at hkind
    rintro heq
    rw [heq] at hkind
    exact absurd (List.mem_of_mem_filter hkind) (by decide)
  · obtain ⟨pre, post, _, hroffset, hwritten⟩ := hdescribed.written r hr
    rw [List.append_assoc] at hwritten
    exact ⟨_, _, hroffset, hwritten⟩

end file

end koala.image
