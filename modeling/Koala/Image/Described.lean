import Koala.Image.Finish
import Koala.Image.Adds

open koala.atomtable koala.bytes koala.tiling koala.typedesc

namespace koala.image

set_option linter.style.nameCheck false

/-- The map of an image describes the bytes of its file by these regions. -/
structure Described (image : KImage) (regions : List Region) : Prop where
  kinds : regions.map Region.kind =
    ItemKind.all.tail.filter fun type => 0 < AtomTable_Size image.table type
  increasing : regions.Pairwise fun r s => r.kind.number < s.kind.number
  entries : image.table.items .ITEM_MAP = regions.map (Region.entry image.table)
  length : ∀ r ∈ regions,
    r.extent.length = ((image.table.items r.kind).map (item_length r.kind)).sum
  /-- What is written before the first item of the region ends at its offset. -/
  written : ∀ r ∈ regions, ∃ pre post, ItemKind.all = pre ++ r.kind :: post ∧
    r.extent.offset = (image_write_header image ++ image_write_items image pre).length ∧
    KImage_Write_File image = image_write_header image ++ image_write_items image pre ++
      image_write_item image r.kind ++ image_write_items image post
  contiguous : Tiles (image_write_header image ++ image_write_items image [.ITEM_MAP]).length
    (regions.map Region.extent) image.header.file_size
  disjoint : regions.Pairwise fun r s => r.extent.offset + r.extent.length ≤ s.extent.offset
  map_size : image.header.map_size = regions.length
  file_size : image.header.file_size = (KImage_Write_File image).length

section written

variable {image : KImage}

theorem length_image_write_item (image : KImage) (type : ItemKind) :
    (image_write_item image type).length = region_length image.table type := by
  unfold image_write_item region_length
  induction image.table.items type with
  | nil => rfl
  | cons item items ih =>
    rw [List.flatMap_cons, List.length_append, ih, length_item_write, List.map_cons,
      List.sum_cons]

theorem image_write_items_append (image : KImage) (pre post : List ItemKind) :
    image_write_items image (pre ++ post) =
      image_write_items image pre ++ image_write_items image post := by
  induction pre with
  | nil => rfl
  | cons type pre ih =>
    rw [List.cons_append, image_write_items, image_write_items, ih, List.append_assoc]

theorem image_write_items_cons {type : ItemKind} (h : 0 < AtomTable_Size image.table type)
    (kinds : List ItemKind) : image_write_items image (type :: kinds) =
      image_write_item image type ++ image_write_items image kinds := by
  rw [image_write_items, if_pos h]

theorem length_image_write_items (image : KImage) (kinds : List ItemKind) :
    (image_write_items image kinds).length = total image.table kinds := by
  induction kinds with
  | nil => rfl
  | cons type kinds ih =>
    rw [image_write_items, List.length_append, ih, total, total]
    by_cases h : 0 < AtomTable_Size image.table type
    · rw [if_pos h, used_cons_pos h, List.map_cons, List.sum_cons, length_image_write_item]
    · rw [if_neg h, used_cons_neg h, List.length_nil, Nat.zero_add]

/-- A region starts where the kinds before its own have been written. -/
theorem offset_of_mem_regions {start : Nat} {kinds : List ItemKind} :
    ∀ r ∈ regions image.table start (used image.table kinds), ∃ pre post,
      kinds = pre ++ r.kind :: post ∧ 0 < AtomTable_Size image.table r.kind ∧
      r.extent.offset = start + (image_write_items image pre).length := by
  induction kinds generalizing start with
  | nil => exact fun r hr => nomatch hr
  | cons type kinds ih =>
    intro r hr
    by_cases hpos : 0 < AtomTable_Size image.table type
    · rw [used_cons_pos hpos] at hr
      rcases List.mem_cons.mp hr with rfl | hr
      · exact ⟨[], kinds, rfl, hpos, rfl⟩
      · obtain ⟨pre, post, hkinds, hr, hoffset⟩ := ih r hr
        refine ⟨type :: pre, post, by rw [hkinds, List.cons_append], hr, ?_⟩
        rw [hoffset, image_write_items_cons hpos, List.length_append, length_image_write_item,
          Nat.add_assoc]
    · rw [used_cons_neg hpos] at hr
      obtain ⟨pre, post, hkinds, hr, hoffset⟩ := ih r hr
      refine ⟨type :: pre, post, by rw [hkinds, List.cons_append], hr, ?_⟩
      rw [hoffset, image_write_items, if_neg hpos, List.nil_append]

end written

theorem regions_congr {T table : Table} (h : SameItems T table) {kinds : List ItemKind}
    (hkinds : .ITEM_MAP ∉ kinds) (start : Nat) :
    regions T start kinds = regions table start kinds ∧
      ∀ r ∈ regions T start kinds, Region.entry T r = Region.entry table r := by
  induction kinds generalizing start with
  | nil => exact ⟨rfl, nofun⟩
  | cons type kinds ih =>
    obtain ⟨hne, hrest⟩ := List.ne_and_not_mem_of_not_mem_cons hkinds
    have hlength : region_length table type = region_length T type := by
      rw [region_length, region_length, h type hne.symm]
    obtain ⟨heq, hentry⟩ := ih hrest (start + region_length T type)
    refine ⟨by rw [regions, regions, heq, hlength], fun r hr => ?_⟩
    rcases List.mem_cons.mp hr with rfl | hr
    · rw [Region.entry, Region.entry, h.size_eq hne.symm]
    · exact hentry r hr

theorem used_congr {T table : Table} (h : SameItems T table) {kinds : List ItemKind}
    (hkinds : .ITEM_MAP ∉ kinds) : used T kinds = used table kinds := by
  refine List.filter_congr fun type htype => ?_
  have hne : type ≠ .ITEM_MAP := fun heq => hkinds (heq ▸ htype)
  rw [h.size_eq hne]

theorem all_tail_increasing : ItemKind.all.tail.Pairwise fun i j => i.number < j.number := by
  decide

/-- An image that can be finished: its header is as `KImage_New` leaves it and
it has no map yet. -/
structure Unfinished (image : KImage) : Prop where
  header : HeaderWF image.header
  header_size : image.header.header_size = sizeofImageHeader
  nomap : image.table.items .ITEM_MAP = []

/-- The end of the map of an image that is not finished yet. -/
def map_end (image : KImage) : Nat :=
  sizeofImageHeader + ItemKind.sizeof .ITEM_MAP * (used image.table ItemKind.all.tail).length

/-- The size of the file of an image that is not finished yet. -/
def fileSize (image : KImage) : Nat := map_end image + total image.table ItemKind.all.tail

theorem Unfinished.map_space_eq {image : KImage} (h : Unfinished image) :
    map_space image.table ItemKind.all.tail image.header.header_size = map_end image := by
  rw [koala.image.map_space_eq, h.header_size]
  rfl

/-- `KImage_Finish` overflows exactly when the file does not fit an `int`. -/
theorem Unfinished.finish_iff {image : KImage} (h : Unfinished image) :
    (∃ image', KImage_Finish image = .ok image') ↔ fileSize image ≤ INT_MAX := by
  unfold KImage_Finish
  dsimp only
  rw [h.map_space_eq]
  constructor
  · rintro ⟨image', hfinish⟩
    obtain ⟨⟨table, offset, length⟩, hloop, hfinish⟩ := bind_eq_ok_iff.mp hfinish
    obtain ⟨file_size, hsize, hfinish⟩ := bind_eq_ok_iff.mp hfinish
    obtain ⟨hle, _⟩ := addInt_eq_ok_iff.mp hsize
    obtain ⟨_, _, hend⟩ := finish_loop_ok (by decide) (fun _ _ => rfl) hloop
    rw [hend] at hle
    exact hle
  · intro hle
    have hnomap : .ITEM_MAP ∉ ItemKind.all.tail := by decide
    obtain ⟨⟨table, offset, length⟩, hloop⟩ := @finish_loop_total image.table _ hnomap image.table
      (map_end image) 0 (fun _ _ => rfl) hle
    obtain ⟨_, _, hend⟩ := finish_loop_ok hnomap (fun _ _ => rfl) hloop
    have hsize : addInt offset length = .ok (offset + length) :=
      addInt_eq_ok_iff.mpr ⟨hend ▸ hle, rfl⟩
    rw [hloop, ok_bind, hsize]
    exact ⟨_, rfl⟩

/-- The regions that `KImage_Finish` enters in the map. -/
def finished_regions (image : KImage) : List Region :=
  regions image.table (map_end image) (used image.table ItemKind.all.tail)

/-- What `KImage_Finish` leaves behind. -/
structure Finished (image image' : KImage) : Prop where
  same : SameItems image.table image'.table
  entries : image'.table.items .ITEM_MAP =
    (finished_regions image).map (Region.entry image.table)
  header : image'.header = { image.header with
    file_size := fileSize image, map_size := (finished_regions image).length }

theorem Unfinished.finish_ok {image image' : KImage} (h : Unfinished image)
    (hfinish : KImage_Finish image = .ok image') : Finished image image' := by
  unfold KImage_Finish at hfinish
  dsimp only at hfinish
  rw [h.map_space_eq] at hfinish
  obtain ⟨⟨table, offset, length⟩, hloop, hfinish⟩ := bind_eq_ok_iff.mp hfinish
  obtain ⟨file_size, hsize, hfinish⟩ := bind_eq_ok_iff.mp hfinish
  cases hfinish
  obtain ⟨_, rfl⟩ := addInt_eq_ok_iff.mp hsize
  obtain ⟨hsame, hentries, hend⟩ := finish_loop_ok (by decide) (fun _ _ => rfl) hloop
  rw [h.nomap, List.nil_append] at hentries
  refine ⟨hsame, hentries, ?_⟩
  dsimp only
  rw [hend, AtomTable_Size, hentries, List.length_map]
  rfl

section finished

variable {image image' : KImage}

theorem Finished.length_header (h : Unfinished image) (hf : Finished image image') :
    (image_write_header image').length = sizeofImageHeader := by
  have hwf : HeaderWF image'.header := by
    rw [hf.header]
    exact ⟨h.header.magic, h.header.version, h.header.pkgname⟩
  have hsize : image'.header.header_size = sizeofImageHeader := by
    rw [hf.header]
    exact h.header_size
  rw [image_write_header, List.length_take, length_header_write hwf, hsize, Nat.min_self]

theorem region_length_map (table : Table) : region_length table .ITEM_MAP =
    ItemKind.sizeof .ITEM_MAP * AtomTable_Size table .ITEM_MAP := by
  unfold region_length AtomTable_Size
  induction table.items .ITEM_MAP with
  | nil => rfl
  | cons item items ih =>
    rw [List.map_cons, List.sum_cons, ih, List.length_cons, Nat.mul_succ, Nat.add_comm]
    rfl

theorem total_map (table : Table) : total table [.ITEM_MAP] =
    ItemKind.sizeof .ITEM_MAP * AtomTable_Size table .ITEM_MAP := by
  by_cases h : 0 < AtomTable_Size table .ITEM_MAP
  · rw [total, used_cons_pos h, List.map_cons, List.sum_cons, region_length_map]
    rfl
  · rw [total, used_cons_neg h, Nat.eq_zero_of_not_pos h]
    rfl

theorem Finished.size_map (hf : Finished image image') :
    AtomTable_Size image'.table .ITEM_MAP = (finished_regions image).length := by
  rw [AtomTable_Size, hf.entries, List.length_map]

/-- The header and the map end where the regions start. -/
theorem Finished.length_map (h : Unfinished image) (hf : Finished image image') :
    (image_write_header image' ++ image_write_items image' [.ITEM_MAP]).length =
      map_end image := by
  have hlength : (finished_regions image).length =
      (used image.table ItemKind.all.tail).length := by
    rw [← List.length_map Region.kind, finished_regions, map_kind_regions]
  rw [List.length_append, hf.length_header h, length_image_write_items, total_map, hf.size_map,
    hlength, map_end]

theorem total_congr {T table : Table} (h : SameItems T table) {kinds : List ItemKind}
    (hkinds : .ITEM_MAP ∉ kinds) : total T kinds = total table kinds := by
  rw [total, total, used_congr h hkinds]
  refine congrArg List.sum (List.map_congr_left fun type htype => ?_)
  have hne : type ≠ .ITEM_MAP := fun heq => hkinds (heq ▸ List.mem_of_mem_filter htype)
  rw [region_length, region_length, h type hne]

/-- The map of a finished image describes the bytes of its file. -/
theorem Finished.described (h : Unfinished image) (hf : Finished image image') :
    Described image' (finished_regions image) := by
  have hnomap : .ITEM_MAP ∉ ItemKind.all.tail := by decide
  have hused := used_congr hf.same hnomap
  have hnoused : .ITEM_MAP ∉ used image.table ItemKind.all.tail :=
    fun hmem => hnomap (List.mem_of_mem_filter hmem)
  obtain ⟨hregions, hentry⟩ := regions_congr hf.same hnoused (map_end image)
  have hregions' : finished_regions image =
      regions image'.table (map_end image) (used image'.table ItemKind.all.tail) := by
    rw [finished_regions, hregions, hused]
  have hstart := hf.length_map h
  have hsize : image'.header.file_size = fileSize image := by rw [hf.header]
  have htiles : Tiles (map_end image) ((finished_regions image).map Region.extent)
      (fileSize image) := by
    rw [finished_regions, map_extent_regions]
    exact tiles_layout _ _
  have hkinds : (finished_regions image).map Region.kind =
      used image'.table ItemKind.all.tail := by
    rw [finished_regions, map_kind_regions, hused]
  have hall : image_write_items image' ItemKind.all =
      image_write_items image' [.ITEM_MAP] ++ image_write_items image' ItemKind.all.tail :=
    image_write_items_append image' [.ITEM_MAP] ItemKind.all.tail
  refine ⟨hkinds, ?_, ?_, ?_, ?_, ?_, ?_, ?_, ?_⟩
  · rw [← List.pairwise_map (f := Region.kind) (R := fun i j => i.number < j.number), hkinds]
    exact all_tail_increasing.filter _
  · rw [hf.entries]
    exact List.map_congr_left hentry
  · intro r hr
    rw [hregions'] at hr
    exact length_of_mem_regions r hr
  · intro r hr
    rw [hregions'] at hr
    obtain ⟨pre, post, hsplit, hpos, hoffset⟩ := offset_of_mem_regions r hr
    have hfile : ItemKind.all = (.ITEM_MAP :: pre) ++ r.kind :: post := by
      rw [List.cons_append, ← hsplit]
      rfl
    refine ⟨.ITEM_MAP :: pre, post, hfile, ?_, ?_⟩
    · rw [hoffset, ← hstart, List.length_append, List.length_append, Nat.add_assoc,
        ← List.length_append, ← image_write_items_append]
      rfl
    · rw [KImage_Write_File, hfile, image_write_items_append, image_write_items_cons hpos,
        List.append_assoc, List.append_assoc]
  · rw [hstart, hsize]
    exact htiles
  · have hdisjoint := htiles.pairwise
    rwa [List.pairwise_map] at hdisjoint
  · rw [hf.header]
  · rw [hsize, KImage_Write_File, hall, ← List.append_assoc, List.length_append, hstart,
      length_image_write_items, ← total_congr hf.same hnomap, fileSize]

end finished

/-- No call of `KImage_Add_*` touches the header or the map. -/
theorem KImage.run_unfinished {mem : Memory} {name : Option CString} {adds : List Add}
    {image : KImage} (h : KImage.run mem 0 (KImage_New name) adds = .ok image) :
    Unfinished image := by
  obtain ⟨hheader, new, hrecords, hplaces⟩ := KImage.run_ok sound_new h
  refine ⟨?_, ?_, ?_⟩
  · rw [hheader]
    exact headerWF_init name
  · rw [hheader]
    rfl
  · rw [hplaces.items .ITEM_MAP rfl,
      records_filterMap_eq_nil hrecords fun a _ => a.map_not_mem_kinds]
    rfl

end koala.image
