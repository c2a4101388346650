import Koala.Image.Batches
import Koala.Image.Getters

open koala.atomtable koala.bytes

namespace koala.image

set_option linter.style.nameCheck false

/-- Whether `KImage_Read_File` loads a kind: the kinds that it does not load are
the bits of `unload`. -/
def LOAD (unload : BitVec 32) (item : ItemKind) : Bool := !unload.getLsbD item.number

def NOT_LOAD_ITEMS : BitVec 32 :=
  (1#32 <<< ItemKind.ITEM_CODE.number) ||| (1#32 <<< ItemKind.ITEM_LOCVAR.number) |||
    (1#32 <<< ItemKind.ITEM_CONST.number)

/-- The header that a file starts with. -/
def file_header (file : List UInt8) : ImageHeader :=
  header_read (fread sizeofImageHeader 1 file).2.1

/-- The map of a file. -/
def file_maps (file : List UInt8) : List MapItem :=
  let header := file_header file
  let (_, data, _) := fread (ItemKind.sizeof .ITEM_MAP) header.map_size
    (fseek file header.map_offset)
  (chunks (ItemKind.sizeof .ITEM_MAP) header.map_size data).map mapitem_read

/-- The constants of a file, in the order of its map. -/
def file_consts (file : List UInt8) : List ConstVal :=
  match (file_maps file).mapM (map_items file) with
  | .ok batches => batches.flatMap fun b => (b.of .ITEM_CONST).map ConstItem.val
  | .error _ => []

/-- The items of the kinds that are loaded are those of the whole image, those
of the others are missing. -/
structure SameLoaded (unload : BitVec 32) (image image' : KImage) : Prop where
  header : image'.header = image.header
  loaded : ∀ type, LOAD unload type = true →
    contents image'.table type = contents image.table type
  masked : ∀ type, LOAD unload type = false → image'.table.items type = []

/-- Loading a file without the kinds of `unload` gives a part of its image. -/
def LoadsPart (file : List UInt8) (image : KImage) (unload : BitVec 32) : Prop :=
  ∀ addr : Nat → Nat, Function.Injective addr → ∃ image',
    KImage_Read_File (LOAD unload) addr file = .ok (some image') ∧
      SameLoaded unload image image' ∧ (unload = NOT_LOAD_ITEMS → SameReports image image')

theorem LOAD_zero (type : ItemKind) : LOAD 0 type = true := by
  cases type <;> decide

section copies

variable {addr : Nat → Nat} {type : ItemKind}

theorem copies_append (n : Nat) (items items' : List (ItemData type)) :
    copies addr type n (items ++ items') =
      copies addr type n items ++ copies addr type (n + items.length) items' := by
  induction items generalizing n with
  | nil => rfl
  | cons item items ih =>
    rw [List.cons_append, copies, copies, ih, List.length_cons, List.cons_append,
      Nat.add_right_comm, Nat.add_assoc n items.length 1]

theorem copies_congr {addr' : Nat → Nat} {items : List (ItemData type)} {n m : Nat}
    (h : ∀ i < items.length, addr (n + i) = addr' (m + i)) :
    copies addr type n items = copies addr' type m items := by
  induction items generalizing n m with
  | nil => rfl
  | cons item items ih =>
    have hhead : addr n = addr' m := h 0 (Nat.succ_pos _)
    rw [copies, copies, hhead]
    congr 1
    refine ih fun i hi => ?_
    have hnext := h (i + 1) (Nat.succ_lt_succ hi)
    rw [Nat.add_right_comm n 1 i, Nat.add_right_comm m 1 i]
    exact hnext

theorem copies_copies (addr' : Nat → Nat) (n m : Nat) (items : List (ItemData type)) :
    copies addr type n (copies addr' type m items) = copies addr type n items := by
  induction items generalizing n m with
  | nil => rfl
  | cons item items ih => rw [copies, copies, copies, readdress_readdress, ih]

theorem Batch.length_of_le (b : Batch) (type : ItemKind) : (b.of type).length ≤ b.items.length := by
  by_cases htype : b.kind = type
  · subst htype
    rw [Batch.of_self]
  · rw [Batch.of_ne htype]
    exact Nat.zero_le _

/-- The copies of a kind are those of one list of items, at places that come one
behind the other. -/
theorem exists_places (type : ItemKind) (n : Nat) (bs : List Batch) :
    ∃ place : Nat → Nat, StrictMono place ∧ (∀ i, n ≤ place i) ∧ ∀ addr,
      batch_copies addr type n bs =
        copies (addr ∘ place) type 0 (bs.flatMap fun b => b.of type) := by
  induction bs generalizing n with
  | nil =>
    exact ⟨fun i => n + i, fun i j hij => Nat.add_lt_add_left hij n, Nat.le_add_right n,
      fun addr => rfl⟩
  | cons b bs ih =>
    obtain ⟨place, hmono, hle, hcopies⟩ := ih (n + b.items.length)
    have hlength := b.length_of_le type
    refine ⟨fun i => if i < (b.of type).length then n + i else place (i - (b.of type).length),
      fun i j hij => ?_, fun i => ?_, fun addr => ?_⟩
    · dsimp only
      split
      · next hi =>
        split
        · omega
        · have hj := hle (j - (b.of type).length)
          omega
      · next hi =>
        rw [if_neg (by omega)]
        exact hmono (by omega)
    · dsimp only
      split
      · omega
      · have hi := hle (i - (b.of type).length)
        omega
    · rw [batch_copies, hcopies, List.flatMap_cons, copies_append]
      congr 1
      · refine copies_congr fun i hi => ?_
        rw [Function.comp_apply, Nat.zero_add, if_pos hi]
      · refine copies_congr fun i _ => ?_
        rw [Function.comp_apply, Function.comp_apply, Nat.zero_add, Nat.zero_add,
          if_neg (by omega), Nat.add_sub_cancel_left]

end copies

section load

variable {addr : Nat → Nat} {file : List UInt8} {image image' : KImage} {unload : BitVec 32}

/-- A file that can be read starts with a header and its map, whatever is loaded. -/
theorem KImage_Read_File_maps_of_ok {load : ItemKind → Bool}
    (h : KImage_Read_File load addr file = .ok (some image)) :
    ∃ R, WF R ∧ (∀ type, type ≠ .ITEM_MAP → R.items type = []) ∧
      R.items .ITEM_MAP = file_maps file ∧
      ∀ load addr, KImage_Read_File load addr file = (do
        let table ← read_maps load addr file 0 (file_maps file) R
        .ok (some ⟨file_header file, table⟩)) := by
  obtain ⟨R, happend, hwf, hsame, hmaps⟩ := append_maps_ok (file_maps file) AtomTable_New
  refine ⟨R, hwf (koala.atomtable.wf_new ItemKind.unique), hsame, by rw [hmaps]; rfl,
    fun load' addr' => ?_⟩
  unfold KImage_Read_File at h ⊢
  dsimp only at h ⊢
  split at h
  · cases h
  · next hsz =>
    rw [if_neg hsz]
    split at h
    · cases h
    · next hcheck =>
      rw [if_neg hcheck]
      split at h
      · cases h
      · next hmapsz =>
        rw [if_neg hmapsz]
        split at h
        · cases h
        · next hcount =>
          rw [if_neg hcount]
          split at h
          · cases h
          · next hint =>
            rw [if_neg hint]
            change (append_maps (file_maps file) AtomTable_New >>= _) = _
            rw [happend, ok_bind]
            rfl

/-- A file that was loaded whole, batch by batch. -/
structure LoadedWhole (file : List UInt8) (image : KImage) (R : Table) (bs : List Batch) :
    Prop where
  wf : WF image.table
  start : WF R
  empty : ∀ type, type ≠ .ITEM_MAP → R.items type = []
  maps : R.items .ITEM_MAP = file_maps file
  header : image.header = file_header file
  read : ∀ load addr, KImage_Read_File load addr file = (do
    let table ← load_batches load addr 0 bs R
    .ok (some ⟨file_header file, table⟩))
  readable : ∀ b ∈ bs, ∀ item ∈ b.items, Readable b.kind item
  batches : (file_maps file).mapM (map_items file) = .ok bs
  items : ∃ addr, Function.Injective addr ∧
    ∀ type, image.table.items type = R.items type ++ batch_copies addr type 0 bs

theorem loadedWhole (haddr : Function.Injective addr)
    (hfull : KImage_Read_File (LOAD 0) addr file = .ok (some image)) :
    ∃ R bs, LoadedWhole file image R bs := by
  obtain ⟨R, hwf, hempty, hmaps, hread⟩ := KImage_Read_File_maps_of_ok hfull
  rw [hread] at hfull
  obtain ⟨T, hload, heq⟩ := bind_eq_ok_iff.mp hfull
  obtain ⟨bs, hbs, hlength⟩ := batches_of_read LOAD_zero hload
  rw [read_maps_eq hbs hlength] at hload
  obtain ⟨hwf', hitems, hreadable⟩ := load_batches_ok hwf hload
  cases heq
  refine ⟨R, bs, hwf', hwf, hempty, hmaps, rfl, fun load addr' => ?_,
    fun b hb => hreadable b hb (LOAD_zero b.kind), hbs, addr, haddr, fun type => ?_⟩
  · rw [hread, read_maps_eq hbs hlength]
  · rw [hitems, LOAD_zero, if_pos rfl]

section whole

variable {R T : Table} {bs : List Batch} (h : LoadedWhole file image R bs)
include h

theorem LoadedWhole.consts : file_consts file =
    (bs.flatMap fun b => b.of .ITEM_CONST).map ConstItem.val := by
  rw [file_consts, h.batches, List.map_flatMap]

/-- Batches of the file can be loaded when the floats that are loaded differ. -/
theorem LoadedWhole.total (haddr : Function.Injective addr)
    (hconst : LOAD unload .ITEM_CONST = false ∨ (file_consts file).Pairwise FloatsDiffer) :
    ∃ T, load_batches (LOAD unload) addr 0 bs R = .ok T := by
  refine load_batches_total h.start (fun b hb _ => h.readable b hb) fun type hl hunique => ?_
  have hmap : type ≠ .ITEM_MAP := by
    rintro rfl
    cases hunique
  obtain ⟨place, hmono, -, hcopies⟩ := exists_places type 0 bs
  obtain ⟨addr₀, haddr₀, hitems⟩ := h.items
  have htype := hitems type
  rw [h.empty type hmap, List.nil_append, hcopies] at htype
  rw [h.empty type hmap, List.nil_append, hcopies]
  by_cases hkind : type = .ITEM_CONST
  · subst hkind
    have hfloats := hconst.resolve_left fun hfalse => by
      rw [hl] at hfalse
      cases hfalse
    rw [h.consts, List.pairwise_map] at hfloats
    rw [← copies_copies (addr₀ ∘ place) 0 0, ← htype]
    refine differing_consts h.wf (haddr.comp hmono.injective) ?_ 0
    rw [htype]
    exact pairwise_copies (fun _ _ _ _ _ hxy => hxy) hfloats
  · rw [copies_of_ne hkind] at htype ⊢
    rw [← htype]
    exact differing_items h.wf hunique hkind

/-- What is loaded of the file. -/
theorem LoadedWhole.sameLoaded (hload : load_batches (LOAD unload) addr 0 bs R = .ok T)
    (hmaps : LOAD unload .ITEM_MAP = true ∨ file_maps file = []) :
    SameLoaded unload image ⟨file_header file, T⟩ := by
  obtain ⟨-, hitems, -⟩ := load_batches_ok h.start hload
  refine ⟨h.header.symm, fun type hl => ?_, fun type hl => ?_⟩
  · obtain ⟨place, -, -, hcopies⟩ := exists_places type 0 bs
    obtain ⟨addr₀, -, hitems₀⟩ := h.items
    rw [contents, contents, hitems, hitems₀, hl, if_pos rfl, hcopies, hcopies, List.map_append,
      List.map_append, map_readdress_copies, map_readdress_copies]
  · have hmasked := hitems type
    rw [hl, if_neg (by decide), List.append_nil] at hmasked
    rw [hmasked]
    by_cases hmap : type = .ITEM_MAP
    · subst hmap
      rw [h.maps]
      refine hmaps.resolve_left fun htrue => ?_
      rw [hl] at htrue
      cases htrue
    · exact h.empty type hmap

theorem LoadedWhole.of_loadsPart (hpart : LoadsPart file image unload) :
    (LOAD unload .ITEM_MAP = true ∨ file_maps file = []) ∧
      (LOAD unload .ITEM_CONST = false ∨ (file_consts file).Pairwise FloatsDiffer) := by
  have hinjective : Function.Injective fun n : Nat => n * 2 ^ 32 := fun m n hmn =>
    Nat.eq_of_mul_eq_mul_right (by decide) hmn
  obtain ⟨image', hread, hsame, -⟩ := hpart _ hinjective
  rw [h.read] at hread
  obtain ⟨T, hload, heq⟩ := bind_eq_ok_iff.mp hread
  cases heq
  obtain ⟨hwf, hitems, -⟩ := load_batches_ok h.start hload
  constructor
  · cases hl : LOAD unload .ITEM_MAP with
    | true => exact Or.inl rfl
    | false =>
      have hmasked := hitems .ITEM_MAP
      rw [hl, if_neg (by decide), List.append_nil, h.maps] at hmasked
      exact Or.inr (hmasked.symm.trans (hsame.masked .ITEM_MAP hl))
  · cases hl : LOAD unload .ITEM_CONST with
    | false => exact Or.inl rfl
    | true =>
      obtain ⟨place, -, -, hcopies⟩ := exists_places .ITEM_CONST 0 bs
      have hconsts := hitems .ITEM_CONST
      rw [hl, if_pos rfl, h.empty _ (by decide), List.nil_append, hcopies] at hconsts
      have hfloats := floats_differ hwf (fun n => Nat.mul_mod_left (place n) _) hconsts
      rw [h.consts, List.pairwise_map]
      exact Or.inr hfloats

end whole

/-- The tables that the getters read are loaded without `NOT_LOAD_ITEMS`. -/
theorem SameLoaded.sameRead (h : SameLoaded NOT_LOAD_ITEMS image image') :
    SameRead image.table image'.table := by
  have hitems : ∀ type, LOAD NOT_LOAD_ITEMS type = true → type ≠ .ITEM_CONST →
      image'.table.items type = image.table.items type := by
    intro type hl hkind
    have hcontents := h.loaded type hl
    rw [contents, contents] at hcontents
    have hid : readdress 0 type = id := by
      funext item
      cases type with
      | ITEM_CONST => exact absurd rfl hkind
      | _ => rfl
    rwa [hid, List.map_id, List.map_id] at hcontents
  refine ⟨⟨?_, ?_, ?_, ?_⟩, ?_, ?_, ?_⟩ <;> exact hitems _ (by decide) (by decide)

end load

/-- For every file that is loaded whole: it is loaded without some kinds, and
what is loaded is the same, exactly when its map is loaded or empty and its
constants are not loaded or have no two equal floats. -/
theorem loadsPart_iff {addr : Nat → Nat} {file : List UInt8} {image : KImage}
    (haddr : Function.Injective addr)
    (hfull : KImage_Read_File (LOAD 0) addr file = .ok (some image)) (unload : BitVec 32) :
    LoadsPart file image unload ↔
      (LOAD unload .ITEM_MAP = true ∨ file_maps file = []) ∧
        (LOAD unload .ITEM_CONST = false ∨ (file_consts file).Pairwise FloatsDiffer) := by
  obtain ⟨R, bs, h⟩ := loadedWhole haddr hfull
  refine ⟨h.of_loadsPart, fun ⟨hmaps, hconst⟩ addr' haddr' => ?_⟩
  obtain ⟨T, hload⟩ := h.total haddr' hconst
  have hsame := h.sameLoaded hload hmaps
  refine ⟨⟨file_header file, T⟩, ?_, hsame, ?_⟩
  · rw [h.read, hload, ok_bind]
  · rintro rfl
    exact hsame.sameRead.reports

/-- A file with the float zero twice. -/
def two_zeros : List UInt8 :=
  header_write { init_header none with map_size := 1 } ++
    (item_write .ITEM_MAP ⟨5, 108, 2⟩ ++
      (item_write .ITEM_CONST ⟨0, .CONST_FLOAT 0⟩ ++ item_write .ITEM_CONST ⟨0, .CONST_FLOAT 0⟩))

set_option maxRecDepth 4000 in
theorem two_zeros_loaded : ∃ image,
    KImage_Read_File (LOAD 0) id two_zeros = .ok (some image) := ⟨_, rfl⟩

set_option maxRecDepth 4000 in
theorem two_zeros_consts : file_consts two_zeros = [.CONST_FLOAT 0, .CONST_FLOAT 0] := rfl

theorem loadsPart_iff_two_zeros : ∃ image,
    KImage_Read_File (LOAD 0) id two_zeros = .ok (some image) ∧
      LoadsPart two_zeros image NOT_LOAD_ITEMS := by
  obtain ⟨image, hfull⟩ := two_zeros_loaded
  refine ⟨image, hfull, (loadsPart_iff Function.injective_id hfull _).mpr ⟨?_, ?_⟩⟩
  · exact Or.inl (by decide)
  · exact Or.inl (by decide)

/-- Without its strings, of which it has none, the file is not always loaded. -/
theorem not_loadsPart : ∃ image, KImage_Read_File (LOAD 0) id two_zeros = .ok (some image) ∧
    ¬ LoadsPart two_zeros image (1#32 <<< ItemKind.ITEM_STRING.number) := by
  obtain ⟨image, hfull⟩ := two_zeros_loaded
  refine ⟨image, hfull, fun hpart => ?_⟩
  obtain ⟨R, bs, h⟩ := loadedWhole Function.injective_id hfull
  rcases (h.of_loadsPart hpart).2 with hmasked | hfloats
  · exact absurd hmasked (by decide)
  · rw [two_zeros_consts] at hfloats
    have hdiffer : float_eq 0 0 = false := List.rel_of_pairwise_cons hfloats List.mem_cons_self
    exact absurd hdiffer (by decide)

end koala.image
