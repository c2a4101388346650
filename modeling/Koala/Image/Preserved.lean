import Koala.Image.ReadBack

open koala.atomtable koala.bytes

namespace koala.image

set_option linter.style.nameCheck false

/-- Reading the file of an image gives its header and the contents of its items
of every kind, wherever the constants are put. -/
def ReadsBack (image : KImage) : Prop :=
  ∀ addr : Nat → Nat, Function.Injective addr → ∃ image',
    KImage_Read_File (fun _ => true) addr (KImage_Write_File image) = .ok (some image') ∧
      image'.header = image.header ∧
      ∀ type, contents image'.table type = contents image.table type

variable {name : Option CString} {image image' : KImage}

theorem mem_used {T : Table} {type : ItemKind} {kinds : List ItemKind} :
    type ∈ used T kinds ↔ type ∈ kinds ∧ T.items type ≠ [] := by
  rw [used, List.mem_filter, decide_eq_true_iff, AtomTable_Size, List.length_pos_iff]

theorem nodup_used (T : Table) : (used T ItemKind.all.tail).Nodup := by
  have hall : ItemKind.all.tail.Nodup := by decide
  exact List.Pairwise.filter _ hall

/-- The kinds that a finished image has items of, the map apart. -/
theorem Finished.kinds (h : Unfinished image) (hf : Finished image image') :
    (finished_regions image).map Region.kind = used image'.table ItemKind.all.tail :=
  (hf.described h).kinds

/-- Strings and type lists have their arrays, code items when they have bytes. -/
theorem Sound.readable {T : Table} (hT : Sound T)
    (hcodes : ∀ code ∈ T.items .ITEM_CODE, code.codes ≠ []) (type : ItemKind) :
    ∀ item ∈ T.items type, Readable type item := by
  intro item hitem hisize
  obtain ⟨n, hn⟩ := List.mem_iff_getElem?.mp hitem
  have hget : Get T type n = some item := by
    rw [Get, AtomTable_Get_of_nonneg, hn]
  cases type with
  | ITEM_STRING =>
    obtain ⟨s, rfl⟩ := hT.string n item hget
    simp [item_array, StringItem_New]
  | ITEM_TYPELIST =>
    obtain ⟨l, hne, hl⟩ := hT.typelist hget
    obtain ⟨index, hindex, heach⟩ := (holdsList_of_ne hne).mp hl
    rw [hget] at hindex
    cases hindex
    cases l with
    | nil => exact absurd rfl hne
    | cons t l =>
      obtain ⟨i, rest, rfl, _⟩ := heach
      rw [item_array, List.map_cons, words_cons, le32]
      exact List.cons_ne_nil _ _
  | ITEM_CODE => exact hcodes item hitem
  | _ => cases hisize
/-- Reading back the file of a finished image, kind by kind. -/
theorem Finished.readsBack (h : Unfinished image) (hT : Sound image.table)
    (hf : Finished image image') (hinit : image.header = init_header name)
    (hsize : fileSize image ≤ INT_MAX)
    (hfits : ∀ type, ∀ item ∈ image'.table.items type, ItemFits type item)
    (hcodes : ∀ code ∈ image.table.items .ITEM_CODE, code.codes ≠ [])
    (hfloats : (image.table.items .ITEM_CONST).Pairwise fun x y => FloatsDiffer x.val y.val) :
    ReadsBack image' := by
  intro addr haddr
  obtain ⟨R, hwf, hempty, hmaps, hread⟩ := hf.read h hinit hsize hfits
  have hkinds := hf.kinds h
  have hmap : ∀ type ∈ used image'.table ItemKind.all.tail, type ≠ .ITEM_MAP := by
    rintro type htype rfl
    exact absurd (mem_used.mp htype).1 (by decide)
  have hnodup := nodup_used image'.table
  obtain ⟨R', hload⟩ := @load_kinds_total (fun _ => true) addr image'.table _ _
    hnodup (fun type htype => hempty type (hmap type htype)) hwf
    (fun type htype _ => by
      rw [hf.same type (hmap type htype)]
      refine ⟨hT.readable hcodes type, fun hunique => ?_⟩
      by_cases hconst : type = .ITEM_CONST
      · subst hconst
        exact differing_consts hT.wf haddr hfloats
      · intro n
        rw [copies_of_ne hconst]
        exact differing_items hT.wf hunique hconst) 0
  obtain ⟨_, hloaded, hrest⟩ := load_kinds_ok hnodup
    (fun type htype => hempty type (hmap type htype)) hwf hload
  refine ⟨⟨image'.header, R'⟩, ?_, rfl, fun type => ?_⟩
  · rw [hread, hkinds, hload, ok_bind]
  · by_cases hused : type ∈ used image'.table ItemKind.all.tail
    · obtain ⟨⟨n, hcopies⟩, -⟩ := hloaded type hused rfl
      rw [contents, hcopies, map_readdress_copies, contents]
    · rw [contents, contents, hrest type (Or.inl hused)]
      by_cases htype : type = .ITEM_MAP
      · rw [htype, hmaps]
      · have hnil : image'.table.items type = [] := by
          by_contra hne
          refine hused (mem_used.mpr ⟨?_, hne⟩)
          rcases List.mem_cons.mp type.mem_all with heq | hmem
          · exact absurd heq htype
          · exact hmem
        rw [hempty type htype, hnil]

/-- What can be read back has no empty code and no two equal floats. -/
theorem Finished.of_readsBack (h : Unfinished image) (hf : Finished image image')
    (hinit : image.header = init_header name) (hsize : fileSize image ≤ INT_MAX)
    (hfits : ∀ type, ∀ item ∈ image'.table.items type, ItemFits type item)
    (hback : ReadsBack image') :
    (∀ code ∈ image.table.items .ITEM_CODE, code.codes ≠ []) ∧
      (image.table.items .ITEM_CONST).Pairwise fun x y => FloatsDiffer x.val y.val := by
  have hinjective : Function.Injective fun n : Nat => n * 2 ^ 32 := fun m n hmn =>
    Nat.eq_of_mul_eq_mul_right (by decide) hmn
  obtain ⟨back, hfile, _⟩ := hback _ hinjective
  obtain ⟨R, hwf, hempty, _, hread⟩ := hf.read h hinit hsize hfits
  rw [hread, hf.kinds h] at hfile
  obtain ⟨R', hload, _⟩ := bind_eq_ok_iff.mp hfile
  have hnodup := nodup_used image'.table
  obtain ⟨hwf', hloaded, _⟩ := load_kinds_ok hnodup (fun type htype => hempty type (by
    rintro rfl
    exact absurd (mem_used.mp htype).1 (by decide))) hwf hload
  refine ⟨fun code hcode => ?_, ?_⟩
  · rw [← hf.same .ITEM_CODE (by decide)] at hcode
    have hused : .ITEM_CODE ∈ used image'.table ItemKind.all.tail :=
      mem_used.mpr ⟨by decide, List.ne_nil_of_mem hcode⟩
    exact (hloaded .ITEM_CODE hused rfl).2 code hcode rfl
  · rw [← hf.same .ITEM_CONST (by decide)]
    by_cases hnil : image'.table.items .ITEM_CONST = []
    · rw [hnil]
      exact List.Pairwise.nil
    · have hused : .ITEM_CONST ∈ used image'.table ItemKind.all.tail :=
      mem_used.mpr ⟨by decide, hnil⟩
      obtain ⟨⟨n, hcopies⟩, -⟩ := hloaded .ITEM_CONST hused rfl
      exact floats_differ hwf' (fun n => Nat.mul_mod_left n _) hcopies

section instances

/-- `func f() {}` without an instruction. -/
def emptyCodeImage : KImage :=
  match KImage.run .evenOdd 0 (KImage_New none) [.Func nameF ⟨[], []⟩ []] with
  | .ok image => image
  | .error _ => KImage_New none

end instances

end koala.image
