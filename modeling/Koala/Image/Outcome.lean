import Koala.Post
import Koala.Image.ReadBack

open koala.atomtable

namespace koala.image

set_option linter.style.nameCheck false

/-- What the calls of a run return, up to the one that fails, and the image
after the last of them. -/
def KImage.trace (mem : Memory) (n : Nat) (image : KImage) :
    List Add → List (Option Int) × Res KImage
  | [] => ([], .ok image)
  | a :: adds =>
    match image.add mem n a with
    | .error e => ([], .error e)
    | .ok (r, image) =>
      let rest := KImage.trace mem (n + 1) image adds
      (r :: rest.1, rest.2)

/-- The bytes of the file of an image that is not finished yet. -/
def image_file (image : KImage) : Res (List UInt8) := (KImage_Finish image).map KImage_Write_File

/-- All that can be observed of a run: addresses are not part of it. -/
structure Outcome where
  indices : List (Option Int)
  items : Res ((type : ItemKind) → List (ItemData type))
  file : Res (List UInt8)

def outcome (mem : Memory) (name : Option CString) (adds : List Add) : Outcome :=
  let (indices, final) := KImage.trace mem 0 (KImage_New name) adds
  ⟨indices, final.map fun image => contents image.table, final >>= image_file⟩

/-- Where the allocator puts the constants makes no difference. -/
def Reproducible (adds : List Add) : Prop :=
  ∀ (name : Option CString) (mem mem' : Memory), mem.key = mem'.key →
    outcome mem name adds = outcome mem' name adds

theorem KImage.trace_snd (mem : Memory) (n : Nat) (image : KImage) (adds : List Add) :
    (KImage.trace mem n image adds).2 = KImage.run mem n image adds := by
  induction adds generalizing n image with
  | nil => rfl
  | cons a adds ih =>
    rw [KImage.trace, KImage.run]
    cases image.add mem n a with
    | error e => rfl
    | ok r => exact ih (n + 1) r.2

theorem KImage.run_append {mem : Memory} {calls adds : List Add} {n : Nat}
    {image image' : KImage} (h : KImage.run mem n image calls = .ok image') :
    KImage.run mem n image (calls ++ adds) = KImage.run mem (n + calls.length) image' adds := by
  induction calls generalizing n image with
  | nil =>
    cases h
    rfl
  | cons a calls ih =>
    obtain ⟨⟨r, image₁⟩, hadd, h⟩ := bind_eq_ok_iff.mp h
    rw [List.cons_append, KImage.run, hadd, ok_bind]
    dsimp only
    rw [ih h, List.length_cons]
    congr 1
    omega

/-- The result of a call in a longer run. -/
theorem KImage.trace_index {mem : Memory} {calls adds : List Add} {a : Add} {n : Nat}
    {image image' : KImage} (h : KImage.run mem n image calls = .ok image') :
    (KImage.trace mem n image (calls ++ a :: adds)).1[calls.length]? =
      ((image'.add mem (n + calls.length) a).map Prod.fst).toOption := by
  induction calls generalizing n image with
  | nil =>
    cases h
    rw [List.nil_append, KImage.trace, List.length_nil, Nat.add_zero]
    cases image'.add mem n a with
    | error e => rfl
    | ok r => rfl
  | cons b calls ih =>
    obtain ⟨⟨r, image₁⟩, hadd, h⟩ := bind_eq_ok_iff.mp h
    rw [List.cons_append, KImage.trace, hadd, List.length_cons]
    dsimp only
    have hn : n + 1 + calls.length = n + (calls.length + 1) := by omega
    rw [List.getElem?_cons_succ, ih h, hn]

section file

/-- Two tables with the same items, wherever their constants are. -/
def SameContents (T T' : Table) : Prop := ∀ type, contents T type = contents T' type

variable {T T' : Table}

theorem item_length_readdress (type : ItemKind) (item : ItemData type) :
    item_length type (readdress 0 type item) = item_length type item := by
  cases type <;> rfl

theorem item_write_readdress (type : ItemKind) (item : ItemData type) :
    item_write type (readdress 0 type item) = item_write type item := by
  cases type <;> rfl

theorem SameContents.size_eq (h : SameContents T T') (type : ItemKind) :
    AtomTable_Size T type = AtomTable_Size T' type := by
  have hlength := congrArg List.length (h type)
  rwa [contents, contents, List.length_map, List.length_map] at hlength

theorem SameContents.map_space_eq (h : SameContents T T') (kinds : List ItemKind)
    (offset : Nat) : map_space T kinds offset = map_space T' kinds offset := by
  induction kinds generalizing offset with
  | nil => rfl
  | cons i kinds ih => rw [map_space, map_space, h.size_eq i, ih]

theorem items_length_contents (type : ItemKind) (items : List (ItemData type)) (length : Nat) :
    items_length type (items.map (readdress 0 type)) length = items_length type items length := by
  induction items generalizing length with
  | nil => rfl
  | cons item items ih =>
    rw [List.map_cons, items_length, items_length, item_length_readdress]
    exact bind_congr fun m => ih m

theorem SameContents.items_length_eq (h : SameContents T T') (type : ItemKind) (length : Nat) :
    items_length type (T.items type) length = items_length type (T'.items type) length := by
  rw [← items_length_contents, ← items_length_contents type (T'.items type)]
  exact congrArg (fun l => items_length type l length) (h type)

theorem SameContents.append_map (h : SameContents T T') (entry : MapItem) :
    Agree (fun r r' => SameContents r.2 r'.2) (Append T .ITEM_MAP entry)
      (Append T' .ITEM_MAP entry) := by
  obtain ⟨i, T₁, happend, hsame, hmaps⟩ := image.append_map T entry
  obtain ⟨i', T₁', happend', hsame', hmaps'⟩ := image.append_map T' entry
  rw [happend, happend']
  refine .ok fun type => ?_
  dsimp only
  by_cases htype : type = .ITEM_MAP
  · have hmap := h .ITEM_MAP
    subst htype
    unfold contents at hmap ⊢
    rw [hmaps, hmaps', List.map_append, List.map_append, hmap]
  · have hitems := h type
    unfold contents at hitems ⊢
    rw [hsame type htype, hsame' type htype, hitems]

theorem SameContents.finish_loop (h : SameContents T T') (kinds : List ItemKind)
    (offset length : Nat) :
    Agree (fun r r' => SameContents r.1 r'.1 ∧ r.2 = r'.2) (finish_loop kinds T offset length)
      (finish_loop kinds T' offset length) := by
  induction kinds generalizing T T' offset length with
  | nil => exact .ok ⟨h, rfl⟩
  | cons i kinds ih =>
    rw [image.finish_loop, image.finish_loop, h.size_eq i]
    split
    · cases addInt offset length with
      | error e => exact .error e
      | ok offset =>
        rw [ok_bind, ok_bind]
        refine (h.append_map _).bind ?_
        rintro ⟨_, T₁⟩ ⟨_, T₁'⟩ hT₁
        dsimp only at hT₁ ⊢
        rw [hT₁.items_length_eq i]
        cases items_length i (T₁'.items i) 0 with
        | error e => exact .error e
        | ok length => exact ih hT₁ offset length
    · exact ih h offset length

theorem SameContents.image_write_items_eq {image image' : KImage}
    (h : SameContents image.table image'.table) (kinds : List ItemKind) :
    image_write_items image kinds = image_write_items image' kinds := by
  have hwrite : ∀ (type : ItemKind) (items : List (ItemData type)),
      (items.map (readdress 0 type)).flatMap (item_write type) =
        items.flatMap (item_write type) := by
    intro type items
    rw [List.flatMap_map]
    simp only [item_write_readdress]
  induction kinds with
  | nil => rfl
  | cons i kinds ih =>
    have hitem : image_write_item image i = image_write_item image' i := by
      unfold image_write_item
      rw [← hwrite, ← hwrite i (image'.table.items i)]
      exact congrArg (List.flatMap (item_write i)) (h i)
    rw [image_write_items, image_write_items, h.size_eq i, hitem, ih]

/-- The file is determined by the header and the contents of the items. -/
theorem image_file_congr {image image' : KImage} (hheader : image.header = image'.header)
    (h : SameContents image.table image'.table) : image_file image = image_file image' := by
  have hfinish : Agree (fun a b => a.header = b.header ∧ SameContents a.table b.table)
      (KImage_Finish image) (KImage_Finish image') := by
    unfold KImage_Finish
    rw [hheader, h.map_space_eq]
    refine (h.finish_loop ItemKind.all.tail _ 0).bind ?_
    rintro ⟨T, offset, length⟩ ⟨T', offset', length'⟩ ⟨hT, heq⟩
    cases heq
    dsimp only at hT ⊢
    cases addInt offset length with
    | error e => exact .error e
    | ok file_size =>
      refine .ok ⟨?_, hT⟩
      rw [hT.size_eq]
  refine (hfinish.map fun a b hab => ?_).eq
  unfold KImage_Write_File image_write_header
  rw [hab.1, hab.2.image_write_items_eq]

end file

end koala.image
