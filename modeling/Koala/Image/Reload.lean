import Koala.Image.RoundTrip
import Koala.Image.TypeTable

open koala.atomtable koala.bytes

namespace koala.image

set_option linter.style.nameCheck false

/-- Appending the items of a kind again, the `n`th at `addr n`. An array without
bytes cannot be read. -/
def load_items (addr : Nat → Nat) (type : ItemKind) :
    Nat → List (ItemData type) → Table → Res Table
  | _, [], table => .ok table
  | n, item :: items, table =>
    if type.isize.isSome ∧ item_array type item = [] then .error .assertion
    else do
      let (_, table) ← Append table type (readdress (addr n) type item)
      load_items addr type (n + 1) items table

section read

variable {type : ItemKind} {addr : Nat → Nat}

theorem ne_map_of_isize {isize : Nat} (h : type.isize = some isize) : type ≠ .ITEM_MAP := by
  rintro rfl
  cases h

/-- The struct of an item with an array is the array's length. -/
theorem item_words_of_isize {isize : Nat} (h : type.isize = some isize) (item : ItemData type) :
    ∃ len, item_words type item = [len] ∧ (item_array type item).length = isize * len ∧
      item_length type item = type.sizeof + isize * len := by
  cases type with
  | ITEM_STRING | ITEM_CODE =>
    cases h
    refine ⟨_, rfl, (Nat.one_mul _).symm, ?_⟩
    rw [item_length, Nat.one_mul]
  | ITEM_TYPELIST =>
    cases h
    refine ⟨_, rfl, ?_, ?_⟩
    · rw [item_array, length_words, List.length_map]
    · rw [item_length, Nat.mul_comm]
  | _ => cases h

theorem readdress_of_isize {isize : Nat} (h : type.isize = some isize) (item : ItemData type)
    (a : Nat) : readdress a type item = item := by
  cases type <;> first | rfl | cases h

theorem VaItem_New_ok {bsize isize len : Nat} (hint : bsize + isize * len ≤ INT_MAX) :
    VaItem_New bsize isize len = .ok (bsize + isize * len) := if_pos hint

/-- One round of the reading loop. -/
theorem read_arrays_succ {isize size : Nat} {file file₁ file₂ len array : List UInt8}
    (hlen : fread 4 1 file = (1, len, file₁))
    (hint : type.sizeof + isize * word len ≤ INT_MAX)
    (harray : fread (isize * word len) 1 file₁ = (1, array, file₂)) (table : Table) :
    read_arrays type isize (size + 1) file table = (do
      let item ← item_read 0 type len array
      let (_, table) ← Append table type item
      read_arrays type isize size file₂ table) := by
  simp only [read_arrays, hlen, VaItem_New_ok hint, ok_bind, harray, ne_eq, not_true, if_false]

theorem read_arrays_short {isize size : Nat} {file file₁ file₂ len array : List UInt8}
    (hlen : fread 4 1 file = (1, len, file₁))
    (hint : type.sizeof + isize * word len ≤ INT_MAX)
    (harray : fread (isize * word len) 1 file₁ = (0, array, file₂)) (table : Table) :
    read_arrays type isize (size + 1) file table = .error .assertion := by
  have hne : (0 : Nat) ≠ 1 := by decide
  simp only [read_arrays, hlen, VaItem_New_ok hint, ok_bind, harray, ne_eq, not_true, if_false,
    hne, not_false_eq_true, if_true]

/-- Items with arrays are read as they were written. -/
theorem read_arrays_write {isize : Nat} (hsize : type.isize = some isize)
    {items : List (ItemData type)} (hfits : ∀ item ∈ items, ItemFits type item) (n : Nat)
    (rest : List UInt8) (table : Table) :
    read_arrays type isize items.length (items.flatMap (item_write type) ++ rest) table =
      load_items addr type n items table := by
  induction items generalizing n table with
  | nil => rfl
  | cons item items ih =>
    have hitem := hfits item List.mem_cons_self
    obtain ⟨len, hwords, hlength, htotal⟩ := item_words_of_isize hsize item
    have hlen : len < 2 ^ 32 := hitem.words len (by simp [hwords])
    have hread := item_read_write (ne_map_of_isize hsize) hitem 0
    have hstruct : words (item_words type item) = le32 len := by
      rw [hwords, words_cons, words_nil, List.append_nil]
    have hword : word (le32 len) = len := by
      have hw := word_le32 hlen []
      rwa [List.append_nil] at hw
    have hint : type.sizeof + isize * word (le32 len) ≤ INT_MAX := by
      rw [hword, ← htotal]
      exact hitem.size
    rw [hstruct, readdress_of_isize hsize] at hread
    have hhead : fread 4 1 ((item :: items).flatMap (item_write type) ++ rest) =
        (1, le32 len, item_array type item ++ (items.flatMap (item_write type) ++ rest)) := by
      rw [List.flatMap_cons, item_write, hstruct, List.append_assoc, List.append_assoc]
      exact fread_append (by decide) (by rw [length_le32]) _
    have hsome : type.isize.isSome = true := by rw [hsize, Option.isSome_some]
    rw [List.length_cons, load_items]
    by_cases hnil : item_array type item = []
    · have hzero : isize * word (le32 len) = 0 := by
        rw [hword, ← hlength, hnil, List.length_nil]
      have hshort : fread (isize * word (le32 len)) 1 (item_array type item ++
          (items.flatMap (item_write type) ++ rest)) = (0, [], item_array type item ++
          (items.flatMap (item_write type) ++ rest)) := by
        rw [hzero, fread_zero]
      rw [if_pos ⟨hsome, hnil⟩]
      exact read_arrays_short hhead hint hshort table
    · have hpos : isize * word (le32 len) ≠ 0 := by
        rw [hword, ← hlength]
        exact fun h => hnil (List.eq_nil_of_length_eq_zero h)
      have harray : (item_array type item).length = 1 * (isize * word (le32 len)) := by
        rw [hword, hlength, Nat.one_mul]
      rw [if_neg (fun h => hnil h.2), read_arrays_succ hhead hint (fread_append hpos harray _), hread,
        ok_bind, readdress_of_isize hsize]
      refine bind_congr fun r => ?_
      exact ih (fun x hx => hfits x (List.mem_cons_of_mem item hx)) (n + 1) r.2

theorem item_array_of_isize (h : type.isize = none) (item : ItemData type) :
    item_array type item = [] := by
  cases type <;> first | rfl | cases h

theorem length_words_of_isize (h : type.isize = none) (item : ItemData type) :
    (item_write type item).length = type.sizeof := by
  rw [length_item_write]
  cases type <;> first | rfl | cases h

theorem append_structs_write (htype : type ≠ .ITEM_MAP) (hsize : type.isize = none)
    {items : List (ItemData type)} (hfits : ∀ item ∈ items, ItemFits type item) (n : Nat)
    (table : Table) : append_structs addr type n (items.map (item_write type)) table =
      load_items addr type n items table := by
  induction items generalizing n table with
  | nil => rfl
  | cons item items ih =>
    have hread := item_read_write htype (hfits item List.mem_cons_self) (addr n)
    have hwrite : item_write type item = words (item_words type item) := by
      rw [item_write, item_array_of_isize hsize, List.append_nil]
    rw [item_array_of_isize hsize, ← hwrite] at hread
    rw [List.map_cons, append_structs, hread, ok_bind, load_items,
      if_neg (fun h => by rw [hsize] at h; exact absurd h.1 (by decide))]
    refine bind_congr fun r => ?_
    exact ih (fun x hx => hfits x (List.mem_cons_of_mem item hx)) (n + 1) r.2

/-- Items of one size are read as they were written. -/
theorem read_structs_write (htype : type ≠ .ITEM_MAP) (hsize : type.isize = none)
    {items : List (ItemData type)} (hfits : ∀ item ∈ items, ItemFits type item) (n : Nat)
    (rest : List UInt8) (table : Table) :
    read_structs addr type n items.length (items.flatMap (item_write type) ++ rest) table =
      load_items addr type n items table := by
  have hlength := length_flatMap_of_length (length_words_of_isize hsize) items
  have hsizeof : type.sizeof ≠ 0 := by cases type <;> decide
  have hchunks := chunks_flatMap (length_words_of_isize hsize) items []
  rw [List.append_nil] at hchunks
  have hnonneg : ¬ (items.length : Int) < 0 := by omega
  rw [read_structs, if_neg hnonneg, Int.toNat_natCast, fread_append hsizeof hlength]
  dsimp only
  rw [if_neg (fun h => h rfl), hchunks, append_structs_write htype hsize hfits]

/-- The region of a kind is read as it was written. -/
theorem read_map_write {load : ItemKind → Bool} (htype : type ≠ .ITEM_MAP)
    {items : List (ItemData type)} (hfits : ∀ item ∈ items, ItemFits type item) (n : Nat)
    {pre rest : List UInt8} (table : Table) :
    read_map load addr n (pre ++ (items.flatMap (item_write type) ++ rest))
        ⟨type.number, pre.length, items.length⟩ table =
      if load type then load_items addr type n items table else .ok table := by
  have hseek : fseek (pre ++ (items.flatMap (item_write type) ++ rest)) pre.length =
      items.flatMap (item_write type) ++ rest := List.drop_left
  have hmap : read_map load addr n (pre ++ (items.flatMap (item_write type) ++ rest))
      ⟨type.number, pre.length, items.length⟩ table =
      if load type then
        type.isize.elim
          (read_structs addr type n items.length (items.flatMap (item_write type) ++ rest) table)
          fun isize =>
            read_arrays type isize items.length (items.flatMap (item_write type) ++ rest) table
      else .ok table := by
    rw [read_map, hseek, ItemKind.ofNumber_number]
    cases type <;> first | rfl | exact absurd rfl htype
  rw [hmap]
  congr 1
  cases hsize : type.isize with
  | some isize => exact read_arrays_write hsize hfits n rest table
  | none => exact read_structs_write htype hsize hfits n rest table

end read

section load

variable {addr : Nat → Nat} {type : ItemKind}

/-- The copies of items, from the `n`th address on. -/
def copies (addr : Nat → Nat) (type : ItemKind) : Nat → List (ItemData type) →
    List (ItemData type)
  | _, [] => []
  | n, item :: items => readdress (addr n) type item :: copies addr type (n + 1) items

/-- The items of a kind after a load. -/
def loaded (T : Table) (type : ItemKind) (items : List (ItemData type)) :
    (type : ItemKind) → List (ItemData type) :=
  Function.update T.items type (T.items type ++ items)

/-- An item without an array, or with one that is not empty. -/
def Readable (type : ItemKind) (item : ItemData type) : Prop :=
  type.isize.isSome = true → item_array type item ≠ []

/-- What a load that returns has done. -/
theorem load_items_ok {items : List (ItemData type)} {n : Nat} {T T' : Table} (hwf : WF T)
    (h : load_items addr type n items T = .ok T') :
    WF T' ∧ T'.items = loaded T type (copies addr type n items) ∧
      ∀ item ∈ items, Readable type item := by
  induction items generalizing n T with
  | nil =>
    cases h
    refine ⟨hwf, ?_, by simp⟩
    rw [loaded, copies, List.append_nil, Function.update_eq_self]
  | cons item items ih =>
    rw [load_items] at h
    split at h
    · cases h
    · next hreadable =>
      obtain ⟨⟨i, T₁⟩, happend, h⟩ := bind_eq_ok_iff.mp h
      obtain ⟨_, hitems, _, _⟩ := AtomTable_Append_ok happend
      obtain ⟨hwf', hitems', hall⟩ := ih (hwf.append happend) h
      refine ⟨hwf', ?_, fun x hx => ?_⟩
      · rw [hitems', loaded, hitems, appended_self, appended, Function.update_idem, loaded,
          copies, List.append_assoc]
        rfl
      · rcases List.mem_cons.mp hx with rfl | hx
        · exact fun hsome hnil => hreadable ⟨hsome, hnil⟩
        · exact hall x hx

/-- Readable items that differ from each other and from those of the table can
be loaded. -/
theorem load_items_total {items : List (ItemData type)} {n : Nat} {T : Table} (hwf : WF T)
    (hreadable : ∀ item ∈ items, Readable type item)
    (hdiffer : type.unique = true → Differing type (T.items type ++ copies addr type n items)) :
    ∃ T', load_items addr type n items T = .ok T' := by
  induction items generalizing n T with
  | nil => exact ⟨T, rfl⟩
  | cons item items ih =>
    have hread : ¬ (type.isize.isSome = true ∧ item_array type item = []) :=
      fun h => hreadable item List.mem_cons_self h.1 h.2
    have happend : ∃ T₁, Append T type (readdress (addr n) type item) =
        .ok ((AtomTable_Size T type : Int), T₁) := by
      refine hwf.append_differing fun hunique e he => ?_
      have hget := hwf.entry_get e he
      obtain ⟨etype, i, data⟩ := e
      by_cases htype : etype = type
      · subst htype
        obtain ⟨k, _, _, hdata⟩ := AtomTable_Get_some hget
        have hmem : data ∈ T.items etype := List.mem_of_getElem? hdata
        rw [Item_Equal_eq]
        exact (List.pairwise_append.mp (hdiffer hunique)).2.2 data hmem _ List.mem_cons_self
      · exact Item_Equal_of_ne htype _ _ _ _
    obtain ⟨T₁, happend⟩ := happend
    obtain ⟨_, hitems, _, _⟩ := AtomTable_Append_ok happend
    obtain ⟨T', hrest⟩ := ih (hwf.append happend) (n := n + 1)
      (fun x hx => hreadable x (List.mem_cons_of_mem item hx)) (fun hunique => by
        rw [hitems, appended_self, List.append_assoc]
        exact hdiffer hunique)
    refine ⟨T', ?_⟩
    rw [load_items, if_neg hread, happend, ok_bind]
    exact hrest

end load

end koala.image
