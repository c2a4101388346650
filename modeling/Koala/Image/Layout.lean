import Koala.Image.Batches

open koala.bytes

namespace koala.image

set_option linter.style.nameCheck false

/-- Items of a kind lie one behind the other at the start of some bytes. -/
inductive Lies (type : ItemKind) : List UInt8 → List (ItemData type) → Prop where
  | nil (bytes : List UInt8) : Lies type bytes []
  | struct {data rest : List UInt8} {item : ItemData type} {items : List (ItemData type)}
    (hsize : type.isize = none) (hlength : data.length = type.sizeof)
    (hitem : item_read 0 type data [] = .ok item) (h : Lies type rest items) :
    Lies type (data ++ rest) (item :: items)
  | array {isize : Nat} {len array rest : List UInt8} {item : ItemData type}
    {items : List (ItemData type)} (hsize : type.isize = some isize) (hlen : len.length = 4)
    (hpos : 0 < word len) (harray : array.length = isize * word len)
    (hint : type.sizeof + isize * word len ≤ INT_MAX)
    (hitem : item_read 0 type len array = .ok item) (h : Lies type rest items) :
    Lies type (len ++ (array ++ rest)) (item :: items)

variable {type : ItemKind} {file : List UInt8} {items : List (ItemData type)}

theorem isize_pos {isize : Nat} (hsize : type.isize = some isize) : 0 < isize := by
  cases type <;> cases hsize <;> decide

theorem sizeof_pos (type : ItemKind) : 0 < type.sizeof := by
  cases type <;> decide

/-- What is read and the rest are the file. -/
theorem fread_split {size count n : Nat} {data rest : List UInt8}
    (h : fread size count file = (n, data, rest)) : data ++ rest = file := by
  unfold fread at h
  split at h
  · cases h
    rfl
  · cases h
    exact List.take_append_drop _ _

theorem NextArray.split {isize : Nat} {len array rest : List UInt8}
    (h : NextArray type isize file len array rest) : file = len ++ (array ++ rest) ∧
      len.length = 4 ∧ 0 < word len ∧ array.length = isize * word len ∧
      type.sizeof + isize * word len ≤ INT_MAX := by
  obtain ⟨file₁, hlen, hint, harray⟩ := h
  obtain ⟨-, hlenlength⟩ := fread_one hlen
  obtain ⟨hpos, harraylength⟩ := fread_one harray
  refine ⟨?_, hlenlength, Nat.pos_of_mul_pos_left hpos, harraylength, hint⟩
  rw [fread_split harray, fread_split hlen]

/-- The items with arrays that are read are those that lie there. -/
theorem array_items_iff {isize : Nat} (hsize : type.isize = some isize) {size : Nat} :
    array_items type isize size file = .ok items ↔ Lies type file items ∧ items.length = size := by
  constructor
  · intro h
    induction size generalizing file items with
    | zero =>
      cases h
      exact ⟨.nil file, rfl⟩
    | succ size ih =>
      obtain ⟨len, array, rest, item, more, hnext, hitem, hmore, rfl⟩ := array_items_succ h
      obtain ⟨rfl, hlen, hpos, harray, hint⟩ := hnext.split
      obtain ⟨hlies, hlength⟩ := ih hmore
      exact ⟨.array hsize hlen hpos harray hint hitem hlies, congrArg Nat.succ hlength⟩
  · rintro ⟨hlies, rfl⟩
    induction hlies with
    | nil => rfl
    | struct hnone => exact absurd (hsize.symm.trans hnone) nofun
    | @array isize' len array rest item items hsize' hlen hpos harray hint hitem _ ih =>
      cases hsize.symm.trans hsize'
      have hne : isize * word len ≠ 0 := Nat.ne_of_gt (Nat.mul_pos (isize_pos hsize) hpos)
      have hhead : fread 4 1 (len ++ (array ++ rest)) = (1, len, array ++ rest) :=
        fread_append (by decide) hlen _
      have htail : fread (isize * word len) 1 (array ++ rest) = (1, array, rest) :=
        fread_append hne (harray.trans (Nat.one_mul _).symm) _
      rw [List.length_cons, array_items, hhead]
      dsimp only
      rw [if_neg (not_not.mpr rfl), VaItem_New_ok hint, ok_bind, htail]
      dsimp only
      rw [if_neg (not_not.mpr rfl), hitem, ok_bind, ih]
      rfl

/-- Structs that are read one by one lie one behind the other. -/
theorem lies_of_chunks (hsize : type.isize = none) {n : Nat} {data : List UInt8}
    (hlength : data.length = n * type.sizeof)
    (h : (chunks type.sizeof n data).mapM (fun data => item_read 0 type data []) = .ok items)
    (rest : List UInt8) : Lies type (data ++ rest) items ∧ items.length = n := by
  induction n generalizing data items with
  | zero =>
    cases h
    exact ⟨.nil _, rfl⟩
  | succ n ih =>
    rw [chunks, List.mapM_cons] at h
    obtain ⟨item, hitem, h⟩ := bind_eq_ok_iff.mp h
    obtain ⟨more, hmore, heq⟩ := bind_eq_ok_iff.mp h
    cases heq
    rw [Nat.succ_mul] at hlength
    have hdrop : (data.drop type.sizeof).length = n * type.sizeof := by
      rw [List.length_drop]
      omega
    have htake : (data.take type.sizeof).length = type.sizeof := by
      rw [List.length_take]
      omega
    obtain ⟨hlies, hmorelength⟩ := ih hdrop hmore
    refine ⟨?_, congrArg Nat.succ hmorelength⟩
    have hstruct := Lies.struct hsize htake hitem hlies
    rwa [← List.append_assoc, List.take_append_drop] at hstruct

theorem Lies.chunks (h : Lies type file items) (hsize : type.isize = none) :
    ∃ data rest, file = data ++ rest ∧ data.length = items.length * type.sizeof ∧
      (bytes.chunks type.sizeof items.length data).mapM (fun data => item_read 0 type data []) =
        .ok items := by
  induction h with
  | nil bytes => exact ⟨[], bytes, rfl, (Nat.zero_mul _).symm, rfl⟩
  | array hsome => exact absurd (hsome.symm.trans hsize) nofun
  | @struct data rest item items _ hlength hitem _ ih =>
    obtain ⟨more, rest, rfl, hmore, hread⟩ := ih
    refine ⟨data ++ more, rest, (List.append_assoc _ _ _).symm, ?_, ?_⟩
    · rw [List.length_append, hlength, hmore, List.length_cons, Nat.succ_mul, Nat.add_comm]
    · rw [List.length_cons, bytes.chunks, List.take_left' hlength, List.drop_left' hlength,
        List.mapM_cons, hitem, ok_bind, hread]
      rfl

/-- The structs that are read are those that lie there. -/
theorem struct_items_iff (hsize : type.isize = none) {size : Int} :
    struct_items type size file = .ok items ↔
      0 ≤ size ∧ Lies type file items ∧ items.length = size.toNat := by
  have hne : type.sizeof ≠ 0 := Nat.ne_of_gt (sizeof_pos type)
  unfold struct_items
  by_cases hneg : size < 0
  · rw [if_pos hneg]
    exact iff_of_false nofun fun h => Int.not_le.mpr hneg h.1
  · rw [if_neg hneg]
    constructor
    · intro h
      rcases hread : fread type.sizeof size.toNat file with ⟨sz, data, rest⟩
      rw [hread] at h
      dsimp only at h
      split at h
      · cases h
      · next hsz =>
        have hlength : data.length = size.toNat * type.sizeof := by
          unfold fread at hread
          rw [if_neg hne] at hread
          dsimp only at hread
          obtain ⟨hcount, hrest⟩ := Prod.mk.inj hread
          obtain ⟨rfl, -⟩ := Prod.mk.inj hrest
          rw [hcount, not_not.mp hsz, List.length_take, Nat.min_eq_left]
          rw [← Nat.le_div_iff_mul_le (sizeof_pos type)]
          rw [not_not.mp hsz] at hcount
          exact min_eq_left_iff.mp hcount
        have hlies := lies_of_chunks hsize hlength h rest
        rw [fread_split hread] at hlies
        exact ⟨Int.not_lt.mp hneg, hlies⟩
    · rintro ⟨-, hlies, hlength⟩
      obtain ⟨data, rest, rfl, hdata, hread⟩ := hlies.chunks hsize
      rw [hlength] at hdata hread
      rw [fread_append hne hdata]
      dsimp only
      rw [if_neg (not_not.mpr rfl), hread]

/-- What is read of a kind is what lies there. -/
theorem kind_items_iff {size : Int} : kind_items type size file = .ok items ↔
    (type.isize = none → 0 ≤ size) ∧ Lies type file items ∧ items.length = size.toNat := by
  unfold kind_items
  cases hsize : type.isize with
  | some isize =>
    dsimp only
    rw [array_items_iff hsize]
    exact ⟨fun h => ⟨nofun, h⟩, fun h => h.2⟩
  | none =>
    dsimp only
    rw [struct_items_iff hsize]
    exact ⟨fun h => ⟨fun _ => h.1, h.2⟩, fun h => ⟨h.1 rfl, h.2⟩⟩

end koala.image
