import Koala.Image.Linked
import Koala.Image.ReadFile
import Mathlib.Algebra.Order.BigOperators.Group.List
import Mathlib.Algebra.Order.Ring.Nat

open koala.atomtable koala.bytes koala.typedesc koala.typedesc.Store

namespace koala.image

set_option linter.style.nameCheck false

/-- The arguments of a call are within the ranges of their C types. -/
def Add.FitsInt : Add → Prop
  | .LocVar _ _ _ index => koala.FitsInt index
  | _ => True

theorem fitsInt_neg_one : FitsInt (-1) := by
  unfold FitsInt
  omega

section sizes

variable {T : Table}

theorem item_length_pos (type : ItemKind) (item : ItemData type) : 0 < item_length type item := by
  cases type <;> simp only [item_length, ItemKind.sizeof] <;> omega

theorem size_le_region_length (T : Table) (type : ItemKind) :
    AtomTable_Size T type ≤ region_length T type := by
  unfold AtomTable_Size region_length
  induction T.items type with
  | nil => exact Nat.le_refl _
  | cons item items ih =>
    have hpos := item_length_pos type item
    rw [List.length_cons, List.map_cons, List.sum_cons]
    omega

theorem item_length_le_region_length {type : ItemKind} {item : ItemData type}
    (h : item ∈ T.items type) : item_length type item ≤ region_length T type :=
  List.le_sum_of_mem (List.mem_map_of_mem h)

theorem region_length_le_total {type : ItemKind} {kinds : List ItemKind} (htype : type ∈ kinds) :
    region_length T type ≤ total T kinds := by
  by_cases hpos : 0 < AtomTable_Size T type
  · have hused : type ∈ used T kinds := List.mem_filter.mpr ⟨htype, by simpa using hpos⟩
    exact List.le_sum_of_mem (List.mem_map_of_mem hused)
  · have hnil : T.items type = [] :=
      List.eq_nil_of_length_eq_zero (Nat.eq_zero_of_not_pos hpos)
    rw [region_length, hnil]
    exact Nat.zero_le _

end sizes

section ints

variable {T : Table}

theorem Valid.fitsInt (hsize : ∀ type, AtomTable_Size T type < 2 ^ 31) {type : ItemKind} {i : Int}
    (h : Valid T type i) : FitsInt i := by
  obtain ⟨data, hget⟩ := h
  obtain ⟨n, rfl, hn, _⟩ := AtomTable_Get_some hget
  exact FitsInt.of_nat (hn.trans (hsize type))

theorem fitsInt_of_tested (hsize : ∀ type, AtomTable_Size T type < 2 ^ 31) {type : ItemKind}
    {i : Int} (h : i = -1 ∨ Valid T type i) : FitsInt i := by
  rcases h with rfl | h
  · exact fitsInt_neg_one
  · exact h.fitsInt hsize

/-- The fields of a type item: its kind, a letter or a dimension count, and
indices. -/
theorem HoldsType.fitsInt (hsize : ∀ type, AtomTable_Size T type < 2 ^ 31) {i : Int}
    {t : TypeDesc} (h : HoldsType T i t) {item : TypeItem}
    (hget : Get T .ITEM_TYPE i = some item) :
    ∀ w ∈ item_ints .ITEM_TYPE item, FitsInt w := by
  have hsmall : ∀ n : Nat, n < 256 → FitsInt n := fun n hn => FitsInt.of_nat (by omega)
  have hkind : ∀ n : Nat, n < 8 → FitsInt n := fun n hn => FitsInt.of_nat (by omega)
  cases t with
  | base type =>
    rw [HoldsType, hget] at h
    cases h
    simp only [item_ints, List.forall_mem_cons]
    exact ⟨hkind 1 (by decide), hsmall _ (UInt8.toNat_lt _), hkind 0 (by decide), by simp⟩
  | klass path type =>
    obtain ⟨pathindex, typeindex, hget', hpath, htype⟩ := h
    rw [hget] at hget'
    cases hget'
    simp only [item_ints, List.forall_mem_cons]
    exact ⟨hkind 2 (by decide), fitsInt_of_tested hsize hpath.valid, htype.valid.fitsInt hsize,
      by simp⟩
  | proto arg ret =>
    obtain ⟨protoindex, hget', hproto⟩ := holdsType_proto.mp h
    rw [hget] at hget'
    cases hget'
    simp only [item_ints, List.forall_mem_cons]
    exact ⟨hkind 3 (by decide), hproto.valid.fitsInt hsize, hkind 0 (by decide), by simp⟩
  | array dims base =>
    obtain ⟨typeindex, hget', hbase⟩ := h
    rw [hget, Option.some.injEq] at hget'
    rw [hget']
    simp only [item_ints, List.forall_mem_cons]
    exact ⟨hkind 4 (by decide), FitsInt.toInt dims, hbase.valid.fitsInt hsize, by simp⟩
  | map | set => exact h.elim
  | varg base =>
    obtain ⟨typeindex, hget', hbase⟩ := h
    rw [hget] at hget'
    cases hget'
    simp only [item_ints, List.forall_mem_cons]
    exact ⟨hkind 7 (by decide), hbase.valid.fitsInt hsize, hkind 0 (by decide), by simp⟩

theorem Sound.types_fitsInt (hT : Sound T) (hsize : ∀ type, AtomTable_Size T type < 2 ^ 31)
    {type : ItemKind} (htype : type.ofTypes = true) {i : Int} {data : ItemData type}
    (hget : Get T type i = some data) : ∀ w ∈ item_ints type data, FitsInt w := by
  cases type with
  | ITEM_STRING => simp [item_ints]
  | ITEM_TYPE =>
    obtain ⟨t, ht⟩ := hT.type hget
    exact ht.fitsInt hsize hget
  | ITEM_TYPELIST =>
    obtain ⟨l, hne, hl⟩ := hT.typelist hget
    obtain ⟨index, hget', heach⟩ := (holdsList_of_ne hne).mp hl
    rw [hget] at hget'
    cases hget'
    exact fun w hw => (heach.valid w hw).fitsInt hsize
  | ITEM_PROTO =>
    obtain ⟨p, rindex, pindex, hget', hr, ha⟩ := hT.proto hget
    rw [hget] at hget'
    cases hget'
    simp only [item_ints, List.forall_mem_cons]
    exact ⟨fitsInt_of_tested hsize hr.valid, fitsInt_of_tested hsize ha.valid, by simp⟩
  | _ => cases htype

/-- The fields of a record: indices and the arguments of the call. -/
theorem Records.fitsInt (hsize : ∀ type, AtomTable_Size T type < 2 ^ 31) {a : Add}
    (ha : a.FitsInt) {items : List Item} (h : Records T a items) :
    ∀ item ∈ items, ∀ w ∈ item_ints item.1 item.2, FitsInt w := by
  cases a with
  | Integer | Float | Bool | UChar =>
    rcases h with rfl | ⟨addr, rfl⟩
    · simp
    · simp [item_ints]
  | String val =>
    obtain ⟨index, hs, rfl | ⟨addr, rfl⟩⟩ := h
    · simp
    · simp only [item_ints, List.forall_mem_singleton]
      exact hs.valid.fitsInt hsize
  | Var =>
    obtain ⟨nameindex, typeindex, rfl, hname, htype⟩ := h
    simp only [item_ints, List.forall_mem_singleton, List.forall_mem_cons]
    exact ⟨hname.valid.fitsInt hsize, htype.valid.fitsInt hsize⟩
  | LocVar =>
    obtain ⟨nameindex, typeindex, rfl, hname, htype⟩ := h
    simp only [item_ints, List.forall_mem_singleton, List.forall_mem_cons]
    exact ⟨hname.valid.fitsInt hsize, htype.valid.fitsInt hsize, ha⟩
  | Func name proto codes =>
    obtain ⟨nameindex, protoindex, codeindex, rfl, hname, hproto, hcode⟩ := h
    simp only [item_ints, List.forall_mem_singleton, List.forall_mem_cons]
    exact ⟨by simp, hname.valid.fitsInt hsize, hproto.valid.fitsInt hsize,
      Valid.fitsInt hsize ⟨_, hcode⟩⟩
  | Class | Trait =>
    obtain ⟨classindex, superindex, rfl, hc, hsuper⟩ := h
    simp only [item_ints, List.forall_mem_singleton, List.forall_mem_cons]
    exact ⟨hc.valid.fitsInt hsize, fitsInt_of_tested hsize hsuper.valid⟩
  | Field =>
    obtain ⟨classindex, nameindex, typeindex, rfl, hc, hname, htype⟩ := h
    simp only [item_ints, List.forall_mem_singleton, List.forall_mem_cons]
    exact ⟨hc.valid.fitsInt hsize, hname.valid.fitsInt hsize, htype.valid.fitsInt hsize⟩
  | Method =>
    obtain ⟨classindex, nameindex, protoindex, codeindex, rfl, hc, hname, hproto, hcode⟩ := h
    simp only [item_ints, List.forall_mem_singleton, List.forall_mem_cons]
    exact ⟨by simp, hc.valid.fitsInt hsize, hname.valid.fitsInt hsize,
      hproto.valid.fitsInt hsize, Valid.fitsInt hsize ⟨_, hcode⟩⟩
  | NFunc =>
    obtain ⟨classindex, nameindex, protoindex, rfl, hc, hname, hproto⟩ := h
    simp only [item_ints, List.forall_mem_singleton, List.forall_mem_cons]
    exact ⟨fitsInt_of_tested hsize hc.valid, hname.valid.fitsInt hsize,
      hproto.valid.fitsInt hsize⟩
  | IMeth =>
    obtain ⟨classindex, nameindex, protoindex, rfl, hc, hname, hproto⟩ := h
    simp only [item_ints, List.forall_mem_singleton, List.forall_mem_cons]
    exact ⟨hc.valid.fitsInt hsize, hname.valid.fitsInt hsize, hproto.valid.fitsInt hsize⟩

end ints

/-- The words of an item: the length of its array, or fields of 32 bits. -/
theorem item_words_lt {type : ItemKind} (htype : type ≠ .ITEM_MAP) {item : ItemData type}
    (hlength : item_length type item < 2 ^ 32) : ∀ w ∈ item_words type item, w < 2 ^ 32 := by
  have hlocal : ∀ v : BitVec 32, v.toNat < 2 ^ 32 := fun v => v.isLt
  cases type with
  | ITEM_MAP => exact absurd rfl htype
  | ITEM_STRING | ITEM_TYPELIST | ITEM_CODE =>
    simp only [item_length, item_words, List.forall_mem_singleton] at hlength ⊢
    omega
  | ITEM_CONST =>
    have hwide : ∀ v : BitVec 64, v.toNat / 2 ^ 32 < 2 ^ 32 := fun v => by
      have hlt := v.isLt
      omega
    have htag : ∀ n : Nat, n < 8 → n < 2 ^ 32 := fun n hn => by omega
    obtain ⟨addr, val⟩ := item
    cases val <;>
      simp only [item_words, constitem_words, List.forall_mem_singleton, List.forall_mem_cons,
        uint32_lt, hlocal, hwide, and_true, true_and] <;>
      exact ⟨htag _ (by decide), by omega⟩
  | _ =>
    simp only [item_words, List.forall_mem_singleton, List.forall_mem_cons, uint32_lt, hlocal,
      and_true]

section fits

/-- Storing types changes no other argument. -/
theorem storedAll_fitsInt {adds : List Add} (h : ∀ a ∈ adds, a.FitsInt) (S : Store) :
    ∀ a ∈ (storedAll S adds).1, a.FitsInt := by
  induction adds generalizing S with
  | nil => simp [storedAll]
  | cons a adds ih =>
    rw [storedAll]
    intro b hb
    rcases List.mem_cons.mp hb with rfl | hb
    · have ha := h a List.mem_cons_self
      cases a with
      | LocVar => exact ha
      | NFunc klazz => cases klazz <;> trivial
      | _ => trivial
    · exact ih (fun c hc => h c (List.mem_cons_of_mem a hc)) _ b hb

variable {mem : Memory} {name : Option CString} {adds : List Add} {image image' : KImage}

theorem size_lt (h : Unfinished image) (hsize : fileSize image ≤ INT_MAX) (type : ItemKind) :
    AtomTable_Size image.table type < 2 ^ 31 := by
  have hmax : INT_MAX = 2 ^ 31 - 1 := rfl
  rcases List.mem_cons.mp type.mem_all with rfl | htype
  · rw [AtomTable_Size, h.nomap, List.length_nil]
    decide
  · have hmem : type ∈ ItemKind.all.tail := htype
    have hle := size_le_region_length image.table type
    have hregion := region_length_le_total (T := image.table) hmem
    rw [fileSize] at hsize
    omega

/-- The items of an image whose file has a size fit their types. -/
theorem KImage.run_fits (hrun : KImage.run mem 0 (KImage_New name) adds = .ok image)
    (hadds : ∀ a ∈ adds, a.FitsInt) (hsize : fileSize image ≤ INT_MAX) {type : ItemKind}
    (htype : type ≠ .ITEM_MAP) : ∀ item ∈ image.table.items type, ItemFits type item := by
  have hunfinished := KImage.run_unfinished hrun
  have hsizes := size_lt hunfinished hsize
  obtain ⟨_, new, hrecords, hplaces⟩ := KImage.run_ok sound_new hrun
  intro item hitem
  obtain ⟨n, hn⟩ := List.mem_iff_getElem?.mp hitem
  have hget : Get image.table type n = some item := by
    rw [Get, AtomTable_Get_of_nonneg, hn]
  have hitemsize : item_length type item ≤ INT_MAX := by
    have hmem : type ∈ ItemKind.all.tail := by
      rcases List.mem_cons.mp type.mem_all with heq | hmem
      · exact absurd heq htype
      · exact hmem
    have hlength := item_length_le_region_length hitem
    have hregion := region_length_le_total (T := image.table) hmem
    rw [fileSize] at hsize
    omega
  have hmax : INT_MAX < 2 ^ 32 := by decide
  refine ⟨item_words_lt htype (Nat.lt_of_le_of_lt hitemsize hmax), ?_, hitemsize, ?_⟩
  · cases htypes : type.ofTypes with
    | true => exact hplaces.sound.types_fitsInt hsizes htypes hget
    | false =>
      obtain ⟨a, ha, items, hrecord, hmem⟩ :=
        exists_record hrecords ((hplaces.get_iff htypes).mp ⟨n, hget⟩)
      exact hrecord.fitsInt hsizes (storedAll_fitsInt hadds _ a ha) _ hmem
  · rintro rfl
    obtain ⟨s, rfl⟩ := hplaces.sound.string n item hget
    exact List.mem_append_right _ List.mem_cons_self

theorem Finished.fits (h : Unfinished image) (hf : Finished image image')
    (hsize : fileSize image ≤ INT_MAX)
    (hfits : ∀ type, type ≠ .ITEM_MAP → ∀ item ∈ image.table.items type, ItemFits type item)
    (type : ItemKind) : ∀ item ∈ image'.table.items type, ItemFits type item := by
  intro item hitem
  by_cases htype : type = .ITEM_MAP
  · subst htype
    have hdescribed := hf.described h
    rw [hf.entries] at hitem
    obtain ⟨r, hr, rfl⟩ := List.mem_map.mp hitem
    obtain ⟨pre, post, hall, hoffset, hfile⟩ := hdescribed.written r hr
    have hle : r.extent.offset ≤ fileSize image := by
      have hlength := hdescribed.file_size
      have hheader : image'.header.file_size = fileSize image := by rw [hf.header]
      have hwhole := congrArg List.length hfile
      rw [List.length_append, List.length_append] at hwhole
      omega
    have hmax : INT_MAX = 2 ^ 31 - 1 := rfl
    have hnumber : r.kind.number < 16 := r.kind.number_lt
    refine ⟨?_, ?_, (by decide : 12 ≤ INT_MAX), nofun⟩
    · simp only [item_words, Region.entry, List.forall_mem_cons]
      exact ⟨by omega, by omega, uint32_lt _, by simp⟩
    · simp only [item_ints, Region.entry, List.forall_mem_singleton]
      exact FitsInt.of_nat (size_lt h hsize r.kind)
  · rw [hf.same type htype] at hitem
    exact hfits type htype item hitem

end fits

section copies

variable {addr : Nat → Nat} {type : ItemKind}

theorem readdress_readdress (a b : Nat) (item : ItemData type) :
    readdress a type (readdress b type item) = readdress a type item := by
  cases type <;> rfl

/-- The contents of the items of a kind: where a constant is put is left out. -/
def contents (table : Table) (type : ItemKind) : List (ItemData type) :=
  (table.items type).map (readdress 0 type)

theorem map_readdress_copies (n : Nat) (items : List (ItemData type)) :
    (copies addr type n items).map (readdress 0 type) = items.map (readdress 0 type) := by
  induction items generalizing n with
  | nil => rfl
  | cons item items ih => rw [copies, List.map_cons, readdress_readdress, ih, List.map_cons]

theorem exists_of_mem_copies {n : Nat} {items : List (ItemData type)} {copy : ItemData type}
    (h : copy ∈ copies addr type n items) :
    ∃ i item, n ≤ i ∧ item ∈ items ∧ copy = readdress (addr i) type item := by
  induction items generalizing n with
  | nil => exact nomatch h
  | cons item items ih =>
    rcases List.mem_cons.mp h with rfl | h
    · exact ⟨n, item, Nat.le_refl n, List.mem_cons_self, rfl⟩
    · obtain ⟨i, item', hi, hmem, hcopy⟩ := ih h
      exact ⟨i, item', by omega, List.mem_cons_of_mem item hmem, hcopy⟩

theorem exists_copy_of_mem {items : List (ItemData type)} {item : ItemData type}
    (h : item ∈ items) (n : Nat) :
    ∃ i, readdress (addr i) type item ∈ copies addr type n items := by
  induction items generalizing n with
  | nil => exact nomatch h
  | cons other items ih =>
    rcases List.mem_cons.mp h with rfl | h
    · exact ⟨n, List.mem_cons_self⟩
    · obtain ⟨i, hi⟩ := ih h (n + 1)
      exact ⟨i, List.mem_cons_of_mem _ hi⟩

theorem pairwise_copies {S R : ItemData type → ItemData type → Prop} {n : Nat}
    {items : List (ItemData type)}
    (h : ∀ i j x y, i ≠ j → S x y → R (readdress (addr i) type x) (readdress (addr j) type y))
    (hitems : items.Pairwise S) : (copies addr type n items).Pairwise R := by
  induction items generalizing n with
  | nil => exact List.Pairwise.nil
  | cons item items ih =>
    obtain ⟨hhead, htail⟩ := List.pairwise_cons.mp hitems
    refine List.pairwise_cons.mpr ⟨fun copy hcopy => ?_, ih htail⟩
    obtain ⟨i, other, hi, hmem, rfl⟩ := exists_of_mem_copies hcopy
    exact h n i item other (by omega) (hhead other hmem)

theorem pairwise_of_copies {S R : ItemData type → ItemData type → Prop} {n : Nat}
    {items : List (ItemData type)}
    (h : ∀ i j x y, R (readdress (addr i) type x) (readdress (addr j) type y) → S x y)
    (hcopies : (copies addr type n items).Pairwise R) : items.Pairwise S := by
  induction items generalizing n with
  | nil => exact List.Pairwise.nil
  | cons item items ih =>
    obtain ⟨hhead, htail⟩ := List.pairwise_cons.mp hcopies
    refine List.pairwise_cons.mpr ⟨fun other hother => ?_, ih htail⟩
    obtain ⟨i, hi⟩ := @exists_copy_of_mem addr _ _ _ hother (n + 1)
    exact h n i item other (hhead _ hi)

theorem copies_of_ne (htype : type ≠ .ITEM_CONST) (n : Nat) (items : List (ItemData type)) :
    copies addr type n items = items := by
  induction items generalizing n with
  | nil => rfl
  | cons item items ih =>
    have hsame : readdress (addr n) type item = item := by
      cases type with
      | ITEM_CONST => exact absurd rfl htype
      | _ => rfl
    rw [copies, ih, hsame]

end copies

/-- Two constants that are not floats comparing equal. -/
def FloatsDiffer : ConstVal → ConstVal → Prop
  | .CONST_FLOAT f, .CONST_FLOAT g => float_eq f g = false
  | _, _ => True

/-- Constants of a table differ wherever they are copied to, the floats when
their values do. -/
theorem differing_consts {T : Table} (hwf : WF T) {addr : Nat → Nat}
    (haddr : Function.Injective addr)
    (hfloats : (T.items .ITEM_CONST).Pairwise fun x y => FloatsDiffer x.val y.val) (n : Nat) :
    Differing .ITEM_CONST (copies addr .ITEM_CONST n (T.items .ITEM_CONST)) := by
  have hitems := items_pairwise hwf (rfl : ItemKind.unique .ITEM_CONST = true)
  refine pairwise_copies ?_ (hitems.and hfloats)
  rintro i j ⟨addrx, x⟩ ⟨addry, y⟩ hij ⟨hdistinct, hdiffer⟩
  change constitem_equal ⟨addr i, x⟩ ⟨addr j, y⟩ = false
  change constitem_hash ⟨addrx, x⟩ = constitem_hash ⟨addry, y⟩ →
    constitem_equal ⟨addrx, x⟩ ⟨addry, y⟩ = false at hdistinct
  have hcopies : addr i ≠ addr j := fun heq => hij (haddr heq)
  cases x <;> cases y <;> simp only [constitem_equal, decide_eq_false_iff_not] at hdistinct ⊢
  case CONST_INT.CONST_INT v w =>
    rintro rfl
    exact hdistinct rfl rfl
  case CONST_FLOAT.CONST_FLOAT f g => exact hdiffer
  case CONST_BOOL.CONST_BOOL v w => exact hcopies
  case CONST_STRING.CONST_STRING v w =>
    rintro rfl
    exact hdistinct rfl rfl
  case CONST_UCHAR.CONST_UCHAR v w =>
    rintro rfl
    exact hdistinct rfl rfl

/-- Floats in a table whose addresses all have the same hash differ. -/
theorem floats_differ {T : Table} (hwf : WF T) {addr : Nat → Nat}
    (haddr : ∀ n, addr n % 2 ^ 32 = 0) {items : List ConstItem} {n : Nat}
    (hitems : T.items .ITEM_CONST = copies addr .ITEM_CONST n items) :
    items.Pairwise fun x y => FloatsDiffer x.val y.val := by
  have hpairs := items_pairwise hwf (rfl : ItemKind.unique .ITEM_CONST = true)
  rw [hitems] at hpairs
  refine pairwise_of_copies (fun i j x y h => ?_) hpairs
  obtain ⟨addrx, x⟩ := x
  obtain ⟨addry, y⟩ := y
  cases x <;> cases y <;> try trivial
  case CONST_FLOAT.CONST_FLOAT f g =>
    have hhash : constitem_hash ⟨addr i, .CONST_FLOAT f⟩ =
        constitem_hash ⟨addr j, .CONST_FLOAT g⟩ := by
      rw [constitem_hash, constitem_hash, haddr, haddr]
    exact h hhash

end koala.image
