import Koala.Image.KImage

open koala.atomtable koala.typedesc koala.typedesc.Store

namespace koala.image

set_option linter.style.nameCheck false

theorem noindex_eq_ok_iff {x : Res KImage} {r : Option Int} {image : KImage} :
    noindex x = .ok (r, image) ↔ x = .ok image ∧ r = none := by
  cases x <;> simp [noindex, Except.map, eq_comm, and_comm]

theorem withindex_eq_ok_iff {x : Res (Int × KImage)} {r : Option Int} {image : KImage} :
    withindex x = .ok (r, image) ↔ ∃ i, x = .ok (i, image) ∧ r = some i := by
  cases x with
  | error => simp [withindex, Except.map]
  | ok p =>
    obtain ⟨i, image'⟩ := p
    simp only [withindex, Except.map, Except.ok.injEq, Prod.mk.injEq]
    constructor
    · rintro ⟨rfl, rfl⟩
      exact ⟨i, ⟨rfl, rfl⟩, rfl⟩
    · rintro ⟨_, ⟨rfl, rfl⟩, rfl⟩
      exact ⟨rfl, rfl⟩

/-- A call is recorded: its record describes the items it appended, and the
table holds what the store holds after the call. -/
structure Recorded (image image' : KImage) (a : Add) (r : Option Int) (new : List Item) :
    Prop where
  header : image'.header = image.header
  returns : Returns image.table a r
  records : Records image'.table (a.stored (held image.table)).1 new
  places : Places image.table image'.table (a.stored (held image.table)).2 new

namespace Sound

variable {T T' : Table}

theorem set_class (hT : Sound T) {name : CString} {i : Int}
    (h : TypeItem_Set T (.klass none name) = .ok (i, T')) :
    Places T T' ((held T).addType (.klass none name)) [] ∧ HoldsType T' i (.klass none name) := by
  obtain ⟨hgrows, hi⟩ := hT.TypeItem_Set_ok h
  rw [put_klass] at hgrows hi
  exact ⟨hgrows.places, hi⟩

theorem set_nfunc_class (hT : Sound T) {klazz : Option CString} {i : Int}
    (h : nfunc_classindex T klazz = .ok (i, T')) :
    Places T T' (match klazz with
      | none => held T
      | some klazz => (held T).addType (.klass none klazz)) [] ∧ HoldsClass T' i klazz := by
  cases klazz with
  | none =>
    cases h
    exact ⟨(Grows.refl hT).places, rfl⟩
  | some klazz => exact hT.set_class h

theorem set_string (hT : Sound T) {s : CString} {i : Int}
    (h : StringItem_Set T s = .ok (i, T')) :
    Places T T' (held T) [] ∧ HoldsString T' i s := by
  obtain ⟨hgrows, hi⟩ := hT.StringItem_Set_ok h
  exact ⟨hgrows.places, hi⟩

theorem set_type (hT : Sound T) {t : TypeDesc} {i : Int}
    (h : TypeItem_Set T t = .ok (i, T')) :
    Places T T' (put (held T) t).2 [] ∧ HoldsType T' i (put (held T) t).1 := by
  obtain ⟨hgrows, hi⟩ := hT.TypeItem_Set_ok h
  exact ⟨hgrows.places, hi⟩

theorem set_list (hT : Sound T) {l : List TypeDesc} {i : Int}
    (h : TypeListItem_Set T l = .ok (i, T')) :
    Places T T' (putTypes (held T) l).2 [] ∧ HoldsList T' i (putTypes (held T) l).1 := by
  obtain ⟨hgrows, hi⟩ := hT.TypeListItem_Set_ok h
  exact ⟨hgrows.places, hi⟩

theorem set_proto (hT : Sound T) {p : ProtoDesc} {i : Int}
    (h : ProtoItem_Set T p = .ok (i, T')) :
    Places T T' (putProto (held T) p).2 [] ∧ HoldsProto T' i (putProto (held T) p).1 := by
  obtain ⟨hgrows, hi⟩ := hT.ProtoItem_Set_ok h
  exact ⟨hgrows.places, hi⟩

end Sound

section adds

variable {image image' : KImage}

theorem constants_ok {key item : Nat} {val : ConstVal} {r : Option Int} (hT : Sound image.table)
    (h : withindex (do
      let (index, table) ← constitem_set key item image.table val
      .ok (index, { image with table })) = .ok (r, image')) :
    image'.header = image.header ∧ r.isSome = true ∧
      ∃ new : List Item, Places image.table image'.table (held image.table) new ∧
        (new = [] ∨ ∃ addr, new = [⟨.ITEM_CONST, ⟨addr, val⟩⟩]) := by
  rw [withindex_eq_ok_iff] at h
  obtain ⟨i, h, rfl⟩ := h
  obtain ⟨⟨index, table⟩, hset, h⟩ := bind_eq_ok_iff.mp h
  cases h
  exact ⟨rfl, rfl, hT.constitem_set_places hset⟩

theorem KImage_Add_String_ok {key item : Nat} {val : CString} {r : Option Int}
    (hT : Sound image.table)
    (h : withindex (KImage_Add_String key item image val) = .ok (r, image')) :
    ∃ new, Recorded image image' (.String val) r new := by
  rw [withindex_eq_ok_iff] at h
  obtain ⟨i, h, rfl⟩ := h
  obtain ⟨⟨idx, T₁⟩, hstring, h⟩ := bind_eq_ok_iff.mp h
  obtain ⟨hplaces₁, hidx⟩ := hT.set_string hstring
  dsimp only at h
  split at h
  · obtain ⟨⟨index, T₂⟩, hset, h⟩ := bind_eq_ok_iff.mp h
    cases h
    obtain ⟨new, hplaces₂, hnew⟩ := hplaces₁.sound.constitem_set_places hset
    rw [hplaces₁.held_eq] at hplaces₂
    exact ⟨new, rfl, rfl, ⟨idx, hidx.extends hplaces₂.ext, hnew⟩, hplaces₁.trans hplaces₂⟩
  · cases h

theorem KImage_Add_Var_ok {name : CString} {desc : TypeDesc} {konst : BitVec 32}
    {r : Option Int} (hT : Sound image.table)
    (h : noindex (KImage_Add_Var image name desc konst) = .ok (r, image')) :
    ∃ new, Recorded image image' (.Var name desc konst) r new := by
  rw [noindex_eq_ok_iff] at h
  obtain ⟨h, rfl⟩ := h
  obtain ⟨⟨typeindex, T₁⟩, htype, h⟩ := bind_eq_ok_iff.mp h
  obtain ⟨⟨nameindex, T₂⟩, hname, h⟩ := bind_eq_ok_iff.mp h
  obtain ⟨⟨index, T₃⟩, happend, h⟩ := bind_eq_ok_iff.mp h
  cases h
  obtain ⟨hplaces₁, ht⟩ := hT.set_type htype
  obtain ⟨hplaces₂, hn⟩ := hplaces₁.sound.set_string hname
  obtain ⟨hplaces₃, -, -⟩ := hplaces₂.sound.append_places rfl happend
  rw [hplaces₂.held_eq, hplaces₁.held_eq] at hplaces₃
  exact ⟨_, rfl, rfl, ⟨nameindex, typeindex, rfl, hn.extends hplaces₃.ext,
    (ht.extends hplaces₂.ext).extends hplaces₃.ext⟩, (hplaces₁.trans hplaces₂).trans hplaces₃⟩

theorem KImage_Add_LocVar_ok {name : CString} {desc : TypeDesc} {pos : BitVec 32} {index : Int}
    {r : Option Int} (hT : Sound image.table)
    (h : noindex (KImage_Add_LocVar image name desc pos index) = .ok (r, image')) :
    ∃ new, Recorded image image' (.LocVar name desc pos index) r new := by
  rw [noindex_eq_ok_iff] at h
  obtain ⟨h, rfl⟩ := h
  obtain ⟨⟨typeindex, T₁⟩, htype, h⟩ := bind_eq_ok_iff.mp h
  obtain ⟨⟨nameindex, T₂⟩, hname, h⟩ := bind_eq_ok_iff.mp h
  obtain ⟨⟨i, T₃⟩, happend, h⟩ := bind_eq_ok_iff.mp h
  cases h
  obtain ⟨hplaces₁, ht⟩ := hT.set_type htype
  obtain ⟨hplaces₂, hn⟩ := hplaces₁.sound.set_string hname
  obtain ⟨hplaces₃, -, -⟩ := hplaces₂.sound.append_places rfl happend
  rw [hplaces₂.held_eq, hplaces₁.held_eq] at hplaces₃
  exact ⟨_, rfl, rfl, ⟨nameindex, typeindex, rfl, hn.extends hplaces₃.ext,
    (ht.extends hplaces₂.ext).extends hplaces₃.ext⟩, (hplaces₁.trans hplaces₂).trans hplaces₃⟩

theorem KImage_Add_Func_ok {name : CString} {proto : ProtoDesc} {codes : List UInt8}
    {r : Option Int} (hT : Sound image.table)
    (h : withindex (KImage_Add_Func image name proto codes) = .ok (r, image')) :
    ∃ new, Recorded image image' (.Func name proto codes) r new := by
  rw [withindex_eq_ok_iff] at h
  obtain ⟨i, h, rfl⟩ := h
  obtain ⟨⟨nameindex, T₁⟩, hname, h⟩ := bind_eq_ok_iff.mp h
  obtain ⟨⟨protoindex, T₂⟩, hproto, h⟩ := bind_eq_ok_iff.mp h
  obtain ⟨⟨codeindex, T₃⟩, hcode, h⟩ := bind_eq_ok_iff.mp h
  obtain ⟨⟨index, T₄⟩, happend, h⟩ := bind_eq_ok_iff.mp h
  cases h
  obtain ⟨hplaces₁, hn⟩ := hT.set_string hname
  obtain ⟨hplaces₂, hp⟩ := hplaces₁.sound.set_proto hproto
  obtain ⟨hplaces₃, -, hc⟩ := hplaces₂.sound.append_places rfl hcode
  obtain ⟨hplaces₄, hindex, -⟩ := hplaces₃.sound.append_places rfl happend
  rw [hplaces₁.held_eq] at hplaces₂ hp
  rw [hplaces₂.held_eq] at hplaces₃
  rw [hplaces₃.held_eq] at hplaces₄
  have hplaces := (hplaces₁.trans hplaces₂).trans hplaces₃
  refine ⟨_, rfl, ?_, ⟨nameindex, protoindex, codeindex, rfl,
    ((hn.extends hplaces₂.ext).extends hplaces₃.ext).extends hplaces₄.ext,
    (hp.extends hplaces₃.ext).extends hplaces₄.ext, hplaces₄.ext.get hc⟩, hplaces.trans hplaces₄⟩
  have hcode : Item.ofKind .ITEM_FUNC ⟨.ITEM_CODE, ⟨codes⟩⟩ = none := rfl
  rw [Returns, hindex, AtomTable_Size, hplaces.items .ITEM_FUNC rfl]
  simp [hcode, AtomTable_Size]

theorem KImage_Add_Class_ok {name : CString} {supers : List TypeDesc} {r : Option Int}
    (hT : Sound image.table)
    (h : noindex (KImage_Add_Class image name supers) = .ok (r, image')) :
    ∃ new, Recorded image image' (.Class name supers) r new := by
  rw [noindex_eq_ok_iff] at h
  obtain ⟨h, rfl⟩ := h
  obtain ⟨⟨classindex, T₁⟩, hclass, h⟩ := bind_eq_ok_iff.mp h
  obtain ⟨⟨superindex, T₂⟩, hsuper, h⟩ := bind_eq_ok_iff.mp h
  obtain ⟨⟨index, T₃⟩, happend, h⟩ := bind_eq_ok_iff.mp h
  cases h
  obtain ⟨hplaces₁, hc⟩ := hT.set_class hclass
  obtain ⟨hplaces₂, hs⟩ := hplaces₁.sound.set_list hsuper
  obtain ⟨hplaces₃, -, -⟩ := hplaces₂.sound.append_places rfl happend
  rw [hplaces₁.held_eq] at hplaces₂ hs
  rw [hplaces₂.held_eq] at hplaces₃
  exact ⟨_, rfl, rfl, ⟨classindex, superindex, rfl,
    (hc.extends hplaces₂.ext).extends hplaces₃.ext, hs.extends hplaces₃.ext⟩,
    (hplaces₁.trans hplaces₂).trans hplaces₃⟩

theorem KImage_Add_Field_ok {clazz name : CString} {desc : TypeDesc} {r : Option Int}
    (hT : Sound image.table)
    (h : noindex (KImage_Add_Field image clazz name desc) = .ok (r, image')) :
    ∃ new, Recorded image image' (.Field clazz name desc) r new := by
  rw [noindex_eq_ok_iff] at h
  obtain ⟨h, rfl⟩ := h
  obtain ⟨⟨classindex, T₁⟩, hclass, h⟩ := bind_eq_ok_iff.mp h
  obtain ⟨⟨nameindex, T₂⟩, hname, h⟩ := bind_eq_ok_iff.mp h
  obtain ⟨⟨typeindex, T₃⟩, htype, h⟩ := bind_eq_ok_iff.mp h
  obtain ⟨⟨index, T₄⟩, happend, h⟩ := bind_eq_ok_iff.mp h
  cases h
  obtain ⟨hplaces₁, hc⟩ := hT.set_class hclass
  obtain ⟨hplaces₂, hn⟩ := hplaces₁.sound.set_string hname
  obtain ⟨hplaces₃, ht⟩ := hplaces₂.sound.set_type htype
  obtain ⟨hplaces₄, -, -⟩ := hplaces₃.sound.append_places rfl happend
  rw [hplaces₁.held_eq] at hplaces₂
  rw [hplaces₂.held_eq] at hplaces₃ ht
  rw [hplaces₃.held_eq] at hplaces₄
  exact ⟨_, rfl, rfl, ⟨classindex, nameindex, typeindex, rfl,
    ((hc.extends hplaces₂.ext).extends hplaces₃.ext).extends hplaces₄.ext,
    (hn.extends hplaces₃.ext).extends hplaces₄.ext, ht.extends hplaces₄.ext⟩,
    ((hplaces₁.trans hplaces₂).trans hplaces₃).trans hplaces₄⟩

theorem KImage_Add_Method_ok {klazz name : CString} {proto : ProtoDesc} {codes : List UInt8}
    {r : Option Int} (hT : Sound image.table)
    (h : withindex (KImage_Add_Method image klazz name proto codes) = .ok (r, image')) :
    ∃ new, Recorded image image' (.Method klazz name proto codes) r new := by
  rw [withindex_eq_ok_iff] at h
  obtain ⟨i, h, rfl⟩ := h
  obtain ⟨⟨classindex, T₁⟩, hclass, h⟩ := bind_eq_ok_iff.mp h
  obtain ⟨⟨nameindex, T₂⟩, hname, h⟩ := bind_eq_ok_iff.mp h
  obtain ⟨⟨protoindex, T₃⟩, hproto, h⟩ := bind_eq_ok_iff.mp h
  obtain ⟨⟨codeindex, T₄⟩, hcode, h⟩ := bind_eq_ok_iff.mp h
  obtain ⟨⟨index, T₅⟩, happend, h⟩ := bind_eq_ok_iff.mp h
  cases h
  obtain ⟨hplaces₁, hc⟩ := hT.set_class hclass
  obtain ⟨hplaces₂, hn⟩ := hplaces₁.sound.set_string hname
  obtain ⟨hplaces₃, hp⟩ := hplaces₂.sound.set_proto hproto
  obtain ⟨hplaces₄, -, hcodes⟩ := hplaces₃.sound.append_places rfl hcode
  obtain ⟨hplaces₅, hindex, -⟩ := hplaces₄.sound.append_places rfl happend
  rw [hplaces₁.held_eq] at hplaces₂
  rw [hplaces₂.held_eq] at hplaces₃ hp
  rw [hplaces₃.held_eq] at hplaces₄
  rw [hplaces₄.held_eq] at hplaces₅
  have hplaces := ((hplaces₁.trans hplaces₂).trans hplaces₃).trans hplaces₄
  refine ⟨_, rfl, ?_, ⟨classindex, nameindex, protoindex, codeindex, rfl,
    (((hc.extends hplaces₂.ext).extends hplaces₃.ext).extends hplaces₄.ext).extends hplaces₅.ext,
    ((hn.extends hplaces₃.ext).extends hplaces₄.ext).extends hplaces₅.ext,
    (hp.extends hplaces₄.ext).extends hplaces₅.ext, hplaces₅.ext.get hcodes⟩,
    hplaces.trans hplaces₅⟩
  have hcode : Item.ofKind .ITEM_METHOD ⟨.ITEM_CODE, ⟨codes⟩⟩ = none := rfl
  rw [Returns, hindex, AtomTable_Size, hplaces.items .ITEM_METHOD rfl]
  simp [hcode, AtomTable_Size]

theorem KImage_Add_Trait_ok {name : CString} {traits : List TypeDesc} {r : Option Int}
    (hT : Sound image.table)
    (h : noindex (KImage_Add_Trait image name traits) = .ok (r, image')) :
    ∃ new, Recorded image image' (.Trait name traits) r new := by
  rw [noindex_eq_ok_iff] at h
  obtain ⟨h, rfl⟩ := h
  obtain ⟨⟨classindex, T₁⟩, hclass, h⟩ := bind_eq_ok_iff.mp h
  obtain ⟨⟨traitsindex, T₂⟩, htraits, h⟩ := bind_eq_ok_iff.mp h
  obtain ⟨⟨index, T₃⟩, happend, h⟩ := bind_eq_ok_iff.mp h
  cases h
  obtain ⟨hplaces₁, hc⟩ := hT.set_class hclass
  obtain ⟨hplaces₂, hs⟩ := hplaces₁.sound.set_list htraits
  obtain ⟨hplaces₃, -, -⟩ := hplaces₂.sound.append_places rfl happend
  rw [hplaces₁.held_eq] at hplaces₂ hs
  rw [hplaces₂.held_eq] at hplaces₃
  exact ⟨_, rfl, rfl, ⟨classindex, traitsindex, rfl,
    (hc.extends hplaces₂.ext).extends hplaces₃.ext, hs.extends hplaces₃.ext⟩,
    (hplaces₁.trans hplaces₂).trans hplaces₃⟩

theorem KImage_Add_NFunc_ok {klazz : Option CString} {name : CString} {proto : ProtoDesc}
    {r : Option Int} (hT : Sound image.table)
    (h : noindex (KImage_Add_NFunc image klazz name proto) = .ok (r, image')) :
    ∃ new, Recorded image image' (.NFunc klazz name proto) r new := by
  rw [noindex_eq_ok_iff] at h
  obtain ⟨h, rfl⟩ := h
  obtain ⟨⟨classindex, T₁⟩, hclass, h⟩ := bind_eq_ok_iff.mp h
  obtain ⟨⟨nameindex, T₂⟩, hname, h⟩ := bind_eq_ok_iff.mp h
  obtain ⟨⟨protoindex, T₃⟩, hproto, h⟩ := bind_eq_ok_iff.mp h
  obtain ⟨⟨index, T₄⟩, happend, h⟩ := bind_eq_ok_iff.mp h
  cases h
  obtain ⟨hplaces₁, hc⟩ := hT.set_nfunc_class hclass
  obtain ⟨hplaces₂, hn⟩ := hplaces₁.sound.set_string hname
  obtain ⟨hplaces₃, hp⟩ := hplaces₂.sound.set_proto hproto
  obtain ⟨hplaces₄, -, -⟩ := hplaces₃.sound.append_places rfl happend
  rw [hplaces₁.held_eq] at hplaces₂
  rw [hplaces₂.held_eq] at hplaces₃ hp
  rw [hplaces₃.held_eq] at hplaces₄
  have hplaces := ((hplaces₁.trans hplaces₂).trans hplaces₃).trans hplaces₄
  have hc := ((hc.extends hplaces₂.ext).extends hplaces₃.ext).extends hplaces₄.ext
  have hn := (hn.extends hplaces₃.ext).extends hplaces₄.ext
  have hp := hp.extends hplaces₄.ext
  cases klazz with
  | none => exact ⟨_, rfl, rfl, ⟨classindex, nameindex, protoindex, rfl, hc, hn, hp⟩, hplaces⟩
  | some => exact ⟨_, rfl, rfl, ⟨classindex, nameindex, protoindex, rfl, hc, hn, hp⟩, hplaces⟩

theorem KImage_Add_IMeth_ok {trait name : CString} {proto : ProtoDesc} {r : Option Int}
    (hT : Sound image.table)
    (h : noindex (KImage_Add_IMeth image trait name proto) = .ok (r, image')) :
    ∃ new, Recorded image image' (.IMeth trait name proto) r new := by
  rw [noindex_eq_ok_iff] at h
  obtain ⟨h, rfl⟩ := h
  obtain ⟨⟨classindex, T₁⟩, hclass, h⟩ := bind_eq_ok_iff.mp h
  obtain ⟨⟨nameindex, T₂⟩, hname, h⟩ := bind_eq_ok_iff.mp h
  obtain ⟨⟨protoindex, T₃⟩, hproto, h⟩ := bind_eq_ok_iff.mp h
  obtain ⟨⟨index, T₄⟩, happend, h⟩ := bind_eq_ok_iff.mp h
  cases h
  obtain ⟨hplaces₁, hc⟩ := hT.set_class hclass
  obtain ⟨hplaces₂, hn⟩ := hplaces₁.sound.set_string hname
  obtain ⟨hplaces₃, hp⟩ := hplaces₂.sound.set_proto hproto
  obtain ⟨hplaces₄, -, -⟩ := hplaces₃.sound.append_places rfl happend
  rw [hplaces₁.held_eq] at hplaces₂
  rw [hplaces₂.held_eq] at hplaces₃ hp
  rw [hplaces₃.held_eq] at hplaces₄
  exact ⟨_, rfl, rfl, ⟨classindex, nameindex, protoindex, rfl,
    ((hc.extends hplaces₂.ext).extends hplaces₃.ext).extends hplaces₄.ext,
    (hn.extends hplaces₃.ext).extends hplaces₄.ext, hp.extends hplaces₄.ext⟩,
    ((hplaces₁.trans hplaces₂).trans hplaces₃).trans hplaces₄⟩

/-- Every call is recorded. -/
theorem KImage.add_ok {mem : Memory} {n : Nat} {a : Add} {r : Option Int}
    (hT : Sound image.table) (h : image.add mem n a = .ok (r, image')) :
    ∃ new, Recorded image image' a r new := by
  cases a with
  | Integer | Float | Bool | UChar =>
    obtain ⟨hheader, hr, new, hplaces, hnew⟩ := constants_ok hT h
    exact ⟨new, hheader, hr, hnew, hplaces⟩
  | String => exact KImage_Add_String_ok hT h
  | Var => exact KImage_Add_Var_ok hT h
  | LocVar => exact KImage_Add_LocVar_ok hT h
  | Func => exact KImage_Add_Func_ok hT h
  | Class => exact KImage_Add_Class_ok hT h
  | Field => exact KImage_Add_Field_ok hT h
  | Method => exact KImage_Add_Method_ok hT h
  | Trait => exact KImage_Add_Trait_ok hT h
  | NFunc => exact KImage_Add_NFunc_ok hT h
  | IMeth => exact KImage_Add_IMeth_ok hT h

end adds

/-- The calls of a run with the types they store, and the store after them. -/
noncomputable def storedAll (S : Store) : List Add → List Add × Store
  | [] => ([], S)
  | a :: adds =>
    let b := a.stored S
    let r := storedAll b.2 adds
    (b.1 :: r.1, r.2)

/-- A run is recorded: in its final table, its records describe all the items
it appended, in order. -/
theorem KImage.run_ok {mem : Memory} {adds : List Add} {n : Nat} {image image' : KImage}
    (hT : Sound image.table) (h : KImage.run mem n image adds = .ok image') :
    image'.header = image.header ∧ ∃ new : List (List Item),
      List.Forall₂ (Records image'.table) (storedAll (held image.table) adds).1 new ∧
      Places image.table image'.table (storedAll (held image.table) adds).2 new.flatten := by
  induction adds generalizing n image with
  | nil =>
    cases h
    exact ⟨rfl, [], List.Forall₂.nil, (Grows.refl hT).places⟩
  | cons a adds ih =>
    obtain ⟨⟨r, image₁⟩, hadd, h⟩ := bind_eq_ok_iff.mp h
    obtain ⟨new, hheader, -, hrecords, hplaces⟩ := KImage.add_ok hT hadd
    obtain ⟨hheader', news, hall, hplaces'⟩ := ih hplaces.sound h
    rw [hplaces.held_eq] at hall hplaces'
    exact ⟨hheader'.trans hheader, new :: news,
      List.Forall₂.cons (hrecords.extends hplaces'.ext) hall, hplaces.trans hplaces'⟩

theorem sound_new : Sound (AtomTable_New : Table) where
  wf := koala.atomtable.wf_new ItemKind.unique
  stands type i data h := by
    obtain ⟨n, rfl, hn, _⟩ := AtomTable_Get_some h
    simp [AtomTable_Size, AtomTable_New] at hn

/-- Every table that calls of `KImage_Add_*` can build is sound. -/
theorem KImage.run_sound {mem : Memory} {adds : List Add} {name : Option CString}
    {image : KImage} (h : KImage.run mem 0 (KImage_New name) adds = .ok image) :
    Sound image.table := by
  obtain ⟨_, _, _, hplaces⟩ := KImage.run_ok sound_new h
  exact hplaces.sound

end koala.image

open koala.atomtable koala.typedesc koala.typedesc.Store

namespace koala.image

set_option linter.style.nameCheck false

/-- The type item at index `i` is converted to `t`. -/
def Decodes (T : Table) (i : Int) (t : TypeDesc) : Prop :=
  ∀ fuel, t.depth ≤ fuel → TypeItem_To_TypeDesc T fuel (Get T .ITEM_TYPE i) = .ok t

theorem HoldsType.decodes {T : Table} {i : Int} {t : TypeDesc} (h : HoldsType T i t) :
    Decodes T i t := fun _ hfuel => TypeItem_To_TypeDesc_of_holds h hfuel

/-- What an index decodes to is what it stands for. -/
theorem HoldsType.eq_of_decodes {T : Table} {i : Int} {t u : TypeDesc} (h : HoldsType T i u)
    (hdecodes : Decodes T i t) : t = u := by
  have ht := hdecodes (max t.depth u.depth) (Nat.le_max_left _ _)
  rw [h.decodes (max t.depth u.depth) (Nat.le_max_right _ _)] at ht
  exact (Except.ok.inj ht).symm

/-- `TypeItem_Set` hands out an index that decodes to `t`, now and after every
later call, and that no later call hands out for another descriptor. -/
def SetsIndex (image : KImage) (t : TypeDesc) : Prop :=
  ∃ i table, TypeItem_Set image.table t = .ok (i, table) ∧
    ∀ mem n adds image', KImage.run mem n ⟨image.header, table⟩ adds = .ok image' →
      Decodes image'.table i t ∧
      ∀ t' table', t'.Supported → Clear (held image'.table) t' →
        TypeItem_Set image'.table t' = .ok (i, table') → t' = t

theorem Sound.TypeItem_Set_clear {T T' : Table} (hT : Sound T) {t : TypeDesc} {i : Int}
    (hsupported : t.Supported) (hclear : Clear (held T) t)
    (h : TypeItem_Set T t = .ok (i, T')) : Grows T T' ((held T).add t) ∧ HoldsType T' i t := by
  have hok := hT.TypeItem_Set_ok h
  rwa [put_of_clear t hsupported (held T) (held_closed T) hclear] at hok

theorem Sound.setsIndex_of_clear {image : KImage} (hT : Sound image.table) {t : TypeDesc}
    (hsupported : t.Supported) (hclear : Clear (held image.table) t) : SetsIndex image t := by
  obtain ⟨⟨i, table⟩, hset⟩ := hT.TypeItem_Set_total hsupported
  obtain ⟨hgrows, ht⟩ := hT.TypeItem_Set_clear hsupported hclear hset
  refine ⟨i, table, hset, fun mem n adds image' hrun => ?_⟩
  obtain ⟨_, _, _, hplaces⟩ := KImage.run_ok hgrows.sound hrun
  have hlater := ht.extends hplaces.ext
  refine ⟨hlater.decodes, fun t' table' hsupported' hclear' hset' => ?_⟩
  obtain ⟨hgrows', ht'⟩ := hplaces.sound.TypeItem_Set_clear hsupported' hclear' hset'
  exact ht'.functional (hlater.extends hgrows'.ext)

/-- In every image that the `KImage_Add_*` calls can build, setting a descriptor
without maps and sets hands out an index of its own exactly when none of its
function types is mistaken for another: when its turn comes, a function type is
in the table, or the one with every unknown list emptied is not. -/
theorem TypeItem_Set_denotes_iff {mem : Memory} {name : Option CString} {adds : List Add}
    {image : KImage} (hrun : KImage.run mem 0 (KImage_New name) adds = .ok image)
    {t : TypeDesc} (hsupported : t.Supported) :
    SetsIndex image t ↔ Clear (held image.table) t := by
  have hT := KImage.run_sound hrun
  refine ⟨?_, hT.setsIndex_of_clear hsupported⟩
  rintro ⟨i, table, hset, hlater⟩
  obtain ⟨hdecodes, _⟩ := hlater .evenOdd 0 [] ⟨image.header, table⟩ rfl
  have hput := (hT.TypeItem_Set_ok hset).2.eq_of_decodes hdecodes
  exact ((held_closed image.table).clear_iff_put hsupported).mpr hput.symm

section instances

def nameF : CString := ⟨['f'.toUInt8], by decide⟩

/-- `func()`. -/
def procedure : TypeDesc := .proto [] []

/-- `func(int)`. -/
def intConsumer : TypeDesc := .proto [.base .BASE_INT] []

/-- `var f func()`. -/
def procedureImage : KImage :=
  match KImage.run .evenOdd 0 (KImage_New none) [.Var nameF procedure 0] with
  | .ok image => image
  | .error _ => KImage_New none

theorem procedureImage_run :
    KImage.run .evenOdd 0 (KImage_New none) [.Var nameF procedure 0] = .ok procedureImage := rfl

theorem procedure_clear : Clear (held procedureImage.table) procedure := by
  refine (held_closed _).clear_of_mem ⟨0, holdsType_proto.mpr ⟨0, rfl, -1, -1, rfl, ?_⟩⟩
  exact ⟨holdsList_nil.mpr rfl, holdsList_nil.mpr rfl⟩

theorem TypeItem_Set_denotes_iff_procedure :
    (KImage.run .evenOdd 0 (KImage_New none) [.Var nameF procedure 0] = .ok procedureImage ∧
      procedure.Supported) ∧ SetsIndex procedureImage procedure :=
  ⟨⟨procedureImage_run, trivial, trivial⟩,
    (TypeItem_Set_denotes_iff procedureImage_run (t := procedure) ⟨trivial, trivial⟩).mpr
      procedure_clear⟩

/-- Once `func()` has an index, `func(int)` is given the same one: the list
`[int]` is not in the table, and -1 is also the index of the empty list. -/
theorem TypeItem_Set_confuses :
    ¬ ∀ (mem : Memory) (name : Option CString) (adds : List Add) (image : KImage),
      KImage.run mem 0 (KImage_New name) adds = .ok image →
      ∀ t : TypeDesc, t.Supported →
        ∃ i table, TypeItem_Set image.table t = .ok (i, table) ∧ Decodes table i t := by
  intro h
  obtain ⟨i, table, hset, hdecodes⟩ := h .evenOdd none _ procedureImage procedureImage_run
    intConsumer ⟨⟨trivial, trivial⟩, trivial⟩
  have hfound : TypeItem_Set procedureImage.table intConsumer = .ok (0, procedureImage.table) := rfl
  rw [hfound] at hset
  cases hset
  have hfirst : TypeItem_To_TypeDesc procedureImage.table 2
      (Get procedureImage.table .ITEM_TYPE 0) = .ok procedure := rfl
  rw [hdecodes 2 (by decide)] at hfirst
  simp [intConsumer, procedure] at hfirst

end instances

end koala.image
