import Koala.Image.Adds

open koala.atomtable koala.typedesc koala.typedesc.Store

namespace koala.image

set_option linter.style.nameCheck false

/-- A lookup of an index field in the table of a kind, and whether the reader
skips negative indices. -/
structure Reader where
  table : ItemKind
  tests : Bool

/-- An index field: the table its writer took the index from and the lookups of
its readers. -/
structure Ref where
  index : Int
  source : ItemKind
  readers : List Reader

/-- The index fields of a type item, which depend on its kind. -/
def typeitem_refs (item : TypeItem) : List Ref :=
  if item.kind = TYPE_KLASS then
    -- TypeItem_To_TypeDesc, typeitem_show, locvaritem_show, varitem_show
    [⟨item.pathindex, .ITEM_STRING, [⟨.ITEM_STRING, true⟩]⟩,
      ⟨item.typeindex, .ITEM_STRING, [⟨.ITEM_STRING, false⟩, ⟨.ITEM_STRING, true⟩]⟩]
  else if item.kind = TYPE_PROTO then
    -- TypeItem_To_TypeDesc
    [⟨item.protoindex, .ITEM_PROTO, [⟨.ITEM_PROTO, false⟩]⟩]
  else if item.kind = TYPE_ARRAY then
    [⟨item.array_typeindex, .ITEM_TYPE, [⟨.ITEM_TYPE, false⟩]⟩]
  else if item.kind = TYPE_VARG then
    [⟨item.varg_typeindex, .ITEM_TYPE, [⟨.ITEM_TYPE, false⟩]⟩]
  else []

/-- The index fields of an item with their readers. -/
def refs : (type : ItemKind) → ItemData type → List Ref
  | .ITEM_MAP, _ => []
  | .ITEM_STRING, _ => []
  | .ITEM_TYPE, item => typeitem_refs item
  -- TypeListItem_To_Vector, typelistitem_show
  | .ITEM_TYPELIST, item => item.index.map fun i => ⟨i, .ITEM_TYPE, [⟨.ITEM_TYPE, false⟩]⟩
  -- ProtoItem_To_TypeDesc
  | .ITEM_PROTO, item =>
    [⟨item.rindex, .ITEM_TYPELIST, [⟨.ITEM_TYPELIST, true⟩]⟩,
      ⟨item.pindex, .ITEM_TYPELIST, [⟨.ITEM_TYPELIST, true⟩]⟩]
  -- KImage_Get_Consts, constitem_show
  | .ITEM_CONST, item =>
    match item.val with
    | .CONST_STRING index => [⟨index, .ITEM_STRING, [⟨.ITEM_STRING, false⟩]⟩]
    | _ => []
  -- KImage_Get_LocVars, locvaritem_show
  | .ITEM_LOCVAR, item =>
    [⟨item.nameindex, .ITEM_STRING, [⟨.ITEM_STRING, false⟩]⟩,
      ⟨item.typeindex, .ITEM_TYPE, [⟨.ITEM_TYPE, false⟩]⟩]
  -- KImage_Get_Vars, varitem_show
  | .ITEM_VAR, item =>
    [⟨item.nameindex, .ITEM_STRING, [⟨.ITEM_STRING, false⟩]⟩,
      ⟨item.typeindex, .ITEM_TYPE, [⟨.ITEM_TYPE, false⟩]⟩]
  -- KImage_Get_Funcs, funcitem_show
  | .ITEM_FUNC, item =>
    [⟨item.nameindex, .ITEM_STRING, [⟨.ITEM_STRING, false⟩]⟩,
      ⟨item.protoindex, .ITEM_PROTO, [⟨.ITEM_PROTO, false⟩]⟩,
      ⟨item.codeindex, .ITEM_CODE, [⟨.ITEM_CODE, false⟩]⟩]
  | .ITEM_CODE, _ => []
  -- classitem_show; nothing looks the class index up
  | .ITEM_CLASS, item =>
    [⟨item.classindex, .ITEM_TYPE, []⟩,
      ⟨item.superindex, .ITEM_TYPELIST, [⟨.ITEM_TYPE, true⟩]⟩]
  -- fielditem_show
  | .ITEM_FIELD, item =>
    [⟨item.classindex, .ITEM_TYPE, []⟩,
      ⟨item.nameindex, .ITEM_STRING, [⟨.ITEM_STRING, false⟩]⟩,
      ⟨item.typeindex, .ITEM_TYPE, [⟨.ITEM_TYPE, false⟩]⟩]
  -- methoditem_show
  | .ITEM_METHOD, item =>
    [⟨item.classindex, .ITEM_TYPE, []⟩,
      ⟨item.nameindex, .ITEM_STRING, [⟨.ITEM_STRING, false⟩]⟩,
      ⟨item.protoindex, .ITEM_PROTO, []⟩,
      ⟨item.codeindex, .ITEM_CODE, []⟩]
  -- traititem_show
  | .ITEM_TRAIT, item =>
    [⟨item.classindex, .ITEM_TYPE, [⟨.ITEM_TYPE, false⟩]⟩,
      ⟨item.traitsindex, .ITEM_TYPELIST, [⟨.ITEM_TYPELIST, true⟩]⟩]
  -- KImage_Get_NFuncs, nfuncitem_show
  | .ITEM_NFUNC, item =>
    [⟨item.classindex, .ITEM_TYPE, []⟩,
      ⟨item.nameindex, .ITEM_STRING, [⟨.ITEM_STRING, false⟩]⟩,
      ⟨item.protoindex, .ITEM_PROTO, [⟨.ITEM_PROTO, false⟩]⟩]
  -- imethitem_show
  | .ITEM_IMETH, item =>
    [⟨item.classindex, .ITEM_TYPE, []⟩,
      ⟨item.nameindex, .ITEM_STRING, [⟨.ITEM_STRING, false⟩]⟩,
      ⟨item.protoindex, .ITEM_PROTO, []⟩]

def Valid (T : Table) (type : ItemKind) (i : Int) : Prop := ∃ data, Get T type i = some data

/-- The index is the -1 that the reader tests for, or valid in the table where
the reader looks it up, which is the one it was taken from. -/
def Reader.Meets (T : Table) (ref : Ref) (reader : Reader) : Prop :=
  (reader.tests = true ∧ ref.index = -1) ∨
    (reader.table = ref.source ∧ Valid T reader.table ref.index)

/-- Every reader of the field is met; a field without readers holds -1 or an
index of its table. -/
structure Ref.Closed (T : Table) (ref : Ref) : Prop where
  valid : ref.index = -1 ∨ Valid T ref.source ref.index
  meets : ∀ reader ∈ ref.readers, reader.Meets T ref

/-- Every index stored in an item is closed and typed. -/
def Linked (T : Table) : Prop :=
  ∀ type i data, Get T type i = some data → ∀ ref ∈ refs type data, ref.Closed T

section closed

variable {T : Table}

theorem closed_of_valid {i : Int} {type : ItemKind} (tests : List Bool) (h : Valid T type i) :
    (Ref.mk i type (tests.map (Reader.mk type))).Closed T where
  valid := Or.inr h
  meets reader hreader := by
    obtain ⟨b, _, rfl⟩ := List.mem_map.mp hreader
    exact Or.inr ⟨rfl, h⟩

theorem closed_of_tested {i : Int} {type : ItemKind} (h : i = -1 ∨ Valid T type i) :
    (Ref.mk i type [⟨type, true⟩]).Closed T where
  valid := h
  meets reader hreader := by
    rw [List.mem_singleton.mp hreader]
    exact h.imp (fun hneg => ⟨rfl, hneg⟩) fun hvalid => ⟨rfl, hvalid⟩

theorem closed_of_unread {i : Int} {type : ItemKind} (h : i = -1 ∨ Valid T type i) :
    (Ref.mk i type []).Closed T where
  valid := h
  meets := by simp

theorem HoldsString.valid {i : Int} {s : CString} (h : HoldsString T i s) :
    Valid T .ITEM_STRING i := ⟨_, h⟩

theorem HoldsPath.valid {i : Int} {path : Option CString} (h : HoldsPath T i path) :
    i = -1 ∨ Valid T .ITEM_STRING i := by
  cases path with
  | none => exact Or.inl h
  | some s => exact Or.inr ⟨_, h⟩

theorem HoldsType.valid {i : Int} {t : TypeDesc} (h : HoldsType T i t) : Valid T .ITEM_TYPE i := by
  obtain ⟨item, hget, _⟩ := h.get
  exact ⟨item, hget⟩

theorem HoldsProto.valid {i : Int} {p : ProtoDesc} (h : HoldsProto T i p) :
    Valid T .ITEM_PROTO i := by
  obtain ⟨rindex, pindex, hget, _⟩ := h
  exact ⟨_, hget⟩

theorem HoldsList.valid {i : Int} {l : List TypeDesc} (h : HoldsList T i l) :
    i = -1 ∨ Valid T .ITEM_TYPELIST i := by
  rcases h with ⟨_, hneg⟩ | ⟨_, index, hget, _⟩
  · exact Or.inl hneg
  · exact Or.inr ⟨_, hget⟩

theorem HoldsClass.valid {i : Int} {klazz : Option CString} (h : HoldsClass T i klazz) :
    i = -1 ∨ Valid T .ITEM_TYPE i := by
  cases klazz with
  | none => exact Or.inl h
  | some klazz => exact Or.inr (HoldsType.valid h)

theorem HoldsEach.valid {index : List Int} {l : List TypeDesc} (h : HoldsEach T index l) :
    ∀ i ∈ index, Valid T .ITEM_TYPE i := by
  induction l generalizing index with
  | nil => simp [show index = [] from h]
  | cons t l ih =>
    obtain ⟨j, rest, rfl, ht, hrest⟩ := h
    intro i hi
    rcases List.mem_cons.mp hi with rfl | hi
    · exact ht.valid
    · exact ih hrest i hi

theorem typeitem_refs_closed {i : Int} {t : TypeDesc} {item : TypeItem} (h : HoldsType T i t)
    (hget : Get T .ITEM_TYPE i = some item) : ∀ ref ∈ typeitem_refs item, ref.Closed T := by
  cases t with
  | base type =>
    rw [HoldsType, hget] at h
    cases h
    simp [typeitem_refs, TYPE_BASE, TYPE_KLASS, TYPE_PROTO, TYPE_ARRAY, TYPE_VARG]
  | klass path type =>
    obtain ⟨pathindex, typeindex, hget', hpath, htype⟩ := h
    rw [hget] at hget'
    cases hget'
    simp only [typeitem_refs, if_true, List.forall_mem_cons]
    exact ⟨closed_of_tested hpath.valid, closed_of_valid [false, true] htype.valid,
      by simp⟩
  | proto arg ret =>
    obtain ⟨protoindex, hget', hproto⟩ := holdsType_proto.mp h
    rw [hget] at hget'
    cases hget'
    have hklass : TYPE_PROTO ≠ TYPE_KLASS := by decide
    simp only [typeitem_refs, if_neg hklass, if_true, List.forall_mem_singleton]
    exact closed_of_valid [false] hproto.valid
  | array dims base =>
    obtain ⟨typeindex, hget', hbase⟩ := h
    rw [hget] at hget'
    cases hget'
    have hklass : TYPE_ARRAY ≠ TYPE_KLASS := by decide
    have hproto : TYPE_ARRAY ≠ TYPE_PROTO := by decide
    simp only [typeitem_refs, if_neg hklass, if_neg hproto, if_true, List.forall_mem_singleton]
    exact closed_of_valid [false] hbase.valid
  | map | set => exact h.elim
  | varg base =>
    obtain ⟨typeindex, hget', hbase⟩ := h
    rw [hget] at hget'
    cases hget'
    have hklass : TYPE_VARG ≠ TYPE_KLASS := by decide
    have hproto : TYPE_VARG ≠ TYPE_PROTO := by decide
    have harray : TYPE_VARG ≠ TYPE_ARRAY := by decide
    simp only [typeitem_refs, if_neg hklass, if_neg hproto, if_neg harray, if_true,
      List.forall_mem_singleton]
    exact closed_of_valid [false] hbase.valid

/-- The fields of the items that describe types are always closed. -/
theorem Sound.types_linked (hT : Sound T) {type : ItemKind} (htype : type.ofTypes = true)
    {i : Int} {data : ItemData type} (hget : Get T type i = some data) :
    ∀ ref ∈ refs type data, ref.Closed T := by
  cases type with
  | ITEM_STRING => simp [refs]
  | ITEM_TYPE =>
    obtain ⟨t, ht⟩ := hT.type hget
    exact typeitem_refs_closed ht hget
  | ITEM_TYPELIST =>
    obtain ⟨l, hne, hl⟩ := hT.typelist hget
    obtain ⟨index, hget', heach⟩ := (holdsList_of_ne hne).mp hl
    rw [hget] at hget'
    cases hget'
    intro ref href
    obtain ⟨j, hj, rfl⟩ := List.mem_map.mp href
    exact closed_of_valid [false] (heach.valid j hj)
  | ITEM_PROTO =>
    obtain ⟨p, rindex, pindex, hget', hr, ha⟩ := hT.proto hget
    rw [hget] at hget'
    cases hget'
    simp only [refs, List.forall_mem_cons]
    exact ⟨closed_of_tested hr.valid, closed_of_tested ha.valid, by simp⟩
  | _ => cases htype

end closed

theorem Item.ofKind_eq_some_iff {type : ItemKind} {item : Item} {data : ItemData type} :
    Item.ofKind type item = some data ↔ item = ⟨type, data⟩ := by
  constructor
  · intro h
    obtain ⟨other, found⟩ := item
    by_cases heq : other = type
    · subst heq
      rw [Item.ofKind_self, Option.some.injEq] at h
      rw [h]
    · rw [Item.ofKind_of_ne _ heq] at h
      cases h
  · rintro rfl
    exact Item.ofKind_self type data

/-- Starting from the empty table, the items that describe no types are those
that were appended. -/
theorem Places.get_iff {T : Table} {S : Store} {new : List Item}
    (h : Places AtomTable_New T S new) {type : ItemKind} (htype : type.ofTypes = false)
    {data : ItemData type} : (∃ i, Get T type i = some data) ↔ (⟨type, data⟩ : Item) ∈ new := by
  have hmem : data ∈ T.items type ↔ (⟨type, data⟩ : Item) ∈ new := by
    rw [h.items type htype]
    simp [AtomTable_New, Item.ofKind_eq_some_iff]
  rw [← hmem]
  constructor
  · rintro ⟨i, hi⟩
    obtain ⟨n, _, _, hdata⟩ := AtomTable_Get_some hi
    exact List.mem_of_getElem? hdata
  · intro hdata
    obtain ⟨n, hn⟩ := List.mem_iff_getElem?.mp hdata
    exact ⟨n, by rw [Get, AtomTable_Get_of_nonneg, hn]⟩

/-- A recorded item belongs to the record of some call. -/
theorem exists_record {T : Table} {adds : List Add} {new : List (List Item)} {item : Item}
    (h : List.Forall₂ (Records T) adds new) (hitem : item ∈ new.flatten) :
    ∃ a ∈ adds, ∃ items, Records T a items ∧ item ∈ items := by
  induction h with
  | nil => simp at hitem
  | @cons a items adds new ha _ ih =>
    rw [List.flatten_cons, List.mem_append] at hitem
    rcases hitem with hitem | hitem
    · exact ⟨a, by simp, items, ha, hitem⟩
    · obtain ⟨b, hb, hrecord⟩ := ih hitem
      exact ⟨b, by simp [hb], hrecord⟩

/-- A call has its record. -/
theorem record_of_mem {T : Table} {adds : List Add} {new : List (List Item)} {a : Add}
    (h : List.Forall₂ (Records T) adds new) (ha : a ∈ adds) :
    ∃ items, Records T a items ∧ ∀ item ∈ items, item ∈ new.flatten := by
  induction h with
  | nil => simp at ha
  | @cons b items adds new hb _ ih =>
    rcases List.mem_cons.mp ha with rfl | ha
    · exact ⟨items, hb, fun item hitem => by simp [hitem]⟩
    · obtain ⟨items', hrecords, hmem⟩ := ih ha
      exact ⟨items', hrecords, fun item hitem => by
        rw [List.flatten_cons]
        exact List.mem_append_right _ (hmem item hitem)⟩

/-- The supers of a class are stored: a list that is not empty stays so. -/
theorem class_stored {adds : List Add} {S : Store} {name : CString} {supers : List TypeDesc}
    (h : .Class name supers ∈ adds) :
    ∃ l, (supers ≠ [] → l ≠ []) ∧ .Class name l ∈ (storedAll S adds).1 := by
  induction adds generalizing S with
  | nil => simp at h
  | cons a adds ih =>
    rw [storedAll]
    rcases List.mem_cons.mp h with rfl | h
    · refine ⟨((S.addType (.klass none name)).putTypes supers).1, fun hne => ?_, by
        simp [Add.stored]⟩
      rw [putTypes, putList, if_neg hne]
      split
      · next hmem =>
        cases supers with
        | nil => exact absurd rfl hne
        | cons t l => simp [soughtEach]
      · exact putEach_ne_nil hne
    · obtain ⟨l, hne, hl⟩ := ih (S := (a.stored S).2) h
      exact ⟨l, hne, by simp [hl]⟩

/-- The classes that are stored without supers were given none. -/
theorem class_of_stored {adds : List Add} {S : Store} {name : CString} {l : List TypeDesc}
    (h : .Class name l ∈ (storedAll S adds).1) :
    ∃ supers, .Class name supers ∈ adds ∧ (supers = [] → l = []) := by
  induction adds generalizing S with
  | nil => simp [storedAll] at h
  | cons a adds ih =>
    rw [storedAll] at h
    rcases List.mem_cons.mp h with h | h
    · cases a with
      | Class name' supers =>
        rw [Add.stored] at h
        injection h with hname hl
        subst hname
        refine ⟨supers, by simp, fun hnil => ?_⟩
        rw [hl, hnil, putTypes, putList_nil]
      | NFunc klazz => cases klazz <;> simp [Add.stored] at h
      | _ => simp [Add.stored] at h
    · obtain ⟨supers, hmem, hnil⟩ := ih h
      exact ⟨supers, by simp [hmem], hnil⟩

/-- The fields of a recorded item are closed, those of a class when it has no
supers. -/
theorem Records.linked {T : Table} {a : Add} {items : List Item} (h : Records T a items)
    (hclass : ∀ name supers, a = .Class name supers → supers = []) :
    ∀ item ∈ items, ∀ ref ∈ refs item.1 item.2, ref.Closed T := by
  cases a with
  | Integer | Float | Bool | UChar =>
    rcases h with rfl | ⟨addr, rfl⟩
    · simp
    · simp [refs]
  | String val =>
    obtain ⟨index, hs, rfl | ⟨addr, rfl⟩⟩ := h
    · simp
    · simp only [refs, List.forall_mem_singleton]
      exact closed_of_valid [false] hs.valid
  | Var | LocVar =>
    obtain ⟨nameindex, typeindex, rfl, hname, htype⟩ := h
    simp only [refs, List.forall_mem_singleton, List.forall_mem_cons]
    exact ⟨closed_of_valid [false] hname.valid, closed_of_valid [false] htype.valid⟩
  | Func name proto codes =>
    obtain ⟨nameindex, protoindex, codeindex, rfl, hname, hproto, hcode⟩ := h
    simp only [refs, List.forall_mem_singleton, List.forall_mem_cons]
    exact ⟨by simp, closed_of_valid [false] hname.valid, closed_of_valid [false] hproto.valid,
      closed_of_valid [false] ⟨_, hcode⟩⟩
  | Class name supers =>
    obtain ⟨classindex, superindex, rfl, hc, hsuper⟩ := h
    rw [hclass name supers rfl, holdsList_nil] at hsuper
    simp only [refs, List.forall_mem_singleton, List.forall_mem_cons]
    refine ⟨closed_of_unread (Or.inr hc.valid), ⟨Or.inl hsuper, fun reader hreader => ?_⟩⟩
    rw [List.mem_singleton.mp hreader]
    exact Or.inl ⟨rfl, hsuper⟩
  | Field =>
    obtain ⟨classindex, nameindex, typeindex, rfl, hc, hname, htype⟩ := h
    simp only [refs, List.forall_mem_singleton, List.forall_mem_cons]
    exact ⟨closed_of_unread (Or.inr hc.valid), closed_of_valid [false] hname.valid,
      closed_of_valid [false] htype.valid⟩
  | Method =>
    obtain ⟨classindex, nameindex, protoindex, codeindex, rfl, hc, hname, hproto, hcode⟩ := h
    simp only [refs, List.forall_mem_singleton, List.forall_mem_cons]
    exact ⟨by simp, closed_of_unread (Or.inr hc.valid), closed_of_valid [false] hname.valid,
      closed_of_unread (Or.inr hproto.valid), closed_of_unread (Or.inr ⟨_, hcode⟩)⟩
  | Trait =>
    obtain ⟨classindex, traitsindex, rfl, hc, htraits⟩ := h
    simp only [refs, List.forall_mem_singleton, List.forall_mem_cons]
    exact ⟨closed_of_valid [false] hc.valid, closed_of_tested htraits.valid⟩
  | NFunc =>
    obtain ⟨classindex, nameindex, protoindex, rfl, hc, hname, hproto⟩ := h
    simp only [refs, List.forall_mem_singleton, List.forall_mem_cons]
    exact ⟨closed_of_unread hc.valid, closed_of_valid [false] hname.valid,
      closed_of_valid [false] hproto.valid⟩
  | IMeth =>
    obtain ⟨classindex, nameindex, protoindex, rfl, hc, hname, hproto⟩ := h
    simp only [refs, List.forall_mem_singleton, List.forall_mem_cons]
    exact ⟨closed_of_unread (Or.inr hc.valid), closed_of_valid [false] hname.valid,
      closed_of_unread (Or.inr hproto.valid)⟩

/-- In every image that the `KImage_Add_*` calls can build, every index stored in
an item is closed and typed exactly when no class was added with supers: the
super index of a class comes from the type lists but `classitem_show` looks it
up among the types. -/
theorem KImage.linked_iff {mem : Memory} {name : Option CString} {adds : List Add}
    {image : KImage} (hrun : KImage.run mem 0 (KImage_New name) adds = .ok image) :
    Linked image.table ↔ ∀ name supers, .Class name supers ∈ adds → supers = [] := by
  obtain ⟨_, new, hrecords, hplaces⟩ := KImage.run_ok sound_new hrun
  constructor
  · intro hlinked cname supers hmem
    by_contra hne
    obtain ⟨l, hl, hstored⟩ := class_stored hmem
    obtain ⟨items, ⟨classindex, superindex, rfl, _, hsuper⟩, hitems⟩ :=
      record_of_mem hrecords hstored
    obtain ⟨i, hi⟩ := (hplaces.get_iff (show ItemKind.ITEM_CLASS.ofTypes = false from rfl)).mpr
      (hitems _ (List.mem_singleton_self _))
    have hpos := hsuper.nonneg_of_ne (hl hne)
    have hclosed := hlinked .ITEM_CLASS i _ hi ⟨superindex, .ITEM_TYPELIST, [⟨.ITEM_TYPE, true⟩]⟩
      (by simp [refs])
    rcases hclosed.meets ⟨.ITEM_TYPE, true⟩ (by simp) with ⟨_, hneg⟩ | ⟨htable, _⟩
    · dsimp only at hneg
      omega
    · cases htable
  · intro hsupers type i data hget
    cases htype : type.ofTypes with
    | true => exact hplaces.sound.types_linked htype hget
    | false =>
      have hmem := (hplaces.get_iff htype).mp ⟨i, hget⟩
      obtain ⟨a, ha, items, hrecord, hitem⟩ := exists_record hrecords hmem
      refine hrecord.linked (fun cname l heq => ?_) _ hitem
      subst heq
      obtain ⟨supers, hclass, hnil⟩ := class_of_stored ha
      exact hnil (hsupers cname supers hclass)

section instances

def nameA : CString := ⟨['A'.toUInt8], by decide⟩

def nameB : CString := ⟨['B'.toUInt8], by decide⟩

theorem KImage.linked_iff_procedure :
    KImage.run .evenOdd 0 (KImage_New none) [.Var nameF procedure 0] = .ok procedureImage ∧
      Linked procedureImage.table :=
  ⟨procedureImage_run, (KImage.linked_iff procedureImage_run).mpr (by simp)⟩

/-- `class A extends B`. -/
def subclassImage : KImage :=
  match KImage.run .evenOdd 0 (KImage_New none) [.Class nameA [.klass none nameB]] with
  | .ok image => image
  | .error _ => KImage_New none

/-- The super index 0 of `A` is that of the list `[B]`, but is looked up as the
type `A`. -/
theorem KImage.not_linked :
    ¬ ∀ (mem : Memory) (name : Option CString) (adds : List Add) (image : KImage),
      KImage.run mem 0 (KImage_New name) adds = .ok image → Linked image.table := by
  intro h
  have hlinked := h .evenOdd none _ subclassImage (rfl : KImage.run .evenOdd 0 (KImage_New none)
    [.Class nameA [.klass none nameB]] = .ok subclassImage)
  have hget : Get subclassImage.table .ITEM_CLASS 0 = some ⟨0, 0⟩ := rfl
  have hclosed := hlinked .ITEM_CLASS 0 _ hget ⟨0, .ITEM_TYPELIST, [⟨.ITEM_TYPE, true⟩]⟩
    (by simp [refs])
  rcases hclosed.meets ⟨.ITEM_TYPE, true⟩ (by simp) with ⟨_, hneg⟩ | ⟨htable, _⟩
  · exact absurd hneg (by decide)
  · cases htable

end instances

end koala.image
