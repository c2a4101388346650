import Koala.Image.TypeTable
import Koala.TypeDesc.Clear

open koala.atomtable koala.typedesc

namespace koala.image

set_option linter.style.nameCheck false

def HoldsString (T : Table) (i : Int) (s : CString) : Prop :=
  Get T .ITEM_STRING i = some (StringItem_New s)

/-- A path index, which is -1 for the absent path. -/
def HoldsPath (T : Table) (i : Int) : Option CString → Prop
  | none => i = -1
  | some s => HoldsString T i s

/-- A list index, which is -1 for the empty list. -/
def ListAt (T : Table) (i : Int) (l : List TypeDesc) (each : List Int → Prop) : Prop :=
  (l = [] ∧ i = -1) ∨ (l ≠ [] ∧ ∃ index, Get T .ITEM_TYPELIST i = some ⟨index⟩ ∧ each index)

mutual

/-- The type item at index `i` stands for a descriptor. -/
def HoldsType (T : Table) (i : Int) : TypeDesc → Prop
  | .base type => Get T .ITEM_TYPE i = some ⟨TYPE_BASE, type.letter.toNat, 0⟩
  | .klass path type => ∃ pathindex typeindex,
      Get T .ITEM_TYPE i = some ⟨TYPE_KLASS, pathindex, typeindex⟩ ∧
      HoldsPath T pathindex path ∧ HoldsString T typeindex type
  | .proto arg ret => ∃ protoindex rindex pindex,
      Get T .ITEM_TYPE i = some ⟨TYPE_PROTO, protoindex, 0⟩ ∧
      Get T .ITEM_PROTO protoindex = some ⟨rindex, pindex⟩ ∧
      ListAt T rindex ret (fun index => HoldsEach T index ret) ∧
      ListAt T pindex arg (fun index => HoldsEach T index arg)
  | .array dims base => ∃ typeindex,
      Get T .ITEM_TYPE i = some ⟨TYPE_ARRAY, dims.toInt, typeindex⟩ ∧ HoldsType T typeindex base
  | .map _ _ => False
  | .set _ => False
  | .varg base => ∃ typeindex,
      Get T .ITEM_TYPE i = some ⟨TYPE_VARG, typeindex, 0⟩ ∧ HoldsType T typeindex base

/-- The indices stand for the descriptors, one by one. -/
def HoldsEach (T : Table) (index : List Int) : List TypeDesc → Prop
  | [] => index = []
  | t :: l => ∃ i rest, index = i :: rest ∧ HoldsType T i t ∧ HoldsEach T rest l

end

def HoldsList (T : Table) (i : Int) (l : List TypeDesc) : Prop :=
  ListAt T i l fun index => HoldsEach T index l

def HoldsProto (T : Table) (i : Int) (p : ProtoDesc) : Prop :=
  ∃ rindex pindex, Get T .ITEM_PROTO i = some ⟨rindex, pindex⟩ ∧
    HoldsList T rindex p.ret ∧ HoldsList T pindex p.arg

theorem holdsType_proto {T : Table} {i : Int} {arg ret : List TypeDesc} :
    HoldsType T i (.proto arg ret) ↔ ∃ protoindex,
      Get T .ITEM_TYPE i = some ⟨TYPE_PROTO, protoindex, 0⟩ ∧
      HoldsProto T protoindex ⟨arg, ret⟩ := by
  rw [HoldsType]
  constructor
  · rintro ⟨protoindex, rindex, pindex, hget, hproto, hr, ha⟩
    exact ⟨protoindex, hget, rindex, pindex, hproto, hr, ha⟩
  · rintro ⟨protoindex, hget, rindex, pindex, hproto, hr, ha⟩
    exact ⟨protoindex, rindex, pindex, hget, hproto, hr, ha⟩

theorem get_nonneg {T : Table} {type : ItemKind} {i : Int} {data : ItemData type}
    (h : Get T type i = some data) : 0 ≤ i := by
  obtain ⟨n, rfl, _⟩ := AtomTable_Get_some h
  omega

/-- The kind that is stored for a descriptor. -/
def kindOf : TypeDesc → Int
  | .base _ => TYPE_BASE
  | .klass _ _ => TYPE_KLASS
  | .proto _ _ => TYPE_PROTO
  | .array _ _ => TYPE_ARRAY
  | .map _ _ => TYPE_MAP
  | .set _ => TYPE_SET
  | .varg _ => TYPE_VARG

theorem HoldsType.get {T : Table} {i : Int} {t : TypeDesc} (h : HoldsType T i t) :
    ∃ item, Get T .ITEM_TYPE i = some item ∧ item.kind = kindOf t := by
  cases t with
  | base => exact ⟨_, h, rfl⟩
  | klass =>
    obtain ⟨_, _, hget, _⟩ := h
    exact ⟨_, hget, rfl⟩
  | proto =>
    obtain ⟨_, hget, _⟩ := holdsType_proto.mp h
    exact ⟨_, hget, rfl⟩
  | array =>
    obtain ⟨_, hget, _⟩ := h
    exact ⟨_, hget, rfl⟩
  | map | set => exact h.elim
  | varg =>
    obtain ⟨_, hget, _⟩ := h
    exact ⟨_, hget, rfl⟩

theorem HoldsType.kindOf_eq {T : Table} {i : Int} {t t' : TypeDesc} (h : HoldsType T i t)
    (h' : HoldsType T i t') : kindOf t = kindOf t' := by
  obtain ⟨item, hget, hkind⟩ := h.get
  obtain ⟨item', hget', hkind'⟩ := h'.get
  rw [hget] at hget'
  cases hget'
  rw [← hkind, hkind']

theorem HoldsType.nonneg {T : Table} {i : Int} {t : TypeDesc} (h : HoldsType T i t) : 0 ≤ i := by
  obtain ⟨_, hget, _⟩ := h.get
  exact get_nonneg hget

theorem HoldsList.nonneg_of_ne {T : Table} {i : Int} {l : List TypeDesc} (h : HoldsList T i l)
    (hl : l ≠ []) : 0 ≤ i := by
  rcases h with ⟨hnil, _⟩ | ⟨_, _, hget, _⟩
  · exact absurd hnil hl
  · exact get_nonneg hget

@[simp] theorem holdsList_nil {T : Table} {i : Int} : HoldsList T i [] ↔ i = -1 := by
  simp [HoldsList, ListAt]

theorem holdsList_of_ne {T : Table} {i : Int} {l : List TypeDesc} (hl : l ≠ []) :
    HoldsList T i l ↔
      ∃ index, Get T .ITEM_TYPELIST i = some ⟨index⟩ ∧ HoldsEach T index l := by
  simp [HoldsList, ListAt, hl]

theorem HoldsEach.forall_mem {T : Table} {index : List Int} {l : List TypeDesc}
    (h : HoldsEach T index l) : ∀ t ∈ l, ∃ i, HoldsType T i t := by
  induction l generalizing index with
  | nil => simp
  | cons t l ih =>
    obtain ⟨i, rest, _, ht, hrest⟩ := h
    intro u hu
    rcases List.mem_cons.mp hu with rfl | hu
    · exact ⟨i, ht⟩
    · exact ih hrest u hu

theorem HoldsList.forall_mem {T : Table} {i : Int} {l : List TypeDesc} (h : HoldsList T i l) :
    ∀ t ∈ l, ∃ i, HoldsType T i t := by
  rcases h with ⟨rfl, _⟩ | ⟨_, index, _, heach⟩
  · simp
  · exact heach.forall_mem

/-- Only supported descriptors have an index. -/
theorem HoldsType.supported {T : Table} {i : Int} {t : TypeDesc} (h : HoldsType T i t) :
    t.Supported := by
  induction t using TypeDesc.induct generalizing i with
  | base | klass => trivial
  | proto arg ret harg hret =>
    obtain ⟨_, _, _, _, _, hr, ha⟩ := holdsType_proto.mp h
    refine ⟨TypeDesc.supportedEach_iff.mpr fun t ht => ?_, TypeDesc.supportedEach_iff.mpr fun t ht => ?_⟩
    · obtain ⟨_, hi⟩ := ha.forall_mem t ht
      exact harg t ht hi
    · obtain ⟨_, hi⟩ := hr.forall_mem t ht
      exact hret t ht hi
  | array dims t ih =>
    obtain ⟨_, _, ht⟩ := h
    exact ih ht
  | varg t ih =>
    obtain ⟨_, _, ht⟩ := h
    exact ih ht
  | map | set => exact h.elim

section later

variable {T T' : Table} (hext : Extends T T')

include hext

theorem HoldsString.extends {i : Int} {s : CString} (h : HoldsString T i s) :
    HoldsString T' i s := hext.get h

theorem HoldsPath.extends {i : Int} {path : Option CString} (h : HoldsPath T i path) :
    HoldsPath T' i path := by
  cases path with
  | none => exact h
  | some s => exact HoldsString.extends hext h

omit hext in
theorem HoldsEach.extends_of {l : List TypeDesc}
    (hl : ∀ t ∈ l, ∀ i, HoldsType T i t → HoldsType T' i t) {index : List Int}
    (h : HoldsEach T index l) : HoldsEach T' index l := by
  induction l generalizing index with
  | nil => exact h
  | cons t l ih =>
    obtain ⟨i, rest, heq, ht, hrest⟩ := h
    exact ⟨i, rest, heq, hl t (by simp) i ht, ih (fun u hu => hl u (by simp [hu])) hrest⟩

theorem ListAt.extends {i : Int} {l : List TypeDesc} {each each' : List Int → Prop}
    (heach : ∀ index, each index → each' index) (h : ListAt T i l each) :
    ListAt T' i l each' := by
  rcases h with hnil | ⟨hne, index, hget, h⟩
  · exact Or.inl hnil
  · exact Or.inr ⟨hne, index, hext.get hget, heach index h⟩

/-- An index keeps standing for the same descriptor in every later table. -/
theorem HoldsType.extends {i : Int} {t : TypeDesc} (h : HoldsType T i t) :
    HoldsType T' i t := by
  induction t using TypeDesc.induct generalizing i with
  | base => exact hext.get h
  | klass path type =>
    obtain ⟨pathindex, typeindex, hget, hpath, htype⟩ := h
    exact ⟨pathindex, typeindex, hext.get hget, hpath.extends hext, htype.extends hext⟩
  | proto arg ret harg hret =>
    obtain ⟨protoindex, rindex, pindex, hget, hproto, hr, ha⟩ := h
    refine ⟨protoindex, rindex, pindex, hext.get hget, hext.get hproto, ?_, ?_⟩
    · exact hr.extends hext fun _ =>
        HoldsEach.extends_of fun t ht _ htype => hret t ht htype
    · exact ha.extends hext fun _ =>
        HoldsEach.extends_of fun t ht _ htype => harg t ht htype
  | array dims t ih =>
    obtain ⟨typeindex, hget, ht⟩ := h
    exact ⟨typeindex, hext.get hget, ih ht⟩
  | map | set => exact h
  | varg t ih =>
    obtain ⟨typeindex, hget, ht⟩ := h
    exact ⟨typeindex, hext.get hget, ih ht⟩

theorem HoldsEach.extends {index : List Int} {l : List TypeDesc} (h : HoldsEach T index l) :
    HoldsEach T' index l :=
  HoldsEach.extends_of (fun _ _ _ => HoldsType.extends hext) h

theorem HoldsList.extends {i : Int} {l : List TypeDesc} (h : HoldsList T i l) :
    HoldsList T' i l := ListAt.extends hext (fun _ => HoldsEach.extends hext) h

theorem HoldsProto.extends {i : Int} {p : ProtoDesc} (h : HoldsProto T i p) :
    HoldsProto T' i p := by
  obtain ⟨rindex, pindex, hget, hr, ha⟩ := h
  exact ⟨rindex, pindex, hext.get hget, hr.extends hext, ha.extends hext⟩

end later

section functional

variable {T : Table}

theorem HoldsString.functional {i : Int} {s s' : CString} (h : HoldsString T i s)
    (h' : HoldsString T i s') : s = s' := by
  unfold HoldsString at h h'
  rw [h] at h'
  exact StringItem_New_injective (Option.some.inj h')

theorem HoldsPath.functional {i : Int} {path path' : Option CString} (h : HoldsPath T i path)
    (h' : HoldsPath T i path') : path = path' := by
  have hneg : ∀ {s : CString}, HoldsString T i s → i ≠ -1 := by
    intro s hs
    have hpos := get_nonneg hs
    omega
  cases path with
  | none =>
    cases path' with
    | none => rfl
    | some s => exact absurd h (hneg h')
  | some s =>
    cases path' with
    | none => exact absurd h' (hneg h)
    | some s' => rw [HoldsString.functional h h']

theorem HoldsEach.functional_of {l : List TypeDesc}
    (hl : ∀ t ∈ l, ∀ i t', HoldsType T i t → HoldsType T i t' → t = t') {index : List Int}
    {l' : List TypeDesc} (h : HoldsEach T index l) (h' : HoldsEach T index l') : l = l' := by
  induction l generalizing index l' with
  | nil =>
    cases l' with
    | nil => rfl
    | cons t' l' =>
      obtain ⟨i, rest, heq, _⟩ := h'
      rw [show index = [] from h] at heq
      cases heq
  | cons t l ih =>
    obtain ⟨i, rest, rfl, ht, hrest⟩ := h
    cases l' with
    | nil => cases (show i :: rest = [] from h')
    | cons t' l' =>
      obtain ⟨i', rest', heq, ht', hrest'⟩ := h'
      cases heq
      rw [hl t (by simp) i t' ht ht', ih (fun u hu => hl u (by simp [hu])) hrest hrest']

theorem ListAt.functional {i : Int} {l l' : List TypeDesc} {each each' : List Int → Prop}
    (heach : ∀ index, each index → each' index → l = l') (h : ListAt T i l each)
    (h' : ListAt T i l' each') : l = l' := by
  rcases h with ⟨rfl, rfl⟩ | ⟨hne, index, hget, h⟩
  · rcases h' with ⟨rfl, _⟩ | ⟨_, _, hget', _⟩
    · rfl
    · exact absurd (get_nonneg hget') (by omega)
  · rcases h' with ⟨rfl, rfl⟩ | ⟨hne', index', hget', h'⟩
    · exact absurd (get_nonneg hget) (by omega)
    · rw [hget] at hget'
      cases hget'
      exact heach index h h'

/-- An index stands for one descriptor. -/
theorem HoldsType.functional {i : Int} {t t' : TypeDesc} (h : HoldsType T i t)
    (h' : HoldsType T i t') : t = t' := by
  have hkind := h.kindOf_eq h'
  induction t using TypeDesc.induct generalizing i t' with
  | base b =>
    cases t' with
    | base b' =>
      rw [HoldsType] at h
      rw [HoldsType, h, Option.some.injEq, TypeItem.mk.injEq] at h'
      have hletter := UInt8.toNat_inj.mp (Int.ofNat_inj.mp h'.2.1)
      rw [BaseType.letter_injective hletter]
    | _ => exact absurd hkind (by simp only [kindOf]; decide)
  | klass path type =>
    cases t' with
    | klass path' type' =>
      obtain ⟨pathindex, typeindex, hget, hpath, htype⟩ := h
      obtain ⟨pathindex', typeindex', hget', hpath', htype'⟩ := h'
      rw [hget] at hget'
      cases hget'
      rw [hpath.functional hpath', htype.functional htype']
    | _ => exact absurd hkind (by simp only [kindOf]; decide)
  | proto arg ret harg hret =>
    cases t' with
    | proto arg' ret' =>
      obtain ⟨protoindex, rindex, pindex, hget, hproto, hr, ha⟩ := h
      obtain ⟨protoindex', rindex', pindex', hget', hproto', hr', ha'⟩ := h'
      rw [hget] at hget'
      cases hget'
      rw [hproto] at hproto'
      cases hproto'
      have hrets := hr.functional (fun index => HoldsEach.functional_of
        fun t ht i t' h h' => hret t ht h h' (h.kindOf_eq h')) hr'
      have hargs := ha.functional (fun index => HoldsEach.functional_of
        fun t ht i t' h h' => harg t ht h h' (h.kindOf_eq h')) ha'
      rw [hrets, hargs]
    | _ => exact absurd hkind (by simp only [kindOf]; decide)
  | array dims t ih =>
    cases t' with
    | array dims' t' =>
      obtain ⟨typeindex, hget, ht⟩ := h
      obtain ⟨typeindex', hget', ht'⟩ := h'
      rw [hget, Option.some.injEq, TypeItem.mk.injEq] at hget'
      obtain ⟨-, hdims, rfl⟩ := hget'
      rw [BitVec.eq_of_toInt_eq hdims, ih ht ht' (ht.kindOf_eq ht')]
    | _ => exact absurd hkind (by simp only [kindOf]; decide)
  | map | set => exact h.elim
  | varg t ih =>
    cases t' with
    | varg t' =>
      obtain ⟨typeindex, hget, ht⟩ := h
      obtain ⟨typeindex', hget', ht'⟩ := h'
      rw [hget] at hget'
      cases hget'
      rw [ih ht ht' (ht.kindOf_eq ht')]
    | _ => exact absurd hkind (by simp only [kindOf]; decide)

theorem HoldsEach.functional {index : List Int} {l l' : List TypeDesc} (h : HoldsEach T index l)
    (h' : HoldsEach T index l') : l = l' :=
  HoldsEach.functional_of (fun _ _ _ _ => HoldsType.functional) h h'

theorem HoldsList.functional {i : Int} {l l' : List TypeDesc} (h : HoldsList T i l)
    (h' : HoldsList T i l') : l = l' :=
  ListAt.functional (fun _ => HoldsEach.functional) h h'

theorem HoldsProto.functional {i : Int} {p p' : ProtoDesc} (h : HoldsProto T i p)
    (h' : HoldsProto T i p') : p = p' := by
  obtain ⟨rindex, pindex, hget, hr, ha⟩ := h
  obtain ⟨rindex', pindex', hget', hr', ha'⟩ := h'
  rw [hget] at hget'
  cases hget'
  cases p
  cases p'
  rw [ProtoDesc.mk.injEq]
  exact ⟨ha.functional ha', hr.functional hr'⟩

end functional

end koala.image
