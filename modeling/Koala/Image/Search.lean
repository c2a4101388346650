import Koala.Image.Sound

open koala.atomtable koala.typedesc koala.typedesc.Store

namespace koala.image

set_option linter.style.nameCheck false

variable {T : Table}

/-- The outcome of a search for `t`: its index, or -1 when it is not held. -/
def Found (T : Table) (i : Int) (t : TypeDesc) : Prop :=
  (i = -1 ∧ t ∉ (held T).types) ∨ HoldsType T i t

/-- The outcome of a search for a list, which is -1 for the empty list too. -/
def FoundList (T : Table) (i : Int) (l : List TypeDesc) : Prop :=
  HoldsList T i ((held T).known l)

theorem Found.of_neg {i : Int} {t : TypeDesc} (h : Found T i t) (hi : i < 0) :
    i = -1 ∧ t ∉ (held T).types := by
  rcases h with h | h
  · exact h
  · exact absurd h.nonneg (by omega)

theorem Found.of_nonneg {i : Int} {t : TypeDesc} (h : Found T i t) (hi : ¬ i < 0) :
    HoldsType T i t := by
  rcases h with ⟨rfl, _⟩ | h
  · omega
  · exact h

namespace Sound

/-- A search for a type item whose contents only `t` has. -/
theorem found_of_index (hT : Sound T) {item : TypeItem} {t : TypeDesc}
    (hholds : ∀ i, Get T .ITEM_TYPE i = some item → HoldsType T i t)
    (hitem : ∀ i, HoldsType T i t → Get T .ITEM_TYPE i = some item) :
    Found T (Index T .ITEM_TYPE item) t := by
  rcases hT.index_type item with ⟨hneg, hnone⟩ | hget
  · exact Or.inl ⟨hneg, fun ⟨i, hi⟩ => hnone i (hitem i hi)⟩
  · exact Or.inr (hholds _ hget)

theorem found_base (hT : Sound T) (type : BaseType) :
    Found T (Index T .ITEM_TYPE ⟨TYPE_BASE, type.letter.toNat, 0⟩) (.base type) :=
  hT.found_of_index (fun _ h => h) (fun _ h => h)

theorem found_klass (hT : Sound T) {path : Option CString} {type : CString}
    {pathindex typeindex : Int} (hpath : HoldsPath T pathindex path)
    (htype : HoldsString T typeindex type) :
    Found T (Index T .ITEM_TYPE ⟨TYPE_KLASS, pathindex, typeindex⟩) (.klass path type) := by
  refine hT.found_of_index (fun i h => ⟨pathindex, typeindex, h, hpath, htype⟩) ?_
  rintro i ⟨pathindex', typeindex', hget, hpath', htype'⟩
  rw [hget, hT.path_injective hpath' hpath, hT.string_injective htype' htype]

theorem found_array (hT : Sound T) {dims : BitVec 32} {typeindex : Int} {t : TypeDesc}
    (h : Found T typeindex t) :
    Found T (Index T .ITEM_TYPE ⟨TYPE_ARRAY, dims.toInt, typeindex⟩) (.array dims t) := by
  refine hT.found_of_index (fun i hget => ?_) ?_
  · rcases h with ⟨rfl, _⟩ | h
    · -- no item refers to -1
      obtain ⟨u, hu⟩ := hT.type hget
      obtain ⟨item, hget', hkind⟩ := hu.get
      rw [hget] at hget'
      cases hget'
      cases u with
      | array dims' v =>
        obtain ⟨typeindex, hget', hv⟩ := hu
        rw [hget, Option.some.injEq, TypeItem.mk.injEq] at hget'
        obtain ⟨-, -, rfl⟩ := hget'
        exact absurd hv.nonneg (by omega)
      | _ => exact absurd hkind (by simp only [kindOf]; decide)
    · exact ⟨typeindex, hget, h⟩
  · rintro i ⟨typeindex', hget, ht⟩
    rcases h with ⟨_, hnot⟩ | h
    · exact absurd ⟨typeindex', ht⟩ hnot
    · rw [hget, hT.type_injective ht h]

theorem found_varg (hT : Sound T) {typeindex : Int} {t : TypeDesc} (h : Found T typeindex t) :
    Found T (Index T .ITEM_TYPE ⟨TYPE_VARG, typeindex, 0⟩) (.varg t) := by
  refine hT.found_of_index (fun i hget => ?_) ?_
  · rcases h with ⟨rfl, _⟩ | h
    · obtain ⟨u, hu⟩ := hT.type hget
      obtain ⟨item, hget', hkind⟩ := hu.get
      rw [hget] at hget'
      cases hget'
      cases u with
      | varg v =>
        obtain ⟨typeindex, hget', hv⟩ := hu
        rw [hget] at hget'
        cases hget'
        exact absurd hv.nonneg (by omega)
      | _ => exact absurd hkind (by simp only [kindOf]; decide)
    · exact ⟨typeindex, hget, h⟩
  · rintro i ⟨typeindex', hget, ht⟩
    rcases h with ⟨_, hnot⟩ | h
    · exact absurd ⟨typeindex', ht⟩ hnot
    · rw [hget, hT.type_injective ht h]

theorem ProtoItem_Get_cases (hT : Sound T) {rindex pindex : Int} {p : ProtoDesc}
    (hr : HoldsList T rindex p.ret) (ha : HoldsList T pindex p.arg) :
    (ProtoItem_Get T rindex pindex = -1 ∧ ∀ i, ¬ HoldsProto T i p) ∨
      HoldsProto T (ProtoItem_Get T rindex pindex) p := by
  rcases hT.index_proto ⟨rindex, pindex⟩ with ⟨hneg, hnone⟩ | hget
  · refine Or.inl ⟨hneg, ?_⟩
    rintro i ⟨rindex', pindex', hget, hr', ha'⟩
    rw [hT.list_injective hr' hr, hT.list_injective ha' ha] at hget
    exact hnone i hget
  · exact Or.inr ⟨rindex, pindex, hget, hr, ha⟩

theorem proto_injective (hT : Sound T) {i j : Int} {p : ProtoDesc} (hi : HoldsProto T i p)
    (hj : HoldsProto T j p) : i = j := by
  obtain ⟨rindex, pindex, hget, hr, ha⟩ := hi
  obtain ⟨rindex', pindex', hget', hr', ha'⟩ := hj
  rw [hT.list_injective hr hr', hT.list_injective ha ha'] at hget
  exact hT.proto_item_injective hget hget'

theorem found_proto (hT : Sound T) {rindex pindex : Int} {arg ret : List TypeDesc}
    (hr : HoldsList T rindex ret) (ha : HoldsList T pindex arg) :
    Found T (Index T .ITEM_TYPE ⟨TYPE_PROTO, ProtoItem_Get T rindex pindex, 0⟩)
      (.proto arg ret) := by
  have hcases := hT.ProtoItem_Get_cases (p := ⟨arg, ret⟩) hr ha
  refine hT.found_of_index (fun i hget => ?_) ?_
  · rcases hcases with ⟨hneg, _⟩ | hproto
    · obtain ⟨u, hu⟩ := hT.type hget
      obtain ⟨item, hget', hkind⟩ := hu.get
      rw [hget] at hget'
      cases hget'
      cases u with
      | proto arg' ret' =>
        obtain ⟨k, hget', _, _, hproto, _⟩ := holdsType_proto.mp hu
        rw [hget] at hget'
        cases hget'
        exact absurd (get_nonneg hproto) (by omega)
      | _ => exact absurd hkind (by simp only [kindOf]; decide)
    · exact holdsType_proto.mpr ⟨_, hget, hproto⟩
  · intro i hi
    obtain ⟨k, hget, hproto⟩ := holdsType_proto.mp hi
    rcases hcases with ⟨_, hnone⟩ | hfound
    · exact absurd hproto (hnone k)
    · rw [hget, hT.proto_injective hproto hfound]

/-- The loop over the members of a list and the search for the list. -/
theorem foundList_of_loop (hT : Sound T) {l : List TypeDesc} {found : Option (List Int)}
    (hsome : ∀ index, found = some index → HoldsEach T index l)
    (hnone : found = none → ∃ t ∈ l, t ∉ (held T).types) :
    FoundList T (typelist_index T found) l := by
  unfold FoundList
  cases found with
  | none =>
    obtain ⟨t, ht, hnot⟩ := hnone rfl
    rw [known_of_not_mem fun h => hnot ((held_closed T).member h ht)]
    exact holdsList_nil.mpr rfl
  | some index =>
    have heach := hsome index rfl
    cases index with
    | nil =>
      cases l with
      | nil =>
        rw [known_nil]
        exact holdsList_nil.mpr rfl
      | cons t l =>
        obtain ⟨i, rest, heq, _⟩ := heach
        cases heq
    | cons i index =>
      have hne : l ≠ [] := by
        rintro rfl
        cases (show i :: index = [] from heach)
      rcases hT.index_typelist ⟨i :: index⟩ with ⟨hneg, hnot⟩ | hget
      · have hmem : l ∉ (held T).lists := by
          rintro ⟨_, j, hj⟩
          obtain ⟨index', hget', heach'⟩ := (holdsList_of_ne hne).mp hj
          rw [hT.each_injective heach' heach] at hget'
          exact hnot j hget'
        rw [known_of_not_mem hmem]
        exact holdsList_nil.mpr hneg
      · have hl : HoldsList T (Index T .ITEM_TYPELIST ⟨i :: index⟩) l :=
          (holdsList_of_ne hne).mpr ⟨_, hget, heach⟩
        rw [known_of_mem (show l ∈ (held T).lists from ⟨hne, _, hl⟩)]
        exact hl

/-- The loop of `TypeListItem_Get` finds all members or misses one. -/
theorem typelist_get_of {l : List TypeDesc}
    (hl : ∀ t ∈ l, ∀ i, TypeItem_Get T t = .ok i → Found T i (sought (held T) t))
    {found : Option (List Int)} (h : typelist_get T l = .ok found) :
    (∀ index, found = some index → HoldsEach T index (soughtEach (held T) l)) ∧
      (found = none → ∃ t ∈ soughtEach (held T) l, t ∉ (held T).types) := by
  induction l generalizing found with
  | nil =>
    rw [typelist_get] at h
    cases h
    exact ⟨fun index hindex => (Option.some.inj hindex).symm, by simp⟩
  | cons t l ih =>
    rw [typelist_get, bind_eq_ok_iff] at h
    obtain ⟨i, hi, h⟩ := h
    have ht := hl t (by simp) i hi
    rw [soughtEach]
    split at h
    · next hneg =>
      cases h
      exact ⟨by simp, fun _ => ⟨_, by simp, (ht.of_neg hneg).2⟩⟩
    · next hpos =>
      rw [bind_eq_ok_iff] at h
      obtain ⟨rest, hrest, h⟩ := h
      cases h
      obtain ⟨hsome, hnone⟩ := ih (fun u hu => hl u (by simp [hu])) hrest
      cases rest with
      | none =>
        obtain ⟨u, hu, hnot⟩ := hnone rfl
        exact ⟨by simp, fun _ => ⟨u, by simp [hu], hnot⟩⟩
      | some rest =>
        refine ⟨fun index hindex => ?_, by simp⟩
        cases hindex
        exact ⟨i, rest, rfl, ht.of_nonneg hpos, hsome rest rfl⟩

/-- `TypeItem_Get` finds what the search looks for: lists that the table does
not hold count as empty. -/
theorem TypeItem_Get_found (hT : Sound T) {t : TypeDesc} {i : Int}
    (h : TypeItem_Get T t = .ok i) : Found T i (sought (held T) t) := by
  induction t using TypeDesc.induct generalizing i with
  | base type =>
    cases h
    exact hT.found_base type
  | klass path type =>
    rw [TypeItem_Get] at h
    dsimp only at h
    have hpath : (path_get T path = -1 ∧ path.isSome = true ∧ ∀ i, ¬ HoldsPath T i path) ∨
        HoldsPath T (path_get T path) path := by
      cases path with
      | none => exact Or.inr rfl
      | some s =>
        rcases hT.index_string s with ⟨hneg, hnot⟩ | hs
        · exact Or.inl ⟨hneg, rfl, hnot⟩
        · exact Or.inr hs
    split at h
    · next hif =>
      cases h
      rcases hpath with ⟨hneg, _, hnot⟩ | hpath
      · exact Or.inl ⟨hneg, fun ⟨_, _, _, _, hp, _⟩ => hnot _ hp⟩
      · cases path with
        | none => simp at hif
        | some s =>
          have hpos := get_nonneg hpath
          simp at hif
          omega
    · next hif =>
      rcases hpath with ⟨hneg, hsome, _⟩ | hpath
      · simp [hsome, hneg] at hif
      · rcases hT.index_string type with ⟨hneg, hnot⟩ | htype
        · rw [StringItem_Get, hneg, if_pos (by decide)] at h
          cases h
          exact Or.inl ⟨rfl, fun ⟨_, _, _, _, _, ht⟩ => hnot _ ht⟩
        · have hpos := get_nonneg htype
          rw [StringItem_Get, if_neg (by omega)] at h
          cases h
          exact hT.found_klass hpath htype
  | proto arg ret harg hret =>
    rw [TypeItem_Get, bind_eq_ok_iff] at h
    obtain ⟨rets, hrets, h⟩ := h
    rw [bind_eq_ok_iff] at h
    obtain ⟨args, hargs, h⟩ := h
    cases h
    obtain ⟨hrsome, hrnone⟩ := typelist_get_of (fun t ht i => hret t ht) hrets
    obtain ⟨hasome, hanone⟩ := typelist_get_of (fun t ht i => harg t ht) hargs
    exact hT.found_proto (hT.foundList_of_loop hrsome hrnone) (hT.foundList_of_loop hasome hanone)
  | array dims t ih =>
    rw [TypeItem_Get, bind_eq_ok_iff] at h
    obtain ⟨typeindex, ht, h⟩ := h
    cases h
    exact hT.found_array (ih ht)
  | map | set => cases h
  | varg t ih =>
    rw [TypeItem_Get, bind_eq_ok_iff] at h
    obtain ⟨typeindex, ht, h⟩ := h
    cases h
    exact hT.found_varg (ih ht)

theorem typelist_get_found (hT : Sound T) {l : List TypeDesc} {found : Option (List Int)}
    (h : typelist_get T l = .ok found) :
    (∀ index, found = some index → HoldsEach T index (soughtEach (held T) l)) ∧
      (found = none → ∃ t ∈ soughtEach (held T) l, t ∉ (held T).types) :=
  typelist_get_of (fun _ _ _ => hT.TypeItem_Get_found) h

theorem TypeListItem_Get_found (hT : Sound T) {l : List TypeDesc} {i : Int}
    (h : TypeListItem_Get T l = .ok i) : FoundList T i (soughtEach (held T) l) := by
  rw [TypeListItem_Get, bind_eq_ok_iff] at h
  obtain ⟨found, hfound, h⟩ := h
  cases h
  obtain ⟨hsome, hnone⟩ := hT.typelist_get_found hfound
  exact hT.foundList_of_loop hsome hnone

end Sound

theorem typelist_get_total_of {l : List TypeDesc}
    (hl : ∀ t ∈ l, ∃ i, TypeItem_Get T t = .ok i) : ∃ found, typelist_get T l = .ok found := by
  induction l with
  | nil => exact ⟨_, rfl⟩
  | cons t l ih =>
    obtain ⟨i, hi⟩ := hl t (by simp)
    obtain ⟨found, hfound⟩ := ih fun u hu => hl u (by simp [hu])
    rw [typelist_get, hi, ok_bind]
    split
    · exact ⟨_, rfl⟩
    · exact ⟨_, by rw [hfound, ok_bind]⟩

/-- Searching for a descriptor without maps and sets fails no assertion. -/
theorem TypeItem_Get_total {t : TypeDesc} (h : t.Supported) : ∃ i, TypeItem_Get T t = .ok i := by
  induction t using TypeDesc.induct with
  | base => exact ⟨_, rfl⟩
  | klass path type =>
    rw [TypeItem_Get]
    dsimp only
    split
    · exact ⟨_, rfl⟩
    split <;> exact ⟨_, rfl⟩
  | proto arg ret harg hret =>
    obtain ⟨rets, hrets⟩ := typelist_get_total_of (l := ret)
      fun t ht => hret t ht (TypeDesc.supportedEach_iff.mp h.2 t ht)
    obtain ⟨args, hargs⟩ := typelist_get_total_of (l := arg)
      fun t ht => harg t ht (TypeDesc.supportedEach_iff.mp h.1 t ht)
    rw [TypeItem_Get, hrets, ok_bind, hargs, ok_bind]
    exact ⟨_, rfl⟩
  | array dims t ih | varg t ih =>
    obtain ⟨i, hi⟩ := ih h
    rw [TypeItem_Get, hi, ok_bind]
    exact ⟨_, rfl⟩
  | map | set => exact h.elim

theorem typelist_get_total {l : List TypeDesc} (h : ∀ t ∈ l, t.Supported) :
    ∃ found, typelist_get T l = .ok found :=
  typelist_get_total_of fun t ht => TypeItem_Get_total (h t ht)

end koala.image
