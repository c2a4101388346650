import Koala.Image.Adds
import Koala.Image.Outcome
import Koala.TypeDesc.Text

open koala.atomtable koala.typedesc koala.typedesc.Store

namespace koala.image

set_option linter.style.nameCheck false

/-- The images that calls of `KImage_Add_*` can build. -/
def Built (image : KImage) : Prop :=
  ∃ mem name adds, KImage.run mem 0 (KImage_New name) adds = .ok image

variable {image image' : KImage} {t : TypeDesc}

theorem Built.sound (h : Built image) : Sound image.table := by
  obtain ⟨_, _, _, hrun⟩ := h
  exact KImage.run_sound hrun

theorem Built.new (name : Option CString) : Built (KImage_New name) := ⟨.evenOdd, name, [], rfl⟩

theorem Built.add (h : Built image) {a : Add}
    (hadd : ∀ mem n, ∃ r, image.add mem n a = .ok (r, image')) : Built image' := by
  obtain ⟨mem, name, adds, hrun⟩ := h
  obtain ⟨r, hadd⟩ := hadd mem (0 + adds.length)
  refine ⟨mem, name, adds ++ [a], ?_⟩
  rw [KImage.run_append hrun, KImage.run, hadd]
  rfl

theorem KImage_Add_Var_total (hT : Sound image.table) (name : CString) (konst : BitVec 32)
    (hsupported : t.Supported) : ∃ image', KImage_Add_Var image name t konst = .ok image' := by
  obtain ⟨⟨typeindex, T₁⟩, htype⟩ := hT.TypeItem_Set_total hsupported
  obtain ⟨⟨nameindex, T₂⟩, hname⟩ := (hT.TypeItem_Set_ok htype).1.sound.StringItem_Set_total name
  rw [KImage_Add_Var, htype, ok_bind]
  dsimp only
  rw [hname, ok_bind]
  exact ⟨_, rfl⟩

theorem KImage_Add_Trait_total (hT : Sound image.table) (name : CString) {l : List TypeDesc}
    (hsupported : ∀ t ∈ l, t.Supported) : ∃ image', KImage_Add_Trait image name l = .ok image' := by
  obtain ⟨⟨classindex, T₁⟩, hclass⟩ := hT.TypeItem_Set_total (t := .klass none name) trivial
  obtain ⟨⟨traitsindex, T₂⟩, htraits⟩ :=
    (hT.TypeItem_Set_ok hclass).1.sound.TypeListItem_Set_total hsupported
  rw [KImage_Add_Trait, hclass, ok_bind]
  dsimp only
  rw [htraits, ok_bind]
  exact ⟨_, rfl⟩

/-- A variable of the type, under some name. -/
theorem Built.var (h : Built image) (hsupported : t.Supported)
    (hclear : Clear (held image.table) t) :
    ∃ image', Built image' ∧ held image'.table = (held image.table).add t := by
  obtain ⟨image', hvar⟩ := KImage_Add_Var_total h.sound nameF 0 hsupported
  have hadd : ∀ mem n, image.add mem n (.Var nameF t 0) = .ok (none, image') := by
    intro mem n
    rw [KImage.add, hvar]
    rfl
  obtain ⟨_, _, _, _, hplaces⟩ := KImage.add_ok h.sound (hadd .evenOdd 0)
  refine ⟨image', h.add fun mem n => ⟨_, hadd mem n⟩, ?_⟩
  have hput := put_of_clear t hsupported _ (held_closed image.table) hclear
  rw [hplaces.held_eq, Add.stored, hput]

/-- A trait above the types of a list, under some name. -/
theorem Built.trait (h : Built image) {l : List TypeDesc} (hsupported : ∀ t ∈ l, t.Supported)
    (hheld : ∀ t ∈ l, t ∈ (held image.table).types) :
    ∃ image', Built image' ∧
      held image'.table = ((held image.table).add (.klass none nameF)).addList l := by
  obtain ⟨image', htrait⟩ := KImage_Add_Trait_total h.sound nameF hsupported
  have hadd : ∀ mem n, image.add mem n (.Trait nameF l) = .ok (none, image') := by
    intro mem n
    rw [KImage.add, htrait]
    rfl
  obtain ⟨_, _, _, _, hplaces⟩ := KImage.add_ok h.sound (hadd .evenOdd 0)
  refine ⟨image', h.add fun mem n => ⟨_, hadd mem n⟩, ?_⟩
  have hclosed := (held_closed image.table).add (.klass none nameF)
  have hclear : ClearEach ((held image.table).add (.klass none nameF)) l :=
    hclosed.clearEach_of_mem fun t ht => Or.inl (hheld t ht)
  rw [hplaces.held_eq, Add.stored]
  dsimp only
  rw [← add_klass, putTypes, hclosed.putList_of_clear hsupported hclear]

/-- More can be built on an image, such that the types hold what it held. -/
def Extendable (image : KImage) (goal : KImage → Prop) : Prop :=
  ∃ image', Built image' ∧ (held image.table).types ⊆ (held image'.table).types ∧ goal image'

/-- One after the other. -/
theorem extendable_each_of {l : List TypeDesc}
    (hl : ∀ t ∈ l, ∀ image, Built image →
      Extendable image fun image' => t ∈ (held image'.table).types) (h : Built image) :
    Extendable image fun image' => ∀ t ∈ l, t ∈ (held image'.table).types := by
  induction l generalizing image with
  | nil => exact ⟨image, h, subset_rfl, by simp⟩
  | cons t l ih =>
    obtain ⟨image₁, hbuilt₁, hsub₁, ht⟩ := hl t (by simp) image h
    obtain ⟨image₂, hbuilt₂, hsub₂, hrest⟩ := ih (fun u hu => hl u (by simp [hu])) hbuilt₁
    refine ⟨image₂, hbuilt₂, hsub₁.trans hsub₂, fun u hu => ?_⟩
    obtain rfl | hu := List.mem_cons.1 hu
    · exact hsub₂ ht
    · exact hrest u hu

theorem extendable_of_clear (h : Built image) (hsupported : t.Supported)
    (hclear : Clear (held image.table) t) :
    Extendable image fun image' => t ∈ (held image'.table).types := by
  obtain ⟨image', hbuilt, hheld⟩ := h.var hsupported hclear
  refine ⟨image', hbuilt, ?_, ?_⟩
  · rw [hheld]
    exact fun u hu => Or.inl hu
  · change t ∈ (held image'.table).types
    rw [hheld]
    exact Or.inr .self

/-- Every type without maps and sets can be held together with all others: its
parts come before it, and its lists as the lists of a trait. -/
theorem extendable_supported (hsupported : t.Supported) (h : Built image) :
    Extendable image fun image' => t ∈ (held image'.table).types := by
  induction t using TypeDesc.induct generalizing image with
  | base b => exact extendable_of_clear h hsupported trivial
  | klass path type => exact extendable_of_clear h hsupported trivial
  | map key val => exact hsupported.elim
  | set t => exact hsupported.elim
  | array dims t ih =>
    obtain ⟨image₁, hbuilt₁, hsub₁, ht⟩ := ih hsupported h
    have hclear : Clear (held image₁.table) t := (held_closed _).clear_of_mem ht
    obtain ⟨image₂, hbuilt₂, hsub₂, hgoal⟩ := extendable_of_clear (t := .array dims t) hbuilt₁
      hsupported hclear
    exact ⟨image₂, hbuilt₂, hsub₁.trans hsub₂, hgoal⟩
  | varg t ih =>
    obtain ⟨image₁, hbuilt₁, hsub₁, ht⟩ := ih hsupported h
    have hclear : Clear (held image₁.table) t := (held_closed _).clear_of_mem ht
    obtain ⟨image₂, hbuilt₂, hsub₂, hgoal⟩ := extendable_of_clear (t := .varg t) hbuilt₁
      hsupported hclear
    exact ⟨image₂, hbuilt₂, hsub₁.trans hsub₂, hgoal⟩
  | proto arg ret harg hret =>
    have hargs := TypeDesc.supportedEach_iff.mp hsupported.1
    have hrets := TypeDesc.supportedEach_iff.mp hsupported.2
    obtain ⟨image₁, hbuilt₁, hsub₁, hheld₁⟩ :=
      extendable_each_of (fun t ht _ => harg t ht (hargs t ht)) h
    obtain ⟨image₂, hbuilt₂, hsub₂, hheld₂⟩ :=
      extendable_each_of (fun t ht _ => hret t ht (hrets t ht)) hbuilt₁
    obtain ⟨image₃, hbuilt₃, hthree⟩ := hbuilt₂.trait hargs fun t ht => hsub₂ (hheld₁ t ht)
    have hsub₃ : (held image₂.table).types ⊆ (held image₃.table).types := by
      rw [hthree]
      exact fun u hu => Or.inl (Or.inl hu)
    obtain ⟨image₄, hbuilt₄, hfour⟩ := hbuilt₃.trait hrets fun t ht => hsub₃ (hheld₂ t ht)
    have hsub₄ : (held image₃.table).types ⊆ (held image₄.table).types := by
      rw [hfour]
      exact fun u hu => Or.inl (Or.inl hu)
    have harg₄ : ∀ t ∈ arg, t ∈ (held image₄.table).types :=
      fun t ht => hsub₄ (hsub₃ (hsub₂ (hheld₁ t ht)))
    have hret₄ : ∀ t ∈ ret, t ∈ (held image₄.table).types :=
      fun t ht => hsub₄ (hsub₃ (hheld₂ t ht))
    have hlist₃ : arg ≠ [] → arg ∈ (held image₃.table).lists := by
      intro hne
      rw [hthree]
      exact Or.inr ⟨hne, Or.inl rfl⟩
    have harglist : arg ≠ [] → arg ∈ (held image₄.table).lists := by
      intro hne
      rw [hfour]
      exact Or.inl (Or.inl (hlist₃ hne))
    have hretlist : ret ≠ [] → ret ∈ (held image₄.table).lists := by
      intro hne
      rw [hfour]
      exact Or.inr ⟨hne, Or.inl rfl⟩
    have hclosed := held_closed image₄.table
    have hknown : ∀ l, (l ≠ [] → l ∈ (held image₄.table).lists) →
        (held image₄.table).known l = l := by
      intro l hl
      by_cases hnil : l = []
      · rw [hnil, known_nil]
      · exact known_of_mem (hl hnil)
    have hsought : sought (held image₄.table) (.proto arg ret) = .proto arg ret := by
      rw [sought, hclosed.soughtEach_of_mem harg₄, hclosed.soughtEach_of_mem hret₄,
        hknown arg harglist, hknown ret hretlist]
    have hclear : Clear (held image₄.table) (.proto arg ret) := by
      by_cases hmem : TypeDesc.proto arg ret ∈ (held image₄.table).types
      · exact Or.inl hmem
      · refine Or.inr ⟨by rwa [hsought], hclosed.clearEach_of_mem hret₄, ?_⟩
        exact (hclosed.addList ret).clearEach_of_mem fun t ht => Or.inl (harg₄ t ht)
    obtain ⟨image₅, hbuilt₅, hsub₅, hgoal⟩ := extendable_of_clear hbuilt₄ hsupported hclear
    exact ⟨image₅, hbuilt₅,
      hsub₁.trans (hsub₂.trans (hsub₃.trans (hsub₄.trans hsub₅))), hgoal⟩

end koala.image

namespace koala.image

set_option linter.style.nameCheck false

variable {T : Table}

/-- A type is saved and read back: `TypeItem_Get` and `TypeItem_Set` return
indices, and what is stored at the second one is converted to a descriptor. -/
def Saved (T : Table) (t : TypeDesc) : Prop :=
  ∃ index i T', TypeItem_Get T t = .ok index ∧ TypeItem_Set T t = .ok (i, T') ∧ 0 ≤ i ∧
    ∃ u, Decodes T' i u

theorem Sound.saved (hT : Sound T) {t : TypeDesc} (hsupported : t.Supported) : Saved T t := by
  obtain ⟨index, hindex⟩ := TypeItem_Get_total (T := T) hsupported
  obtain ⟨⟨i, T'⟩, hset⟩ := hT.TypeItem_Set_total hsupported
  have hholds := (hT.TypeItem_Set_ok hset).2
  exact ⟨index, i, T', hindex, hset, hholds.nonneg, _, hholds.decodes⟩

section search

mutual

/-- The members of the lists in a descriptor. -/
def members : TypeDesc → List TypeDesc
  | .proto arg ret => membersEach arg ++ membersEach ret
  | .array _ t => members t
  | .varg t => members t
  | .base _ | .klass _ _ | .map _ _ | .set _ => []

def membersEach : List TypeDesc → List TypeDesc
  | [] => []
  | t :: l => t :: (members t ++ membersEach l)

end

theorem mem_membersEach {l : List TypeDesc} {t : TypeDesc} (h : t ∈ l) :
    t ∈ membersEach l ∧ ∀ u ∈ members t, u ∈ membersEach l := by
  induction l with
  | nil => simp at h
  | cons v l ih =>
    rw [membersEach]
    obtain rfl | h := List.mem_cons.1 h
    · exact ⟨by simp, fun u hu => by simp [hu]⟩
    · obtain ⟨ht, hmembers⟩ := ih h
      exact ⟨by simp [ht], fun u hu => by simp [hmembers u hu]⟩

/-- The search goes on behind the types it finds. -/
theorem typelist_get_unsupported (hT : Sound T) {l : List TypeDesc}
    (hl : ∀ t ∈ l, ¬ t.Supported → TypeItem_Get T t = .error .assertion)
    (hheld : ∀ t ∈ l, t.Supported → t ∈ (held T).types) (hnot : ∃ t ∈ l, ¬ t.Supported) :
    typelist_get T l = .error .assertion := by
  induction l with
  | nil =>
    obtain ⟨t, ht, -⟩ := hnot
    simp at ht
  | cons t l ih =>
    rw [typelist_get]
    by_cases hsupported : t.Supported
    · obtain ⟨index, hindex⟩ := TypeItem_Get_total (T := T) hsupported
      have hmem := hheld t (by simp) hsupported
      have hfound := hT.TypeItem_Get_found hindex
      rw [(held_closed T).sought_of_mem hmem] at hfound
      have hpos : ¬ index < 0 := fun hneg => (hfound.of_neg hneg).2 hmem
      have hrest : ∃ t ∈ l, ¬ t.Supported := by
        obtain ⟨u, hu, hnot⟩ := hnot
        obtain rfl | hu := List.mem_cons.1 hu
        · exact absurd hsupported hnot
        · exact ⟨u, hu, hnot⟩
      rw [hindex, ok_bind, if_neg hpos,
        ih (fun u hu => hl u (by simp [hu])) (fun u hu => hheld u (by simp [hu])) hrest, error_bind]
    · rw [hl t (by simp) hsupported, error_bind]

/-- Where the members it passes on its way are held, the search runs into a map
or a set. -/
theorem TypeItem_Get_unsupported (hT : Sound T) {t : TypeDesc} (hnot : ¬ t.Supported)
    (hheld : ∀ u ∈ members t, u.Supported → u ∈ (held T).types) :
    TypeItem_Get T t = .error .assertion := by
  induction t using TypeDesc.induct with
  | base b => exact absurd trivial hnot
  | klass path type => exact absurd trivial hnot
  | map key val => rw [TypeItem_Get]
  | set t => rw [TypeItem_Get]
  | array dims t ih => rw [TypeItem_Get, ih hnot hheld, error_bind]
  | varg t ih => rw [TypeItem_Get, ih hnot hheld, error_bind]
  | proto arg ret harg hret =>
    rw [members] at hheld
    have hargs : ∀ t ∈ arg, ¬ t.Supported → TypeItem_Get T t = .error .assertion :=
      fun t ht hn => harg t ht hn fun u hu hs =>
        hheld u (List.mem_append_left _ ((mem_membersEach ht).2 u hu)) hs
    have hrets : ∀ t ∈ ret, ¬ t.Supported → TypeItem_Get T t = .error .assertion :=
      fun t ht hn => hret t ht hn fun u hu hs =>
        hheld u (List.mem_append_right _ ((mem_membersEach ht).2 u hu)) hs
    rw [TypeItem_Get]
    by_cases hretsup : ∀ t ∈ ret, t.Supported
    · obtain ⟨found, hfound⟩ := typelist_get_total (T := T) hretsup
      have hargnot : ∃ t ∈ arg, ¬ t.Supported := by
        by_contra hall
        push Not at hall
        exact hnot ⟨TypeDesc.supportedEach_iff.mpr hall, TypeDesc.supportedEach_iff.mpr hretsup⟩
      rw [hfound, ok_bind, typelist_get_unsupported hT hargs
        (fun t ht => hheld t (List.mem_append_left _ (mem_membersEach ht).1)) hargnot, error_bind]
    · push Not at hretsup
      rw [typelist_get_unsupported hT hrets
        (fun t ht => hheld t (List.mem_append_right _ (mem_membersEach ht).1)) hretsup, error_bind]

end search

/-- A type can be saved in every image and read back if and only if no map and
no set occurs in it. -/
theorem saved_iff_supported (t : TypeDesc) :
    (∀ image, Built image → Saved image.table t) ↔ t.Supported := by
  classical
  refine ⟨fun hsaved => ?_, fun hsupported image hbuilt => hbuilt.sound.saved hsupported⟩
  by_contra hnot
  obtain ⟨image, hbuilt, -, hheld⟩ := extendable_each_of
    (l := (members t).filter fun u => u.Supported)
    (fun u hu _ => extendable_supported (by simpa using (List.mem_filter.1 hu).2)) (Built.new none)
  obtain ⟨index, _, _, hget, -⟩ := hsaved image hbuilt
  rw [TypeItem_Get_unsupported hbuilt.sound hnot fun u hu hs =>
    hheld u (List.mem_filter.2 ⟨hu, by simpa using hs⟩)] at hget
  cases hget

/-- `map[int]int` is not saved in any image. -/
theorem not_saved_map :
    ¬ ∀ t : TypeDesc, t.WellFormed → ∀ image, Built image → Saved image.table t := by
  intro h
  obtain ⟨_, _, _, hget, -⟩ := h (.map (.base .BASE_INT) (.base .BASE_INT)) (.map (.base _) (.base _))
    (KImage_New none) (Built.new none)
  rw [TypeItem_Get] at hget
  cases hget

end koala.image
