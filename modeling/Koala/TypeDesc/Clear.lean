import Koala.TypeDesc.Store

namespace koala.typedesc

namespace TypeDesc

@[simp] theorem within_base {u : TypeDesc} {b : BaseType} : u.Within (.base b) ↔ u = .base b :=
  ⟨fun h => by cases h; rfl, fun h => h ▸ .self⟩

@[simp] theorem within_klass {u : TypeDesc} {path : Option CString} {type : CString} :
    u.Within (.klass path type) ↔ u = .klass path type :=
  ⟨fun h => by cases h; rfl, fun h => h ▸ .self⟩

@[simp] theorem within_array {u t : TypeDesc} {dims : BitVec 32} :
    u.Within (.array dims t) ↔ u = .array dims t ∨ u.Within t := by
  constructor
  · intro h
    cases h with
    | self => exact Or.inl rfl
    | array h => exact Or.inr h
  · rintro (rfl | h)
    · exact .self
    · exact .array h

@[simp] theorem within_varg {u t : TypeDesc} :
    u.Within (.varg t) ↔ u = .varg t ∨ u.Within t := by
  constructor
  · intro h
    cases h with
    | self => exact Or.inl rfl
    | varg h => exact Or.inr h
  · rintro (rfl | h)
    · exact .self
    · exact .varg h

@[simp] theorem within_proto {u : TypeDesc} {arg ret : List TypeDesc} :
    u.Within (.proto arg ret) ↔
      u = .proto arg ret ∨ (∃ t ∈ arg, u.Within t) ∨ ∃ t ∈ ret, u.Within t := by
  constructor
  · intro h
    cases h with
    | self => exact Or.inl rfl
    | arg ht h => exact Or.inr (Or.inl ⟨_, ht, h⟩)
    | ret ht h => exact Or.inr (Or.inr ⟨_, ht, h⟩)
  · rintro (rfl | ⟨t, ht, h⟩ | ⟨t, ht, h⟩)
    · exact .self
    · exact .arg ht h
    · exact .ret ht h

/-- `l` is an argument or return list that occurs in `t`. -/
def Listed (l : List TypeDesc) (t : TypeDesc) : Prop :=
  ∃ arg ret, Within (.proto arg ret) t ∧ (l = arg ∨ l = ret)

@[simp] theorem listed_base {l : List TypeDesc} {b : BaseType} : ¬ Listed l (.base b) := by
  simp [Listed]

@[simp] theorem listed_klass {l : List TypeDesc} {path : Option CString} {type : CString} :
    ¬ Listed l (.klass path type) := by
  simp [Listed]

@[simp] theorem listed_array {l : List TypeDesc} {dims : BitVec 32} {t : TypeDesc} :
    Listed l (.array dims t) ↔ Listed l t := by
  simp [Listed]

@[simp] theorem listed_varg {l : List TypeDesc} {t : TypeDesc} :
    Listed l (.varg t) ↔ Listed l t := by
  simp [Listed]

@[simp] theorem listed_proto {l arg ret : List TypeDesc} :
    Listed l (.proto arg ret) ↔
      l = arg ∨ l = ret ∨ (∃ t ∈ arg, Listed l t) ∨ ∃ t ∈ ret, Listed l t := by
  simp only [Listed, within_proto, TypeDesc.proto.injEq]
  constructor
  · rintro ⟨a, r, ⟨rfl, rfl⟩ | ⟨t, ht, h⟩ | ⟨t, ht, h⟩, hl⟩
    · exact hl.imp id Or.inl
    · exact Or.inr (Or.inr (Or.inl ⟨t, ht, a, r, h, hl⟩))
    · exact Or.inr (Or.inr (Or.inr ⟨t, ht, a, r, h, hl⟩))
  · rintro (rfl | rfl | ⟨t, ht, a, r, h, hl⟩ | ⟨t, ht, a, r, h, hl⟩)
    · exact ⟨_, _, Or.inl ⟨rfl, rfl⟩, Or.inl rfl⟩
    · exact ⟨_, _, Or.inl ⟨rfl, rfl⟩, Or.inr rfl⟩
    · exact ⟨a, r, Or.inr (Or.inl ⟨t, ht, h⟩), hl⟩
    · exact ⟨a, r, Or.inr (Or.inr ⟨t, ht, h⟩), hl⟩

end TypeDesc

open TypeDesc

namespace Store

/-- Holding `t` and all its parts as well. -/
def add (S : Store) (t : TypeDesc) : Store where
  types := {u | u ∈ S.types ∨ u.Within t}
  lists := {l | l ∈ S.lists ∨ (l ≠ [] ∧ Listed l t)}

def addEach (S : Store) (l : List TypeDesc) : Store where
  types := {u | u ∈ S.types ∨ ∃ t ∈ l, u.Within t}
  lists := {l' | l' ∈ S.lists ∨ (l' ≠ [] ∧ ∃ t ∈ l, Listed l' t)}

/-- Holding a list and all its parts as well. -/
def addList (S : Store) (l : List TypeDesc) : Store where
  types := {u | u ∈ S.types ∨ ∃ t ∈ l, u.Within t}
  lists := {l' | l' ∈ S.lists ∨ (l' ≠ [] ∧ (l' = l ∨ ∃ t ∈ l, Listed l' t))}

@[simp] theorem addEach_nil (S : Store) : S.addEach [] = S := by
  simp [addEach]

@[simp] theorem addList_nil (S : Store) : S.addList [] = S := by
  ext l <;> simp [addList]

theorem addEach_cons (S : Store) (t : TypeDesc) (l : List TypeDesc) :
    S.addEach (t :: l) = (S.add t).addEach l := by
  ext u <;> simp [addEach, add] <;> tauto

theorem addList_eq (S : Store) {l : List TypeDesc} (h : l ≠ []) :
    S.addList l = (S.addEach l).addTypeList l := by
  ext u
  · simp [addList, addEach, addTypeList]
  · simp only [addList, addEach, addTypeList, Set.mem_ofPred_eq, Set.mem_insert_iff]
    constructor
    · tauto
    · rintro (rfl | hu)
      · exact Or.inr ⟨h, Or.inl rfl⟩
      · tauto

theorem add_base (S : Store) (b : BaseType) : S.add (.base b) = S.addType (.base b) := by
  ext u <;> simp [add, addType, or_comm]

theorem add_klass (S : Store) (path : Option CString) (type : CString) :
    S.add (.klass path type) = S.addType (.klass path type) := by
  ext u <;> simp [add, addType, or_comm]

theorem add_array (S : Store) (dims : BitVec 32) (t : TypeDesc) :
    S.add (.array dims t) = (S.add t).addType (.array dims t) := by
  ext u <;> simp only [add, addType, within_array, listed_array, Set.mem_ofPred_eq,
    Set.mem_insert_iff]
  tauto

theorem add_varg (S : Store) (t : TypeDesc) :
    S.add (.varg t) = (S.add t).addType (.varg t) := by
  ext u <;> simp only [add, addType, within_varg, listed_varg, Set.mem_ofPred_eq,
    Set.mem_insert_iff]
  tauto

theorem add_proto (S : Store) (arg ret : List TypeDesc) :
    S.add (.proto arg ret) = ((S.addList ret).addList arg).addType (.proto arg ret) := by
  ext u <;> simp only [add, addList, addType, within_proto, listed_proto, Set.mem_ofPred_eq,
    Set.mem_insert_iff] <;> grind

theorem Closed.add_of_mem {S : Store} (hS : S.Closed) {t : TypeDesc} (h : t ∈ S.types) :
    S.add t = S := by
  ext u
  · exact ⟨fun hu => hu.elim id (hS.within h), Or.inl⟩
  · refine ⟨fun hu => hu.elim id ?_, Or.inl⟩
    rintro ⟨hne, arg, ret, hwithin, rfl | rfl⟩
    · exact hS.arg (hS.within h hwithin) hne
    · exact hS.ret (hS.within h hwithin) hne

theorem Closed.addEach_of_mem {S : Store} (hS : S.Closed) {l : List TypeDesc}
    (h : ∀ t ∈ l, t ∈ S.types) : S.addEach l = S := by
  induction l with
  | nil => exact addEach_nil S
  | cons t l ih =>
    rw [addEach_cons, hS.add_of_mem (h t (by simp)), ih fun u hu => h u (by simp [hu])]

theorem Closed.addList_of_mem {S : Store} (hS : S.Closed) {l : List TypeDesc}
    (h : l ∈ S.lists) : S.addList l = S := by
  rw [addList_eq S (hS.nonempty h), hS.addEach_of_mem fun t => hS.member h]
  simp [addTypeList, Set.insert_eq_of_mem h]

theorem Closed.add {S : Store} (hS : S.Closed) (t : TypeDesc) : (S.add t).Closed where
  within := by
    rintro u v (hu | hu) hv
    · exact Or.inl (hS.within hu hv)
    · exact Or.inr (hv.trans hu)
  arg := by
    rintro arg ret (h | h) hne
    · exact Or.inl (hS.arg h hne)
    · exact Or.inr ⟨hne, arg, ret, h, Or.inl rfl⟩
  ret := by
    rintro arg ret (h | h) hne
    · exact Or.inl (hS.ret h hne)
    · exact Or.inr ⟨hne, arg, ret, h, Or.inr rfl⟩
  nonempty := by
    rintro l (h | ⟨hne, _⟩)
    · exact hS.nonempty h
    · exact hne
  member := by
    rintro l u (h | ⟨_, arg, ret, h, rfl | rfl⟩) hu
    · exact Or.inl (hS.member h hu)
    · exact Or.inr (Within.trans (.arg hu .self) h)
    · exact Or.inr (Within.trans (.ret hu .self) h)

theorem Closed.addEach {S : Store} (hS : S.Closed) (l : List TypeDesc) :
    (S.addEach l).Closed := by
  induction l generalizing S with
  | nil => rwa [addEach_nil]
  | cons t l ih =>
    rw [addEach_cons]
    exact ih (hS.add t)

theorem Closed.addList {S : Store} (hS : S.Closed) (l : List TypeDesc) :
    (S.addList l).Closed := by
  by_cases hnil : l = []
  · rwa [hnil, addList_nil]
  have heach := hS.addEach l
  rw [addList_eq S hnil]
  refine ⟨heach.within, fun h hne => Or.inr (heach.arg h hne),
    fun h hne => Or.inr (heach.ret h hne), ?_, ?_⟩
  · rintro l' (rfl | h)
    · exact hnil
    · exact heach.nonempty h
  · rintro l' t (rfl | h) ht
    · exact Or.inr ⟨t, ht, .self⟩
    · exact heach.member h ht

mutual

/-- Storing `t` mistakes none of its function types for another one: when its
turn comes, return lists before argument lists and parts before wholes, a
function type is held, or what the search looks for in its place is not. -/
def Clear (S : Store) : TypeDesc → Prop
  | .proto arg ret => .proto arg ret ∈ S.types ∨
      (sought S (.proto arg ret) ∉ S.types ∧ ClearEach S ret ∧ ClearEach (S.addList ret) arg)
  | .array _ t => Clear S t
  | .varg t => Clear S t
  | .base _ => True
  | .klass _ _ => True
  | .map _ _ => True
  | .set _ => True

def ClearEach (S : Store) : List TypeDesc → Prop
  | [] => True
  | t :: l => Clear S t ∧ ClearEach (S.add t) l

end

end Store

namespace TypeDesc

mutual

/-- No map and no set occurs: the types that an image can hold. -/
def Supported : TypeDesc → Prop
  | .proto arg ret => SupportedEach arg ∧ SupportedEach ret
  | .array _ t => Supported t
  | .varg t => Supported t
  | .base _ => True
  | .klass _ _ => True
  | .map _ _ => False
  | .set _ => False

def SupportedEach : List TypeDesc → Prop
  | [] => True
  | t :: l => Supported t ∧ SupportedEach l

end

theorem supportedEach_iff {l : List TypeDesc} : SupportedEach l ↔ ∀ t ∈ l, t.Supported := by
  induction l with
  | nil => simp [SupportedEach]
  | cons t l ih => simp [SupportedEach, ih]

end TypeDesc

namespace Store

variable {S : Store}

theorem Closed.clear_of_mem (hS : S.Closed) {t : TypeDesc} (h : t ∈ S.types) : Clear S t := by
  induction t using TypeDesc.induct with
  | base | klass | map | set => trivial
  | proto arg ret => exact Or.inl h
  | array dims t ih => exact ih (hS.within h (.array .self))
  | varg t ih => exact ih (hS.within h (.varg .self))

theorem Closed.clearEach_of_mem (hS : S.Closed) {l : List TypeDesc}
    (h : ∀ t ∈ l, t ∈ S.types) : ClearEach S l := by
  induction l with
  | nil => trivial
  | cons t l ih =>
    refine ⟨hS.clear_of_mem (h t (by simp)), ?_⟩
    rw [hS.add_of_mem (h t (by simp))]
    exact ih fun u hu => h u (by simp [hu])

theorem Closed.putEach_of_clear_of {l : List TypeDesc}
    (hl : ∀ t ∈ l, t.Supported → ∀ S : Store, S.Closed → Clear S t → put S t = (t, S.add t))
    (hsupported : ∀ t ∈ l, t.Supported) {S : Store} (hS : S.Closed) (h : ClearEach S l) :
    putEach S l = (l, S.addEach l) := by
  induction l generalizing S with
  | nil => rw [addEach_nil]; rfl
  | cons t l ih =>
    rw [putEach, hl t (by simp) (hsupported t (by simp)) S hS h.1]
    dsimp only
    rw [ih (fun u hu => hl u (by simp [hu])) (fun u hu => hsupported u (by simp [hu]))
      (hS.add t) h.2, addEach_cons]

/-- A list whose members are all found is found as itself. -/
theorem Closed.soughtEach_of_clear {l : List TypeDesc}
    (hl : ∀ t ∈ l, t.Supported → ∀ S : Store, S.Closed → Clear S t → put S t = (t, S.add t))
    (hsupported : ∀ t ∈ l, t.Supported) (hS : S.Closed) (h : ClearEach S l)
    (hmem : ∀ t ∈ soughtEach S l, t ∈ S.types) : soughtEach S l = l := by
  induction l with
  | nil => rfl
  | cons t l ih =>
    rw [soughtEach] at hmem ⊢
    have ht := hmem (sought S t) (by simp)
    have hput := hl t (by simp) (hsupported t (by simp)) S hS h.1
    rw [put_of_mem ht, Prod.mk.injEq] at hput
    have hrest := h.2
    rw [← hput.2] at hrest
    rw [hput.1, ih (fun u hu => hl u (by simp [hu])) (fun u hu => hsupported u (by simp [hu])) hrest
      fun u hu => hmem u (by simp [hu])]

theorem Closed.putList_of_clear_of {l : List TypeDesc}
    (hl : ∀ t ∈ l, t.Supported → ∀ S : Store, S.Closed → Clear S t → put S t = (t, S.add t))
    (hsupported : ∀ t ∈ l, t.Supported) (hS : S.Closed) (h : ClearEach S l) :
    S.putList l (putEach S l) = (l, S.addList l) := by
  by_cases hnil : l = []
  · subst hnil
    rw [putList_nil, addList_nil]
  by_cases hmem : soughtEach S l ∈ S.lists
  · have heq := hS.soughtEach_of_clear hl hsupported h fun t => hS.member hmem
    rw [putList_of_mem hnil hmem, heq]
    rw [heq] at hmem
    rw [hS.addList_of_mem hmem]
  · rw [putList_of_not_mem hnil hmem, Closed.putEach_of_clear_of hl hsupported hS h,
      addList_eq S hnil]

/-- A clear descriptor is stored as itself, with all its parts. -/
theorem put_of_clear (t : TypeDesc) : t.Supported →
    ∀ S : Store, S.Closed → Clear S t → put S t = (t, S.add t) := by
  induction t using TypeDesc.induct with
  | base b =>
    intro _ S hS _
    rw [put]
    split
    · next h =>
      rw [sought] at h ⊢
      rw [hS.add_of_mem h]
    · rw [add_base]
  | klass path type =>
    intro _ S hS _
    rw [put]
    split
    · next h =>
      rw [sought] at h ⊢
      rw [hS.add_of_mem h]
    · rw [add_klass]
  | proto arg ret harg hret =>
    intro hsupported S hS h
    rcases h with h | ⟨h, hr, ha⟩
    · have heq := hS.sought_of_mem h
      rw [put_of_mem (heq.symm ▸ h), heq, hS.add_of_mem h]
    · have hargs := supportedEach_iff.mp hsupported.1
      have hrets := supportedEach_iff.mp hsupported.2
      rw [put, if_neg h, hS.putList_of_clear_of hret hrets hr]
      dsimp only
      rw [(hS.addList ret).putList_of_clear_of harg hargs ha, add_proto]
  | array dims t ih =>
    intro hsupported S hS h
    have hput := ih hsupported S hS h
    by_cases hmem : sought S (.array dims t) ∈ S.types
    · have ht : sought S t ∈ S.types := hS.within hmem (.array .self)
      rw [put_of_mem ht, Prod.mk.injEq] at hput
      rw [put_of_mem hmem]
      rw [sought, hput.1] at hmem ⊢
      rw [hS.add_of_mem hmem]
    · rw [put, if_neg hmem, hput, add_array]
  | varg t ih =>
    intro hsupported S hS h
    have hput := ih hsupported S hS h
    by_cases hmem : sought S (.varg t) ∈ S.types
    · have ht : sought S t ∈ S.types := hS.within hmem (.varg .self)
      rw [put_of_mem ht, Prod.mk.injEq] at hput
      rw [put_of_mem hmem]
      rw [sought, hput.1] at hmem ⊢
      rw [hS.add_of_mem hmem]
    · rw [put, if_neg hmem, hput, add_varg]
  | map | set => exact fun hsupported => hsupported.elim

theorem Closed.putList_of_clear (hS : S.Closed) {l : List TypeDesc}
    (hsupported : ∀ t ∈ l, t.Supported) (h : ClearEach S l) :
    S.putList l (putEach S l) = (l, S.addList l) :=
  hS.putList_of_clear_of (fun t _ => put_of_clear t) hsupported h

theorem Closed.clearEach_of_putEach_of {l : List TypeDesc}
    (hl : ∀ t ∈ l, t.Supported → ∀ S : Store, S.Closed → (put S t).1 = t → Clear S t)
    (hsupported : ∀ t ∈ l, t.Supported) {S : Store} (hS : S.Closed)
    (h : (putEach S l).1 = l) : ClearEach S l := by
  induction l generalizing S with
  | nil => trivial
  | cons t l ih =>
    rw [putEach, List.cons.injEq] at h
    have ht := hsupported t (by simp)
    have hclear := hl t (by simp) ht S hS h.1
    have hrest := h.2
    rw [put_of_clear t ht S hS hclear] at hrest
    exact ⟨hclear, ih (fun u hu => hl u (by simp [hu])) (fun u hu => hsupported u (by simp [hu]))
      (hS.add t) hrest⟩

theorem Closed.clearEach_of_putList_of {l : List TypeDesc}
    (hl : ∀ t ∈ l, t.Supported → ∀ S : Store, S.Closed → (put S t).1 = t → Clear S t)
    (hsupported : ∀ t ∈ l, t.Supported) (hS : S.Closed)
    (h : (S.putList l (putEach S l)).1 = l) : ClearEach S l := by
  by_cases hnil : l = []
  · subst hnil
    trivial
  by_cases hmem : soughtEach S l ∈ S.lists
  · rw [putList_of_mem hnil hmem] at h
    dsimp only at h
    rw [h] at hmem
    exact hS.clearEach_of_mem fun t => hS.member hmem
  · rw [putList_of_not_mem hnil hmem] at h
    exact hS.clearEach_of_putEach_of hl hsupported h

/-- A descriptor that is stored as itself is clear. -/
theorem clear_of_put (t : TypeDesc) : t.Supported →
    ∀ S : Store, S.Closed → (put S t).1 = t → Clear S t := by
  induction t using TypeDesc.induct with
  | base | klass => exact fun _ _ _ _ => trivial
  | proto arg ret harg hret =>
    intro hsupported S hS h
    have hargs := supportedEach_iff.mp hsupported.1
    have hrets := supportedEach_iff.mp hsupported.2
    by_cases hmem : sought S (.proto arg ret) ∈ S.types
    · rw [put_of_mem hmem] at h
      dsimp only at h
      rw [h] at hmem
      exact Or.inl hmem
    · rw [put, if_neg hmem] at h
      dsimp only at h
      rw [TypeDesc.proto.injEq] at h
      have hr := hS.clearEach_of_putList_of hret hrets h.2
      have ha := h.1
      rw [hS.putList_of_clear hrets hr] at ha
      exact Or.inr ⟨hmem, hr, (hS.addList ret).clearEach_of_putList_of harg hargs ha⟩
  | array dims t ih =>
    intro hsupported S hS h
    refine ih hsupported S hS ?_
    by_cases hmem : sought S (.array dims t) ∈ S.types
    · rw [put_of_mem hmem] at h
      rw [put_of_mem (hS.within hmem (.array .self))]
      simpa [sought] using h
    · rw [put, if_neg hmem] at h
      simpa using h
  | varg t ih =>
    intro hsupported S hS h
    refine ih hsupported S hS ?_
    by_cases hmem : sought S (.varg t) ∈ S.types
    · rw [put_of_mem hmem] at h
      rw [put_of_mem (hS.within hmem (.varg .self))]
      simpa [sought] using h
    · rw [put, if_neg hmem] at h
      simpa using h
  | map | set => exact fun hsupported => hsupported.elim

/-- Exactly the clear descriptors are stored as themselves. -/
theorem Closed.clear_iff_put (hS : S.Closed) {t : TypeDesc} (h : t.Supported) :
    Clear S t ↔ (put S t).1 = t :=
  ⟨fun hclear => by rw [put_of_clear t h S hS hclear], clear_of_put t h S hS⟩

end Store

end koala.typedesc
