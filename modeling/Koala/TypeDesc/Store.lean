import Mathlib.Data.Set.Insert
import Koala.TypeDesc.Desc

namespace koala.typedesc

open Classical

/-- The descriptors and the non-empty descriptor lists an image holds. -/
@[ext] structure Store where
  types : Set TypeDesc
  lists : Set (List TypeDesc)

namespace Store

/-- The parts of what is held are held. -/
structure Closed (S : Store) : Prop where
  within : ∀ {t u : TypeDesc}, t ∈ S.types → u.Within t → u ∈ S.types
  arg : ∀ {arg ret : List TypeDesc}, .proto arg ret ∈ S.types → arg ≠ [] → arg ∈ S.lists
  ret : ∀ {arg ret : List TypeDesc}, .proto arg ret ∈ S.types → ret ≠ [] → ret ∈ S.lists
  nonempty : ∀ {l : List TypeDesc}, l ∈ S.lists → l ≠ []
  member : ∀ {l : List TypeDesc} {t : TypeDesc}, l ∈ S.lists → t ∈ l → t ∈ S.types

/-- A list that is not held is taken for the empty one. -/
noncomputable def known (S : Store) (l : List TypeDesc) : List TypeDesc :=
  if l ∈ S.lists then l else []

mutual

/-- The descriptor that a search for `t` looks for: every argument or return
list that is not held counts as empty. -/
noncomputable def sought (S : Store) : TypeDesc → TypeDesc
  | .proto arg ret => .proto (S.known (soughtEach S arg)) (S.known (soughtEach S ret))
  | .array dims t => .array dims (sought S t)
  | .varg t => .varg (sought S t)
  | .base b => .base b
  | .klass path type => .klass path type
  | .map key val => .map key val
  | .set t => .set t

noncomputable def soughtEach (S : Store) : List TypeDesc → List TypeDesc
  | [] => []
  | t :: l => sought S t :: soughtEach S l

end

theorem soughtEach_eq_map (S : Store) (l : List TypeDesc) : soughtEach S l = l.map (sought S) := by
  induction l with
  | nil => rfl
  | cons t l ih => rw [soughtEach, ih, List.map_cons]

@[simp] theorem known_nil (S : Store) : S.known [] = [] := by simp [known]

theorem known_of_mem {S : Store} {l : List TypeDesc} (h : l ∈ S.lists) : S.known l = l := if_pos h

theorem known_of_not_mem {S : Store} {l : List TypeDesc} (h : l ∉ S.lists) : S.known l = [] :=
  if_neg h

/-- What is held is looked for under its own name. -/
theorem Closed.sought_of_mem {S : Store} (hS : S.Closed) {t : TypeDesc} (h : t ∈ S.types) :
    sought S t = t := by
  have hlist : ∀ l : List TypeDesc, (∀ t ∈ l, t ∈ S.types → sought S t = t) →
      (l ≠ [] → l ∈ S.lists) → S.known (soughtEach S l) = l := by
    intro l hl hmem
    cases l with
    | nil => simp [soughtEach]
    | cons t l =>
      have hmem := hmem (by simp)
      have heq : soughtEach S (t :: l) = t :: l := by
        rw [soughtEach_eq_map]
        conv_rhs => rw [← List.map_id (t :: l)]
        exact List.map_congr_left fun u hu => hl u hu (hS.member hmem hu)
      rw [heq, known_of_mem hmem]
  induction t using TypeDesc.induct with
  | base | klass | map | set => rfl
  | proto arg ret harg hret =>
    rw [sought, hlist arg harg (hS.arg h), hlist ret hret (hS.ret h)]
  | array dims t ih => rw [sought, ih (hS.within h (.array .self))]
  | varg t ih => rw [sought, ih (hS.within h (.varg .self))]

theorem Closed.soughtEach_of_mem {S : Store} (hS : S.Closed) {l : List TypeDesc}
    (h : ∀ t ∈ l, t ∈ S.types) : soughtEach S l = l := by
  induction l with
  | nil => rfl
  | cons t l ih =>
    rw [soughtEach, hS.sought_of_mem (h t (by simp)), ih fun u hu => h u (by simp [hu])]

def addType (S : Store) (t : TypeDesc) : Store := { S with types := insert t S.types }

def addTypeList (S : Store) (l : List TypeDesc) : Store := { S with lists := insert l S.lists }

/-- Storing a list: nothing for the empty one, nothing when the search finds
it, and otherwise its members, as `each` stores them, and then the list. -/
noncomputable def putList (S : Store) (l : List TypeDesc) (each : List TypeDesc × Store) :
    List TypeDesc × Store :=
  if l = [] then ([], S)
  else if soughtEach S l ∈ S.lists then (soughtEach S l, S)
  else (each.1, each.2.addTypeList each.1)

mutual

/-- Storing a descriptor: the descriptor that is stored, or that the search
mistakes for it, and the store after it. -/
noncomputable def put (S : Store) (t : TypeDesc) : TypeDesc × Store :=
  if sought S t ∈ S.types then (sought S t, S)
  else match t with
    | .base b => (.base b, S.addType (.base b))
    | .klass path type => (.klass path type, S.addType (.klass path type))
    | .proto arg ret =>
      let r := S.putList ret (putEach S ret)
      let a := r.2.putList arg (putEach r.2 arg)
      (.proto a.1 r.1, a.2.addType (.proto a.1 r.1))
    | .array dims t =>
      let b := put S t
      (.array dims b.1, b.2.addType (.array dims b.1))
    | .varg t =>
      let b := put S t
      (.varg b.1, b.2.addType (.varg b.1))
    | .map key val => (.map key val, S)
    | .set t => (.set t, S)

noncomputable def putEach (S : Store) (l : List TypeDesc) : List TypeDesc × Store :=
  match l with
  | [] => ([], S)
  | t :: l =>
    let b := put S t
    let r := putEach b.2 l
    (b.1 :: r.1, r.2)

end

theorem put_of_mem {S : Store} {t : TypeDesc} (h : sought S t ∈ S.types) :
    put S t = (sought S t, S) := by
  rw [put.eq_def, if_pos h]

theorem putList_nil (S : Store) (each : List TypeDesc × Store) : S.putList [] each = ([], S) :=
  if_pos rfl

theorem putList_of_mem {S : Store} {l : List TypeDesc} {each : List TypeDesc × Store} (hl : l ≠ [])
    (h : soughtEach S l ∈ S.lists) : S.putList l each = (soughtEach S l, S) := by
  rw [putList, if_neg hl, if_pos h]

theorem putList_of_not_mem {S : Store} {l : List TypeDesc} {each : List TypeDesc × Store}
    (hl : l ≠ []) (h : soughtEach S l ∉ S.lists) :
    S.putList l each = (each.1, each.2.addTypeList each.1) := by
  rw [putList, if_neg hl, if_neg h]

section depth

open TypeDesc

/-- Only descriptors of depth at most `n` and lists of depth less than `m` were
added to a store. -/
structure Below (S S' : Store) (n m : Nat) : Prop where
  types : ∀ t ∈ S'.types, t ∈ S.types ∨ t.depth ≤ n
  lists : ∀ l ∈ S'.lists, l ∈ S.lists ∨ depthList l < m

theorem Below.refl (S : Store) (n m : Nat) : Below S S n m where
  types _ ht := Or.inl ht
  lists _ hl := Or.inl hl

theorem Below.trans {S₁ S₂ S₃ : Store} {n₁ m₁ n₂ m₂ n m : Nat} (h₁ : Below S₁ S₂ n₁ m₁)
    (h₂ : Below S₂ S₃ n₂ m₂) (hn₁ : n₁ ≤ n) (hm₁ : m₁ ≤ m) (hn₂ : n₂ ≤ n) (hm₂ : m₂ ≤ m) :
    Below S₁ S₃ n m where
  types t ht := by
    rcases h₂.types t ht with ht | hle
    · exact (h₁.types t ht).imp id fun hle => hle.trans hn₁
    · exact Or.inr (hle.trans hn₂)
  lists l hl := by
    rcases h₂.lists l hl with hl | hlt
    · exact (h₁.lists l hl).imp id fun hlt => hlt.trans_le hm₁
    · exact Or.inr (hlt.trans_le hm₂)

theorem Below.addType {S S' : Store} {n m : Nat} {t : TypeDesc} (h : Below S S' n m)
    (hn : n ≤ t.depth) (hm : m ≤ t.depth) : Below S (S'.addType t) t.depth t.depth where
  types := by
    rintro u (rfl | hu)
    · exact Or.inr (Nat.le_refl _)
    · exact (h.types u hu).imp id fun hle => hle.trans hn
  lists l hl := (h.lists l hl).imp id fun hlt => hlt.trans_le hm

theorem putList_below {S : Store} {l : List TypeDesc} {each : List TypeDesc × Store}
    (h : Below S each.2 (depthList each.1) (depthList each.1)) :
    Below S (S.putList l each).2 (depthList (S.putList l each).1)
      (depthList (S.putList l each).1 + 1) := by
  unfold putList
  split
  · exact Below.refl _ _ _
  split
  · exact Below.refl _ _ _
  · refine ⟨h.types, ?_⟩
    rintro l' (rfl | hl')
    · exact Or.inr (Nat.lt_succ_self _)
    · exact (h.lists l' hl').imp id fun hlt => hlt.trans (Nat.lt_succ_self _)

/-- Storing a return list and then an argument list. -/
theorem putLists_below_of {S : Store} {arg ret : List TypeDesc} {r a : List TypeDesc × Store}
    (hr : Below S r.2 (depthList r.1) (depthList r.1))
    (ha : Below (S.putList ret r).2 a.2 (depthList a.1) (depthList a.1)) :
    Below S ((S.putList ret r).2.putList arg a).2
      (max (depthList ((S.putList ret r).2.putList arg a).1) (depthList (S.putList ret r).1))
      (max (depthList ((S.putList ret r).2.putList arg a).1) (depthList (S.putList ret r).1) + 1) :=
  (putList_below hr).trans (putList_below ha) (by omega) (by omega) (by omega) (by omega)

theorem putEach_below_of {l : List TypeDesc}
    (hl : ∀ t ∈ l, ∀ S : Store, Below S (put S t).2 (put S t).1.depth (put S t).1.depth) :
    ∀ S : Store, Below S (putEach S l).2 (depthList (putEach S l).1)
      (depthList (putEach S l).1) := by
  induction l with
  | nil => exact fun S => Below.refl _ _ _
  | cons t l ih =>
    intro S
    rw [putEach, depthList]
    exact (hl t (by simp) S).trans (ih (fun u hu => hl u (by simp [hu])) _)
      (Nat.le_max_left _ _) (Nat.le_max_left _ _) (Nat.le_max_right _ _) (Nat.le_max_right _ _)

/-- Storing a descriptor adds nothing deeper than what it stores. -/
theorem put_below (t : TypeDesc) :
    ∀ S : Store, Below S (put S t).2 (put S t).1.depth (put S t).1.depth := by
  induction t using TypeDesc.induct with
  | base b | klass path type =>
    intro S
    rw [put]
    split
    · exact Below.refl _ _ _
    · exact (Below.refl S 0 0).addType (Nat.zero_le _) (Nat.zero_le _)
  | proto arg ret harg hret =>
    intro S
    rw [put]
    split
    · exact Below.refl _ _ _
    · exact (putLists_below_of (putEach_below_of hret S) (putEach_below_of harg _)).addType
        (Nat.le_succ _) (Nat.le_refl _)
  | array dims t ih | varg t ih =>
    intro S
    rw [put]
    split
    · exact Below.refl _ _ _
    · refine (ih S).addType ?_ ?_ <;> rw [depth] <;> omega
  | map | set =>
    intro S
    rw [put]
    split <;> exact Below.refl _ _ _

theorem putEach_below (l : List TypeDesc) (S : Store) :
    Below S (putEach S l).2 (depthList (putEach S l).1) (depthList (putEach S l).1) :=
  putEach_below_of (fun t _ => put_below t) S

theorem putLists_below (arg ret : List TypeDesc) (S : Store) :
    let r := S.putList ret (putEach S ret)
    let a := r.2.putList arg (putEach r.2 arg)
    Below S a.2 (max (depthList a.1) (depthList r.1)) (max (depthList a.1) (depthList r.1) + 1) :=
  putLists_below_of (putEach_below ret S) (putEach_below arg _)

end depth

section fresh

variable {S : Store}

theorem putEach_fresh_of (l : List TypeDesc)
    (hl : ∀ t ∈ l, sought S t ∉ S.types → (put S t).1 ∉ S.types) :
    putEach S l = (soughtEach S l, S) ∨ ∃ t ∈ (putEach S l).1, t ∉ S.types := by
  induction l with
  | nil => exact Or.inl rfl
  | cons t l ih =>
    rw [putEach, soughtEach]
    by_cases h : sought S t ∈ S.types
    · rw [put_of_mem h]
      rcases ih fun u hu => hl u (by simp [hu]) with heq | ⟨u, hu, hne⟩
      · exact Or.inl (by rw [heq])
      · exact Or.inr ⟨u, List.mem_cons_of_mem _ hu, hne⟩
    · exact Or.inr ⟨_, List.mem_cons_self, hl t (by simp) h⟩

theorem putEach_ne_nil {l : List TypeDesc} (h : l ≠ []) : (putEach S l).1 ≠ [] := by
  cases l with
  | nil => exact absurd rfl h
  | cons t l => simp [putEach]

theorem Closed.putEach_not_mem_of (hS : S.Closed) {l : List TypeDesc}
    (hl : ∀ t ∈ l, sought S t ∉ S.types → (put S t).1 ∉ S.types)
    (h : soughtEach S l ∉ S.lists) : (putEach S l).1 ∉ S.lists := by
  rcases putEach_fresh_of l hl with heq | ⟨t, ht, hne⟩
  · rwa [heq]
  · exact fun hmem => hne (hS.member hmem ht)

/-- Storing a list finds what the search finds, or stores a new list. -/
theorem Closed.putList_fresh_of (hS : S.Closed) (l : List TypeDesc)
    (hl : ∀ t ∈ l, sought S t ∉ S.types → (put S t).1 ∉ S.types) :
    S.putList l (putEach S l) = (S.known (soughtEach S l), S) ∨
      ((S.putList l (putEach S l)).1 ≠ [] ∧ (S.putList l (putEach S l)).1 ∉ S.lists) := by
  by_cases hnil : l = []
  · subst hnil
    exact Or.inl (by rw [putList_nil, soughtEach, known_nil])
  · by_cases hmem : soughtEach S l ∈ S.lists
    · exact Or.inl (by rw [putList_of_mem hnil hmem, known_of_mem hmem])
    · rw [putList_of_not_mem hnil hmem]
      exact Or.inr ⟨putEach_ne_nil hnil, hS.putEach_not_mem_of hl hmem⟩

/-- A descriptor is only stored when it is not held yet. -/
theorem Closed.put_fresh (hS : S.Closed) (t : TypeDesc) (h : sought S t ∉ S.types) :
    (put S t).1 ∉ S.types := by
  induction t using TypeDesc.induct with
  | base | klass | map | set =>
    rw [put, if_neg h]
    exact h
  | proto arg ret harg hret =>
    rw [put, if_neg h]
    rcases hS.putList_fresh_of ret hret with hr | ⟨hnil, hr⟩
    · rcases hS.putList_fresh_of arg harg with ha | ⟨hnil, ha⟩
      · rw [hr]
        dsimp only
        rw [ha]
        exact h
      · rw [hr]
        exact fun hmem => ha (hS.arg hmem hnil)
    · exact fun hmem => hr (hS.ret hmem hnil)
  | array dims t ih =>
    rw [put, if_neg h]
    by_cases ht : sought S t ∈ S.types
    · rw [put_of_mem ht]
      exact h
    · exact fun hmem => ih ht (hS.within hmem (.array .self))
  | varg t ih =>
    rw [put, if_neg h]
    by_cases ht : sought S t ∈ S.types
    · rw [put_of_mem ht]
      exact h
    · exact fun hmem => ih ht (hS.within hmem (.varg .self))

/-- Nor did storing its parts store it. -/
theorem Closed.not_mem_of_below (hS : S.Closed) {t u : TypeDesc} (h : sought S t ∉ S.types)
    (hput : (put S t).1 = u) {S' : Store} {n m : Nat} (hbelow : Below S S' n m)
    (hn : n < u.depth) : u ∉ S'.types := by
  intro hmem
  rcases hbelow.types u hmem with hu | hle
  · exact hS.put_fresh t h (hput ▸ hu)
  · omega

theorem Closed.putEach_not_mem (hS : S.Closed) {l : List TypeDesc}
    (h : soughtEach S l ∉ S.lists) : (putEach S l).1 ∉ (putEach S l).2.lists := by
  intro hmem
  rcases (putEach_below l S).lists _ hmem with hl | hlt
  · exact hS.putEach_not_mem_of (fun t _ => hS.put_fresh t) h hl
  · omega

end fresh

/-- Storing a list with its members. -/
noncomputable def putTypes (S : Store) (l : List TypeDesc) : List TypeDesc × Store :=
  S.putList l (putEach S l)

/-- Storing the two lists of a function type, but not the type itself. -/
noncomputable def putProto (S : Store) (p : ProtoDesc) : ProtoDesc × Store :=
  let r := S.putTypes p.ret
  let a := r.2.putTypes p.arg
  (⟨a.1, r.1⟩, a.2)

theorem put_klass (S : Store) (path : Option CString) (type : CString) :
    put S (.klass path type) = (.klass path type, S.addType (.klass path type)) := by
  rw [put]
  split
  · next h =>
    rw [sought] at h ⊢
    rw [addType, Set.insert_eq_of_mem h]
  · rfl

end Store

end koala.typedesc
