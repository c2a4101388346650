import Koala.Ast.Tree
import Koala.Basic
import Mathlib.Logic.Function.Basic
import Mathlib.Data.List.Count
import Mathlib.Data.List.Nodup

open koala.parser koala.typedesc

namespace koala.ast

set_option linter.style.nameCheck false

/-- The descriptors that a descriptor holds references to. -/
def parts : TypeDesc → List TypeDesc
  | .base _ => []
  | .klass _ _ => []
  | .proto arg ret => arg ++ ret
  | .array _ base => [base]
  | .map key val => [key, val]
  | .set base => [base]
  | .varg base => [base]

/-- The interned descriptors, the counts of references, and the descriptors that
were freed, the last first. -/
structure Descs where
  table : List TypeDesc
  refcnt : TypeDesc → Nat
  freed : List TypeDesc

namespace Descs

def raise (desc : TypeDesc) (s : Descs) : Descs :=
  { s with refcnt := Function.update s.refcnt desc (s.refcnt desc + 1) }

def lower (desc : TypeDesc) (s : Descs) : Descs :=
  { s with refcnt := Function.update s.refcnt desc (s.refcnt desc - 1) }

def TYPE_INCREF (desc : TypeDesc) (s : Descs) : Res Descs :=
  if desc ∈ s.table then .ok (s.raise desc) else .error .bounds

/-- A new descriptor has the reference of the table. -/
def new_typedesc (desc : TypeDesc) (s : Descs) : Descs :=
  { s with table := s.table ++ [desc], refcnt := Function.update s.refcnt desc 1 }

def remove (desc : TypeDesc) (s : Descs) : Descs :=
  { s with table := s.table.erase desc, freed := desc :: s.freed }

/-- `TYPE_DECREF` of a descriptor whose components `fini` gives back. -/
def decref (desc : TypeDesc) (fini : Descs → Res Descs) (s : Descs) : Res Descs :=
  if desc ∈ s.table then
    let s := s.lower desc
    if s.refcnt desc = 0 then fini (s.remove desc) else .ok s
  else .error .bounds

mutual

/-- `TYPE_DECREF` with `TypeDesc_Free`, which asserts that no basic type is freed. -/
def TYPE_DECREF : TypeDesc → Descs → Res Descs
  | .base type, s => s.decref (.base type) fun _ => .error .assertion
  | .klass path type, s => s.decref (.klass path type) fun s => .ok s
  | .proto arg ret, s => s.decref (.proto arg ret) fun s => do
    let s ← free_typelist arg s
    free_typelist ret s
  | .array dims base, s => s.decref (.array dims base) fun s => TYPE_DECREF base s
  | .map key val, s => s.decref (.map key val) fun s => do
    let s ← TYPE_DECREF key s
    TYPE_DECREF val s
  | .set base, s => s.decref (.set base) fun s => TYPE_DECREF base s
  | .varg base, s => s.decref (.varg base) fun s => TYPE_DECREF base s

def free_typelist : List TypeDesc → Descs → Res Descs
  | [], s => .ok s
  | desc :: vec, s => do
    let s ← TYPE_DECREF desc s
    free_typelist vec s

end

def increfs : List TypeDesc → Descs → Res Descs
  | [], s => .ok s
  | desc :: vec, s => do
    let s ← s.TYPE_INCREF desc
    increfs vec s

/-- `TypeDesc_Get_Klass`, `Array`, `Map`, `Set` and `Varg`. -/
def TypeDesc_Get (desc : TypeDesc) (s : Descs) : Res Descs :=
  if desc ∈ s.table then .ok s else increfs (parts desc) (s.new_typedesc desc)

/-- The references of the two vectors are handed over. -/
def TypeDesc_Get_Proto (arg ret : List TypeDesc) (s : Descs) : Res Descs :=
  if .proto arg ret ∈ s.table then do
    let s ← free_typelist arg s
    free_typelist ret s
  else .ok (s.new_typedesc (.proto arg ret))

end Descs

def Change.play : Change → Descs → Res Descs
  | .INCREF desc, s => s.TYPE_INCREF desc
  | .DECREF desc, s => Descs.TYPE_DECREF desc s
  | .GET desc, s => s.TypeDesc_Get desc
  | .PROTO arg ret, s => s.TypeDesc_Get_Proto arg ret

/-- What is done with descriptors, one after the other. -/
def play : List Change → Descs → Res Descs
  | [], s => .ok s
  | change :: changes, s => do
    let s ← change.play s
    play changes s

/-- The count of an interned descriptor is one for the table, and one for each
reference of another descriptor or from elsewhere; the latter are `held`. -/
structure Counted (s : Descs) (held : List TypeDesc) : Prop where
  nodup : s.table.Nodup
  count : ∀ t ∈ s.table, s.refcnt t = 1 + (s.table.flatMap parts).count t + held.count t
  held_mem : ∀ t ∈ held, t ∈ s.table
  parts_mem : ∀ t ∈ s.table, ∀ p ∈ parts t, p ∈ s.table
  basic : ∀ type, .base type ∈ s.table

/-- Nothing was freed, and what was interned before still is. -/
structure Grows (s s' : Descs) : Prop where
  freed : s'.freed = s.freed
  table : s.table <+: s'.table

section counted

variable {s s' s'' : Descs} {held held' : List TypeDesc} {t : TypeDesc}

theorem Grows.refl (s : Descs) : Grows s s := ⟨rfl, List.prefix_rfl⟩

theorem Grows.trans (h : Grows s s') (h' : Grows s' s'') : Grows s s'' :=
  ⟨h'.freed.trans h.freed, h.table.trans h'.table⟩

theorem Grows.mem (h : Grows s s') (ht : t ∈ s.table) : t ∈ s'.table := h.table.subset ht

theorem Counted.perm (h : Counted s held) (hperm : held.Perm held') : Counted s held' where
  nodup := h.nodup
  count t ht := by rw [← hperm.count_eq]; exact h.count t ht
  held_mem t ht := h.held_mem t (hperm.mem_iff.mpr ht)
  parts_mem := h.parts_mem
  basic := h.basic

/-- A reference is taken to an interned descriptor. -/
theorem Counted.incref (h : Counted s held) (ht : t ∈ s.table) :
    Counted (s.raise t) (t :: held) where
  nodup := h.nodup
  count u hu := by
    have hcount := h.count u hu
    change Function.update s.refcnt t (s.refcnt t + 1) u = 1 + (s.table.flatMap parts).count u +
      (t :: held).count u
    by_cases htu : u = t
    · subst htu
      rw [Function.update_self, List.count_cons_self]
      omega
    · rw [Function.update_of_ne htu, List.count_cons_of_ne (Ne.symm htu)]
      exact hcount
  held_mem u hu := by
    rcases List.mem_cons.mp hu with rfl | hu
    · exact ht
    · exact h.held_mem u hu
  parts_mem := h.parts_mem
  basic := h.basic

/-- A reference is given back. -/
theorem Counted.lower (h : Counted s (t :: held)) : Counted (s.lower t) held where
  nodup := h.nodup
  count u hu := by
    have hcount := h.count u hu
    change Function.update s.refcnt t (s.refcnt t - 1) u = 1 + (s.table.flatMap parts).count u +
      held.count u
    by_cases htu : u = t
    · subst htu
      rw [List.count_cons_self] at hcount
      rw [Function.update_self]
      omega
    · rw [List.count_cons_of_ne (Ne.symm htu)] at hcount
      rw [Function.update_of_ne htu]
      exact hcount
  held_mem u hu := h.held_mem u (List.mem_cons_of_mem t hu)
  parts_mem := h.parts_mem
  basic := h.basic

theorem Counted.two_le (h : Counted s (t :: held)) : 2 ≤ s.refcnt t := by
  have hcount := h.count t (h.held_mem t List.mem_cons_self)
  rw [List.count_cons_self] at hcount
  omega

/-- A descriptor that is held is not freed. -/
theorem Counted.decref (h : Counted s (t :: held)) : Descs.TYPE_DECREF t s = .ok (s.lower t) := by
  have hmem := h.held_mem t List.mem_cons_self
  have htwo := h.two_le
  have hne : (s.lower t).refcnt t ≠ 0 := by
    change Function.update s.refcnt t (s.refcnt t - 1) t ≠ 0
    rw [Function.update_self]
    omega
  have hdecref : ∀ fini, s.decref t fini = .ok (s.lower t) := fun fini => by
    unfold Descs.decref
    rw [if_pos hmem]
    exact if_neg hne
  cases t <;> rw [Descs.TYPE_DECREF] <;> exact hdecref _

theorem Counted.free_typelist {vec : List TypeDesc} (h : Counted s (vec ++ held)) :
    ∃ s', Descs.free_typelist vec s = .ok s' ∧ Counted s' held ∧ Grows s s' := by
  induction vec generalizing s with
  | nil => exact ⟨s, rfl, h, .refl s⟩
  | cons t vec ih =>
    obtain ⟨s', hrun, hcounted, hgrows⟩ := ih h.lower
    refine ⟨s', ?_, hcounted, ⟨hgrows.freed, hgrows.table⟩⟩
    rw [Descs.free_typelist, h.decref]
    exact hrun

theorem increfs_eq {vec : List TypeDesc} (hvec : ∀ t ∈ vec, t ∈ s.table) :
    Descs.increfs vec s = .ok { s with refcnt := fun u => s.refcnt u + vec.count u } := by
  induction vec generalizing s with
  | nil => rfl
  | cons t vec ih =>
    obtain ⟨ht, hvec⟩ := List.forall_mem_cons.mp hvec
    have hrest := @ih (s.raise t) hvec
    rw [Descs.increfs, Descs.TYPE_INCREF, if_pos ht, ok_bind, hrest]
    congr 2
    funext u
    change Function.update s.refcnt t (s.refcnt t + 1) u + vec.count u =
      s.refcnt u + (t :: vec).count u
    by_cases htu : u = t
    · subst htu
      rw [Function.update_self, List.count_cons_self]
      omega
    · rw [Function.update_of_ne htu, List.count_cons_of_ne (Ne.symm htu)]

/-- A descriptor that is not interned is neither held nor a component. -/
theorem Counted.count_new (h : Counted s held) (ht : t ∉ s.table) :
    (s.table.flatMap parts).count t = 0 ∧ held.count t = 0 := by
  constructor
  · refine List.count_eq_zero.mpr fun hmem => ?_
    obtain ⟨u, hu, htu⟩ := List.mem_flatMap.mp hmem
    exact ht (h.parts_mem u hu t htu)
  · exact List.count_eq_zero.mpr fun hmem => ht (h.held_mem t hmem)

/-- A new descriptor whose components are counted. -/
theorem Counted.new {refcnt : TypeDesc → Nat} (h : Counted s held) (ht : t ∉ s.table)
    (hparts : ∀ p ∈ parts t, p ∈ s.table)
    (hcount : ∀ u, refcnt u + held.count u =
      Function.update s.refcnt t 1 u + (parts t).count u + held'.count u)
    (hheld : ∀ u ∈ held', u ∈ held) :
    Counted { s with table := s.table ++ [t], refcnt := refcnt } held' where
  nodup := by
    refine List.nodup_append.mpr ⟨h.nodup, List.nodup_singleton t, fun u hu v hv => ?_⟩
    rw [List.mem_singleton.mp hv]
    rintro rfl
    exact ht hu
  count u hu := by
    have hnew := h.count_new ht
    have hself : t ∉ parts t := fun hmem => ht (hparts t hmem)
    have hu' := hcount u
    rw [List.flatMap_append, List.flatMap_singleton, List.count_append]
    dsimp only
    by_cases htu : u = t
    · subst htu
      rw [Function.update_self, hnew.2] at hu'
      rw [hnew.1]
      omega
    · have hold := h.count u ((List.mem_append.mp hu).resolve_right fun hmem =>
        htu (List.mem_singleton.mp hmem))
      rw [Function.update_of_ne htu] at hu'
      omega
  held_mem u hu := List.mem_append_left _ (h.held_mem u (hheld u hu))
  parts_mem u hu p hp := by
    refine List.mem_append_left _ ?_
    rcases List.mem_append.mp hu with hu | hu
    · exact h.parts_mem u hu p hp
    · rw [List.mem_singleton.mp hu] at hp
      exact hparts p hp
  basic type := List.mem_append_left _ (h.basic type)

theorem Counted.get (h : Counted s held) (hparts : ∀ p ∈ parts t, p ∈ s.table) :
    ∃ s', s.TypeDesc_Get t = .ok s' ∧ Counted s' held ∧ Grows s s' ∧ t ∈ s'.table := by
  unfold Descs.TypeDesc_Get
  by_cases ht : t ∈ s.table
  · rw [if_pos ht]
    exact ⟨s, rfl, h, .refl s, ht⟩
  · have hincrefs := @increfs_eq (s.new_typedesc t) (parts t)
      fun p hp => List.mem_append_left _ (hparts p hp)
    rw [if_neg ht, hincrefs]
    refine ⟨_, rfl, h.new ht hparts (fun u => rfl) fun u hu => hu, ⟨rfl, List.prefix_append _ _⟩, ?_⟩
    exact List.mem_append_right _ List.mem_cons_self

/-- A function type takes over the references to its components. -/
theorem Counted.proto {arg ret : List TypeDesc} (h : Counted s (arg ++ ret ++ held)) :
    ∃ s', s.TypeDesc_Get_Proto arg ret = .ok s' ∧ Counted s' held ∧ Grows s s' ∧
      .proto arg ret ∈ s'.table := by
  unfold Descs.TypeDesc_Get_Proto
  by_cases hproto : .proto arg ret ∈ s.table
  · rw [List.append_assoc] at h
    obtain ⟨s₁, hfirst, h₁, hgrows₁⟩ := h.free_typelist
    obtain ⟨s₂, hsecond, h₂, hgrows₂⟩ := h₁.free_typelist
    rw [if_pos hproto, hfirst, ok_bind]
    have hgrows := hgrows₁.trans hgrows₂
    exact ⟨s₂, hsecond, h₂, hgrows, hgrows.mem hproto⟩
  · have hparts : ∀ p ∈ arg ++ ret, p ∈ s.table := fun p hp =>
      h.held_mem p (List.mem_append_left _ hp)
    rw [if_neg hproto]
    refine ⟨_, rfl, h.new hproto hparts (fun u => ?_) fun u hu => List.mem_append_right _ hu,
      ⟨rfl, List.prefix_append _ _⟩, List.mem_append_right _ List.mem_cons_self⟩
    rw [List.count_append, parts]
    omega

end counted

end koala.ast
