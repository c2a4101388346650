import Koala.Basic
import Koala.List
import Mathlib.Data.List.Perm.Basic

open intrusive koala.list

namespace koala.cache

set_option linter.style.nameCheck false

/-- A cache with the nodes it has allocated, which are numbered. An object is given
by its node; `none` is the address of `free_list`. -/
structure Cache where
  total : Int
  used : Int
  links : Links (Option Nat)
  made : Nat

/-- The links are those of the memory before. -/
def Init_Cache (links : Links (Option Nat)) : Cache where
  total := 0
  used := 0
  links := init_list_head links none
  made := 0

def list_unlinked (m : Links (Option Nat)) (node : Option Nat) : Bool :=
  m.next node = node && m.prev node = node

def Cache_Take (cache : Cache) : Nat × Cache :=
  match cache.links.next none with
  | some node => (node, { cache with
      links := list_del cache.links (some node)
      used := cache.used + 1 })
  | none => (cache.made, { cache with
      links := init_list_head cache.links (some cache.made)
      made := cache.made + 1
      total := cache.total + 1
      used := cache.used + 1 })

def Cache_Restore (cache : Cache) (obj : Nat) : Res Cache :=
  if !list_unlinked cache.links (some obj) then .error .assertion
  else
    let used := cache.used - 1
    if used < 0 then .error .assertion
    else .ok { cache with links := list_add_tail cache.links (some obj) none, used }

/-- `list_for_each_safe` of `Fini_Cache`, with the nodes it frees. -/
def Fini_Cache.loop (links : Links (Option Nat)) : Nat → Option Nat → Res (List Nat)
  | _, none => .ok []
  | 0, some _ => .error .fuel
  | fuel + 1, some p => do
    let n := links.next (some p)
    let freed ← loop (list_del links (some p)) fuel n
    .ok (p :: freed)

/-- The nodes that are freed, in their order. -/
def Fini_Cache (cache : Cache) : Res (List Nat) :=
  if cache.used > 0 then .error .assertion
  else do
    let freed ← Fini_Cache.loop cache.links cache.made (cache.links.next none)
    if (freed.length : Int) ≠ cache.total then .error .assertion
    else .ok freed

/-- The objects in `free` are in the list, those in `out` are unlinked, and these are all. -/
structure Rep (cache : Cache) (free out : List Nat) : Prop where
  ring : cache.links.Ring none (free.map some)
  unlinked : ∀ obj ∈ out, cache.links.Ring (some obj) []
  all : (free ++ out).Perm (List.range cache.made)
  used : cache.used = out.length
  total : cache.total = cache.made

theorem rep_init (links : Links (Option Nat)) : Rep (Init_Cache links) [] [] where
  ring := init_list_head_ring links none
  unlinked := by simp
  all := List.Perm.refl _
  used := rfl
  total := rfl

theorem list_unlinked_iff {m : Links (Option Nat)} {node : Option Nat} :
    list_unlinked m node = true ↔ m.Ring node [] := by
  rw [list_unlinked, Bool.and_eq_true, decide_eq_true_iff, decide_eq_true_iff]
  constructor
  · rintro ⟨hnext, hprev⟩
    exact Links.ring_nil hnext hprev
  · intro h
    exact h.seg

section rep

variable {cache : Cache} {free out : List Nat}

theorem Rep.nodup (h : Rep cache free out) : (free ++ out).Nodup :=
  h.all.nodup_iff.mpr List.nodup_range

theorem Rep.mem_lt (h : Rep cache free out) {obj : Nat} (hobj : obj ∈ free ++ out) :
    obj < cache.made := List.mem_range.mp (h.all.mem_iff.mp hobj)

/-- An object that is out is apart from the list. -/
theorem Rep.apart (h : Rep cache free out) {obj : Nat} (hobj : obj ∈ out) :
    some obj ∉ none :: free.map some := by
  intro hmem
  have hfree : obj ∈ free := by simpa using hmem
  exact (List.disjoint_of_nodup_append h.nodup) hfree hobj

/-- The object that is taken is not out, and is out then. -/
theorem Rep.take (h : Rep cache free out) :
    ∃ obj cache', Cache_Take cache = (obj, cache') ∧ obj ∉ out ∧
      Rep cache' free.tail (out ++ [obj]) := by
  cases free with
  | nil =>
    have hnext : cache.links.next none = none := h.ring.seg.1
    have hnew : cache.made ∉ out := fun hmem => Nat.lt_irrefl _ (h.mem_lt hmem)
    refine ⟨cache.made, _, by rw [Cache_Take, hnext], hnew, ?_⟩
    refine ⟨?_, fun obj hobj => ?_, ?_, ?_, ?_⟩
    · exact init_list_head_ring_other h.ring (by simp)
    · obtain hold | hlast := List.mem_append.mp hobj
      · refine init_list_head_ring_other (h.unlinked obj hold) fun hmem => ?_
        have heq : cache.made = obj := by simpa using hmem
        exact hnew (heq ▸ hold)
      · rw [List.mem_singleton.mp hlast]
        exact init_list_head_ring cache.links _
    · rw [List.tail_nil, List.nil_append, List.range_succ]
      exact h.all.append_right _
    · simp [h.used]
    · simp [h.total]
  | cons obj free =>
    have hnext : cache.links.next none = some obj := h.ring.seg.1
    have hring : cache.links.Ring none ([] ++ some obj :: free.map some) := h.ring
    have hout : obj ∉ out := by
      intro hmem
      exact (List.disjoint_of_nodup_append h.nodup) List.mem_cons_self hmem
    refine ⟨obj, _, by rw [Cache_Take, hnext], hout, ?_⟩
    refine ⟨list_del_ring hring, fun o ho => ?_, ?_, ?_, h.total⟩
    · obtain hold | hlast := List.mem_append.mp ho
      · refine list_del_ring_other h.ring (h.unlinked o hold) (by simp) fun a ha hmem => ?_
        exact h.apart hold (List.mem_singleton.mp hmem ▸ ha)
      · rw [List.mem_singleton.mp hlast]
        exact init_list_head_ring _ _
    · refine List.Perm.trans ?_ h.all
      rw [List.tail_cons, ← List.append_assoc]
      exact List.perm_append_singleton obj (free ++ out)
    · simp [h.used]

/-- An object that is out is taken back without a failed assertion. -/
theorem Rep.restore (h : Rep cache free out) {obj : Nat} (hobj : obj ∈ out) :
    ∃ cache', Cache_Restore cache obj = .ok cache' ∧ Rep cache' (free ++ [obj]) (out.erase obj) := by
  have hlength := List.length_pos_of_mem hobj
  have hnodup : out.Nodup := (List.nodup_append.mp h.nodup).2.1
  refine ⟨{ cache with
    links := list_add_tail cache.links (some obj) none
    used := cache.used - 1 }, ?_, ?_⟩
  · rw [Cache_Restore, list_unlinked_iff.mpr (h.unlinked obj hobj)]
    dsimp only [Bool.not_true]
    rw [if_neg (by decide), if_neg (by rw [h.used]; omega)]
  · refine ⟨?_, fun o ho => ?_, ?_, ?_, h.total⟩
    · rw [List.map_append]
      exact list_add_tail_ring h.ring (h.apart hobj)
    · obtain ⟨hne, hmem⟩ := hnodup.mem_erase_iff.mp ho
      refine list_add_tail_ring_other h.ring (h.unlinked o hmem) ?_ fun a ha hmema => ?_
      · simpa using Ne.symm hne
      · exact h.apart hmem (List.mem_singleton.mp hmema ▸ ha)
    · refine List.Perm.trans ?_ h.all
      rw [List.append_assoc]
      exact (List.perm_cons_erase hobj).symm.append_left free
    · rw [List.length_erase_of_mem hobj]
      dsimp only
      rw [h.used]
      omega

/-- All free nodes are freed, in the order of the list. -/
theorem fini_loop_eq {links : Links (Option Nat)} {free : List Nat} {fuel : Nat}
    (hring : links.Ring none (free.map some)) (hfuel : free.length ≤ fuel) :
    Fini_Cache.loop links fuel (links.next none) = .ok free := by
  induction free generalizing links fuel with
  | nil =>
    have hnext : links.next none = none := hring.seg.1
    rw [hnext]
    cases fuel <;> rfl
  | cons p free ih =>
    have hnext : links.next none = some p := hring.seg.1
    have hrest : (list_del links (some p)).Ring none (free.map some) :=
      list_del_ring (l := []) hring
    have hsame : (list_del links (some p)).next none = links.next (some p) := by
      have hfirst := hrest.seg.next_start
      have hsecond := hring.seg.2.2.next_start
      rw [hfirst, hsecond]
    cases fuel with
    | zero => exact absurd hfuel (Nat.not_succ_le_zero _)
    | succ fuel =>
      have hloop := ih hrest (Nat.le_of_succ_le_succ hfuel)
      rw [hnext, Fini_Cache.loop]
      rw [hsame] at hloop
      rw [hloop]
      rfl

theorem Rep.fini (h : Rep cache free []) : Fini_Cache cache = .ok free := by
  have hlength : free.length = cache.made := by
    simpa using h.all.length_eq
  rw [Fini_Cache, if_neg (by simp [h.used]), fini_loop_eq h.ring (Nat.le_of_eq hlength), ok_bind,
    if_neg (by simp [h.total, hlength])]

end rep

/-- The calls on a cache, with the objects that are out. -/
inductive History : List Nat → Cache → Prop where
  | init (links) : History [] (Init_Cache links)
  | take {out cache obj cache'} : History out cache → Cache_Take cache = (obj, cache') →
    History (out ++ [obj]) cache'
  | restore {out cache obj cache'} : History out cache → obj ∈ out →
    Cache_Restore cache obj = .ok cache' → History (out.erase obj) cache'

theorem History.rep {out : List Nat} {cache : Cache} (h : History out cache) :
    ∃ free, Rep cache free out := by
  induction h with
  | init links => exact ⟨[], rep_init links⟩
  | take _ htake ih =>
    obtain ⟨free, hrep⟩ := ih
    obtain ⟨obj, cache', htake', _, hrep'⟩ := hrep.take
    rw [htake] at htake'
    obtain ⟨rfl, rfl⟩ := Prod.mk.inj htake'
    exact ⟨free.tail, hrep'⟩
  | restore _ hobj hrestore ih =>
    obtain ⟨free, hrep⟩ := ih
    obtain ⟨cache', hrestore', hrep'⟩ := hrep.restore hobj
    rw [hrestore] at hrestore'
    obtain rfl := Except.ok.inj hrestore'
    exact ⟨_, hrep'⟩

/-- However objects are taken and restored: the next object is not out, the
counters are right, an object that is out can be restored, and when none is out
each object is freed once. -/
theorem object_cache_once {out : List Nat} {cache : Cache} (h : History out cache) :
    (Cache_Take cache).1 ∉ out ∧ out.Nodup ∧ cache.used = out.length ∧
      (∃ free : List Nat, cache.links.Ring none (free.map some) ∧
        cache.total = out.length + free.length) ∧
      (∀ obj ∈ out, ∃ cache', Cache_Restore cache obj = .ok cache') ∧
      (out = [] → ∃ freed, Fini_Cache cache = .ok freed ∧ freed.Perm (List.range cache.made)) := by
  obtain ⟨free, hrep⟩ := h.rep
  refine ⟨?_, (List.nodup_append.mp hrep.nodup).2.1, hrep.used, ⟨free, hrep.ring, ?_⟩, ?_, ?_⟩
  · obtain ⟨obj, cache', htake, hnew, _⟩ := hrep.take
    rw [htake]
    exact hnew
  · have hlength := hrep.all.length_eq
    rw [List.length_append, List.length_range] at hlength
    rw [hrep.total]
    omega
  · intro obj hobj
    obtain ⟨cache', hrestore, _⟩ := hrep.restore hobj
    exact ⟨cache', hrestore⟩
  · rintro rfl
    refine ⟨free, hrep.fini, ?_⟩
    simpa using hrep.all

/-- The object that was restored is handed out again while another one stays out. -/
theorem object_cache_once_reused :
    ∃ out cache, History out cache ∧ out = [1] ∧ (Cache_Take cache).1 = 0 ∧ 0 ∉ out ∧
      cache.used = 1 := by
  have hfirst := History.take (History.init ⟨id, id⟩) rfl
  have hsecond := History.take hfirst rfl
  obtain ⟨cache, hrestore⟩ := (object_cache_once hsecond).2.2.2.2.1 0 (by decide)
  have hout := History.restore hsecond (by decide) hrestore
  obtain ⟨hnew, _, hused, _⟩ := object_cache_once hout
  have htake : (Cache_Take cache).1 = 0 := by
    obtain rfl := Except.ok.inj hrestore
    rfl
  exact ⟨_, cache, hout, rfl, htake, htake ▸ hnew, hused⟩

end koala.cache
