import Koala.Bytes
import Mathlib.Logic.Function.Basic

namespace koala.vector

set_option linter.style.nameCheck false

/-- The requests for memory so far, the last one first, and whether each was granted. -/
abbrev Heap := List (Nat × Bool)

/-- No request was refused. -/
def Succeeded (heap : Heap) : Prop := ∀ request ∈ heap, request.2 = true

/-- `calloc`: it may refuse any request, and refuses those above `PTRDIFF_MAX`. -/
structure Allocator where
  grants : Heap → Nat → Bool
  limit : ∀ heap size, grants heap size = true → size < 2 ^ 63

def Malloc (a : Allocator) (heap : Heap) (size : Nat) : Bool × Heap :=
  (a.grants heap size, (size, a.grants heap size) :: heap)

/-- The items are pointers, of which one is NULL; the array is NULL or its slots. -/
structure Vector (α : Type) where
  size : Nat
  capacity : Int
  items : Option (List (Option α))

variable {α : Type}

def Vector_Init : Vector α := ⟨0, 0, none⟩

def DEFAULT_CAPACITY : Int := 8

/-- `n * sizeof(void *)` as a `size_t` -/
def sizeofItems (n : Int) : Nat := (n % 2 ^ 64).toNat * 8 % 2 ^ 64

/-- The first `size` slots of an old array, if there is one, copied into a new one. -/
def copyItems (items : List (Option α)) (old : Option (List (Option α))) (size : Nat) :
    Res (List (Option α)) :=
  match old with
  | none => .ok items
  | some old =>
    if size ≤ old.length ∧ size ≤ items.length then .ok (old.take size ++ items.drop size)
    else .error .bounds

/-- A shift of an `int` keeps the low 32 bits. -/
def vector_expand (a : Allocator) (heap : Heap) (vec : Vector α) (newsize : Nat) :
    Res (Int × Vector α × Heap) :=
  let capacity := vec.capacity
  if newsize ≤ capacity then .ok (0, vec, heap)
  else
    let new_allocated :=
      if capacity = 0 then DEFAULT_CAPACITY else int32 (uint32 (capacity * 2))
    let size := sizeofItems new_allocated
    let (granted, heap) := Malloc a heap size
    if granted then do
      let items ← copyItems (List.replicate (size / 8) none) vec.items vec.size
      .ok (0, ⟨vec.size, new_allocated, some items⟩, heap)
    else .ok (-1, vec, heap)

def Vector_Set (a : Allocator) (heap : Heap) (vec : Vector α) (index : Int)
    (item : Option α) : Res (Int × Vector α × Heap) :=
  if index < 0 ∨ index > vec.size then .ok (-1, vec, heap)
  else do
    let i := index.toNat
    let newsize ← addInt i 1
    let (res, vec, heap) ← vector_expand a heap vec newsize
    if res < 0 then .ok (-1, vec, heap)
    else
      match vec.items with
      | none => .error .null
      | some items =>
        if i < items.length then
          .ok (0, { vec with
            items := some (items.set i item)
            size := if i ≥ vec.size then newsize else vec.size }, heap)
        else .error .bounds

def Vector_Append (a : Allocator) (heap : Heap) (vec : Vector α) (item : Option α) :
    Res (Int × Vector α × Heap) := Vector_Set a heap vec vec.size item

/-- The slot `items[i]` of the array. -/
def Vector.item (vec : Vector α) (i : Nat) : Res (Option α) :=
  match vec.items with
  | none => .error .null
  | some items =>
    match items[i]? with
    | none => .error .bounds
    | some item => .ok item

def Vector_Get (vec : Vector α) (index : Int) : Res (Option α) :=
  if vec.items.isNone ∨ index < 0 ∨ index ≥ vec.size then .ok none
  else vec.item index.toNat

/-- The rest of `Vector_ForEach` over `src`, from the slot `i`; `dest` is another vector. -/
def Vector_Concat.loop (a : Allocator) (src : Vector α) : Nat → Nat → Heap → Vector α →
    Res (Vector α × Heap)
  | 0, _, heap, dest => .ok (dest, heap)
  | n + 1, i, heap, dest => do
    let item ← src.item i
    let (_, dest, heap) ← Vector_Append a heap dest item
    loop a src n (i + 1) heap dest

def Vector_Concat (a : Allocator) (heap : Heap) (dest : Vector α) (src : Option (Vector α)) :
    Res (Vector α × Heap) :=
  match src with
  | none => .ok (dest, heap)
  | some src => Vector_Concat.loop a src src.size 0 heap dest

end koala.vector

namespace koala.vector

variable {α : Type}

/-- The slots of the array. -/
def Vector.slots (vec : Vector α) : List (Option α) := vec.items.getD []

/-- The items in use. -/
def Vector.list (vec : Vector α) : List (Option α) := vec.slots.take vec.size

/-- The capacity is the length of the array, which has doubled from its default. -/
structure Vector.Valid (vec : Vector α) : Prop where
  capacity : vec.capacity = vec.slots.length
  size_le : vec.size ≤ vec.slots.length
  doubled : vec.capacity = 0 ∨ ∃ k ≤ 27, vec.capacity = 2 ^ (k + 3)

theorem valid_init : (Vector_Init : Vector α).Valid :=
  ⟨rfl, Nat.le_refl _, Or.inl rfl⟩

variable {vec : Vector α} {a : Allocator} {heap : Heap}

theorem Vector.Valid.length_list (h : vec.Valid) : vec.list.length = vec.size := by
  rw [Vector.list, List.length_take]
  exact Nat.min_eq_left h.size_le

theorem Vector.Valid.slots_le (h : vec.Valid) : vec.slots.length ≤ 2 ^ 30 := by
  have hcapacity := h.capacity
  obtain hzero | ⟨k, hk, hpow⟩ := h.doubled
  · omega
  · have hle : (2 : Int) ^ (k + 3) ≤ 2 ^ 30 := pow_le_pow_right₀ (by decide) (by omega)
    omega

/-- Slots that are read lie in the array. -/
theorem Vector.Valid.item (h : vec.Valid) {i : Nat} (hi : i < vec.size) :
    ∃ item, vec.item i = .ok item ∧ vec.list[i]? = some item := by
  have hlt : i < vec.slots.length := lt_of_lt_of_le hi h.size_le
  refine ⟨vec.slots[i], ?_, ?_⟩
  · cases hitems : vec.items with
    | none => simp [Vector.slots, hitems] at hlt
    | some items =>
      have hslots : vec.slots = items := by simp [Vector.slots, hitems]
      rw [hslots] at hlt
      simp [Vector.item, hitems, hslots, hlt]
  · rw [Vector.list, List.getElem?_take_of_lt hi, List.getElem?_eq_getElem hlt]

theorem sizeofItems_div {n : Int} (hpos : 0 ≤ n) (hlt : n < 2 ^ 31) :
    sizeofItems n / 8 = n.toNat := by
  unfold sizeofItems
  omega

/-- The doubled capacity, unless it is too large for an `int`: then the request is. -/
theorem Vector.Valid.double (h : vec.Valid) {n : Int}
    (hn : n = if vec.capacity = 0 then DEFAULT_CAPACITY else int32 (uint32 (vec.capacity * 2))) :
    2 ^ 63 ≤ sizeofItems n ∨
      vec.capacity < n ∧ sizeofItems n / 8 = n.toNat ∧ ∃ k ≤ 27, n = 2 ^ (k + 3) := by
  obtain hzero | ⟨k, hk, hpow⟩ := h.doubled
  · rw [if_pos hzero] at hn
    subst hn
    exact Or.inr ⟨by simp [hzero, DEFAULT_CAPACITY], sizeofItems_div (by decide) (by decide),
      0, by decide, rfl⟩
  · have hne : vec.capacity ≠ 0 := by
      rw [hpow]
      exact (pow_pos (by decide) _).ne'
    rw [if_neg hne, hpow, ← pow_succ] at hn
    obtain rfl | hlt := Nat.eq_or_lt_of_le hk
    · left
      subst hn
      decide
    · have hle : (2 : Int) ^ (k + 3 + 1) ≤ 2 ^ 30 := pow_le_pow_right₀ (by decide) (by omega)
      have hpos : (0 : Int) < 2 ^ (k + 3 + 1) := pow_pos (by decide) _
      rw [int32_uint32 ⟨by omega, by omega⟩] at hn
      refine Or.inr ⟨?_, ?_, k + 1, hlt, hn⟩
      · rw [hn, hpow]
        exact pow_lt_pow_right₀ (by decide) (Nat.lt_succ_self _)
      · exact sizeofItems_div (hn ▸ hpos.le) (by omega)

theorem succeeded_cons {request : Nat × Bool} :
    Succeeded (request :: heap) ↔ request.2 = true ∧ Succeeded heap := List.forall_mem_cons

/-- The items in use are moved into a larger array. -/
theorem Vector.Valid.copied (h : vec.Valid) {fresh : List (Option α)}
    (hle : vec.size ≤ fresh.length) :
    ∃ items, copyItems fresh vec.items vec.size = .ok items ∧
      items.length = fresh.length ∧ items.take vec.size = vec.list := by
  have hsize := h.size_le
  unfold Vector.list Vector.slots
  cases hitems : vec.items with
  | none =>
    have hzero : vec.size = 0 := by simpa [Vector.slots, hitems] using hsize
    exact ⟨fresh, rfl, rfl, by simp [hzero]⟩
  | some old =>
    have hold : vec.size ≤ old.length := by simpa [Vector.slots, hitems] using hsize
    have hlength : (old.take vec.size).length = vec.size := by
      rw [List.length_take]
      exact Nat.min_eq_left hold
    refine ⟨old.take vec.size ++ fresh.drop vec.size, if_pos ⟨hold, hle⟩, ?_, ?_⟩
    · rw [List.length_append, hlength, List.length_drop]
      omega
    · exact List.take_left' hlength

/-- Room for one more slot. -/
theorem Vector.Valid.expand (h : vec.Valid) (a : Allocator) (heap : Heap) {newsize : Nat}
    (hle : newsize ≤ vec.size + 1) :
    ∃ res vec' heap', vector_expand a heap vec newsize = .ok (res, vec', heap') ∧
      vec'.Valid ∧ vec'.size = vec.size ∧ vec'.list = vec.list ∧
      (Succeeded heap' → Succeeded heap) ∧
      (res = 0 ∧ newsize ≤ vec'.slots.length ∨ res = -1 ∧ vec' = vec ∧ ¬ Succeeded heap') := by
  unfold vector_expand
  by_cases hroom : (newsize : Int) ≤ vec.capacity
  · have hslots : newsize ≤ vec.slots.length := by
      have hcapacity := h.capacity
      omega
    exact ⟨0, vec, heap, if_pos hroom, h, rfl, rfl, id, Or.inl ⟨rfl, hslots⟩⟩
  · rw [if_neg hroom]
    dsimp only [Malloc]
    generalize hn : (if vec.capacity = 0 then DEFAULT_CAPACITY
      else int32 (uint32 (vec.capacity * 2))) = n
    cases hgrant : a.grants heap (sizeofItems n) with
    | false =>
      refine ⟨-1, vec, _, rfl, h, rfl, rfl, fun hs => (succeeded_cons.mp hs).2,
        Or.inr ⟨rfl, rfl, fun hs => ?_⟩⟩
      exact Bool.false_ne_true (succeeded_cons.mp hs).1
    | true =>
      obtain hhuge | ⟨hgrow, hslots, hpow⟩ := h.double hn.symm
      · exact absurd (a.limit _ _ hgrant) (Nat.not_lt.mpr hhuge)
      · have hcapacity := h.capacity
        have hsize := h.size_le
        have hfresh : (List.replicate (sizeofItems n / 8) (none : Option α)).length = n.toNat := by
          rw [List.length_replicate, hslots]
        obtain ⟨items, hcopy, hlength, htake⟩ := h.copied (hfresh ▸ by omega :
          vec.size ≤ (List.replicate (sizeofItems n / 8) (none : Option α)).length)
        rw [hfresh] at hlength
        refine ⟨0, ⟨vec.size, n, some items⟩, (sizeofItems n, true) :: heap, ?_,
          ⟨?_, ?_, Or.inr hpow⟩, rfl, htake,
          fun hs => (succeeded_cons.mp hs).2, Or.inl ⟨rfl, ?_⟩⟩
        · rw [if_pos rfl, hcopy]
          rfl
        · change n = (items.length : Int)
          omega
        · change vec.size ≤ items.length
          omega
        · change newsize ≤ items.length
          omega

/-- What `Vector_Set` does to the list of the items. -/
def setList (l : List (Option α)) (index : Int) (item : Option α) : Int × List (Option α) :=
  if 0 ≤ index ∧ index < l.length then (0, l.set index.toNat item)
  else if index = l.length then (0, l ++ [item])
  else (-1, l)

/-- The item of a list at an index, or NULL. -/
def getList (l : List (Option α)) (index : Int) : Option α :=
  if 0 ≤ index then l[index.toNat]?.getD none else none

/-- The vector after a write to the slot `i`. -/
def Vector.write (vec : Vector α) (i : Nat) (item : Option α) : Vector α :=
  ⟨if i ≥ vec.size then i + 1 else vec.size, vec.capacity, some (vec.slots.set i item)⟩

@[simp] theorem slots_write (vec : Vector α) (i : Nat) (item : Option α) :
    (vec.write i item).slots = vec.slots.set i item := rfl

section write

variable {i : Nat} {item : Option α}

theorem Vector.Valid.write (h : vec.Valid) (hlt : i < vec.slots.length) :
    (vec.write i item).Valid where
  capacity := by
    rw [slots_write, List.length_set]
    exact h.capacity
  size_le := by
    have hsize := h.size_le
    rw [slots_write, List.length_set]
    unfold Vector.write
    dsimp only
    split <;> omega
  doubled := h.doubled

theorem list_write (hlt : i < vec.slots.length) (hi : i ≤ vec.size) :
    (vec.write i item).list = if i < vec.size then vec.list.set i item else vec.list ++ [item] := by
  rw [Vector.list, Vector.list, slots_write]
  by_cases hold : i < vec.size
  · rw [if_pos hold, Vector.write, if_neg (Nat.not_le.mpr hold), List.take_set]
  · obtain rfl : i = vec.size := Nat.le_antisymm hi (Nat.not_lt.mp hold)
    rw [if_neg hold, Vector.write, if_pos (Nat.le_refl _), List.take_set,
      List.take_succ_eq_append_getElem hlt, List.set_append_right _ _ (List.length_take_le _ _)]
    simp [Nat.min_eq_left hlt.le]

end write

/-- Each item is set as in a list, unless a request is refused. -/
theorem Vector.Valid.set (h : vec.Valid) (a : Allocator) (heap : Heap) (index : Int)
    (item : Option α) :
    ∃ res vec' heap', Vector_Set a heap vec index item = .ok (res, vec', heap') ∧ vec'.Valid ∧
      (Succeeded heap' → Succeeded heap ∧ (res, vec'.list) = setList vec.list index item) := by
  unfold Vector_Set setList
  rw [h.length_list]
  by_cases hout : index < 0 ∨ index > vec.size
  · refine ⟨-1, vec, heap, if_pos hout, h, fun hs => ⟨hs, ?_⟩⟩
    rw [if_neg (by omega), if_neg (by omega)]
  · rw [if_neg hout]
    have hi : index.toNat ≤ vec.size := by omega
    have hslots := h.slots_le
    have hsize := h.size_le
    have hnewsize : addInt index.toNat 1 = .ok (index.toNat + 1) :=
      if_pos (by unfold INT_MAX; omega)
    obtain ⟨res, vec', heap', hexpand, hvalid, hsame, hlist, hheap, hres⟩ :=
      h.expand a heap (Nat.succ_le_succ hi)
    simp only [hnewsize, ok_bind, hexpand]
    obtain ⟨rfl, hroom⟩ | ⟨rfl, rfl, hfailed⟩ := hres
    · have hlt : index.toNat < vec'.slots.length := hroom
      refine ⟨0, vec'.write index.toNat item, heap', ?_, hvalid.write hlt,
        fun hs => ⟨hheap hs, ?_⟩⟩
      · cases hitems : vec'.items with
        | none => simp [Vector.slots, hitems] at hlt
        | some items =>
          have hitems' : vec'.slots = items := by simp [Vector.slots, hitems]
          rw [hitems'] at hlt
          simp [hlt, Vector.write, hitems']
      · rw [list_write hlt (hsame ▸ hi), hlist, hsame]
        by_cases hold : index < vec.size
        · rw [if_pos (by omega), if_pos (by omega)]
        · rw [if_neg (by omega), if_neg (by omega), if_pos (by omega)]
    · exact ⟨-1, vec', heap', rfl, h, fun hs => absurd hs hfailed⟩

theorem Vector.Valid.append (h : vec.Valid) (a : Allocator) (heap : Heap) (item : Option α) :
    ∃ res vec' heap', Vector_Append a heap vec item = .ok (res, vec', heap') ∧ vec'.Valid ∧
      (Succeeded heap' → Succeeded heap ∧ res = 0 ∧ vec'.list = vec.list ++ [item]) := by
  obtain ⟨res, vec', heap', hset, hvalid, hlist⟩ := h.set a heap vec.size item
  refine ⟨res, vec', heap', hset, hvalid, fun hs => ?_⟩
  obtain ⟨hheap, heq⟩ := hlist hs
  rw [setList, h.length_list, if_neg (by omega), if_pos rfl] at heq
  obtain ⟨rfl, hvec⟩ := Prod.mk.inj heq
  exact ⟨hheap, rfl, hvec⟩

theorem Vector.Valid.get (h : vec.Valid) (index : Int) :
    Vector_Get vec index = .ok (getList vec.list index) := by
  unfold Vector_Get getList
  by_cases hout : vec.items.isNone ∨ index < 0 ∨ index ≥ vec.size
  · rw [if_pos hout]
    split
    · have hlength := h.length_list
      have hsize : vec.size ≤ index.toNat := by
        obtain hnone | hneg | hge := hout
        · have hzero : vec.size ≤ 0 := by
            have hle := h.size_le
            simpa [Vector.slots, Option.isNone_iff_eq_none.mp hnone] using hle
          omega
        · omega
        · omega
      rw [List.getElem?_eq_none (by omega), Option.getD_none]
    · rfl
  · rw [not_or, not_or] at hout
    rw [if_neg (by simpa using hout), if_pos (by omega)]
    obtain ⟨item, hitem, hget⟩ := h.item (i := index.toNat) (by omega)
    rw [hitem, hget, Option.getD_some]

/-- The rest of the source is appended. -/
theorem concat_loop {src : Vector α} (hsrc : src.Valid) (n i : Nat) (hn : i + n = src.size)
    (heap : Heap) {dest : Vector α} (h : dest.Valid) :
    ∃ dest' heap', Vector_Concat.loop a src n i heap dest = .ok (dest', heap') ∧ dest'.Valid ∧
      (Succeeded heap' → Succeeded heap ∧ dest'.list = dest.list ++ src.list.drop i) := by
  induction n generalizing i heap dest with
  | zero =>
    refine ⟨dest, heap, rfl, h, fun hs => ⟨hs, ?_⟩⟩
    rw [List.drop_eq_nil_of_le (by rw [hsrc.length_list]; omega), List.append_nil]
  | succ n ih =>
    obtain ⟨item, hitem, hget⟩ := hsrc.item (i := i) (by omega)
    obtain ⟨res, mid, heap₁, happend, hmid, hmidlist⟩ := h.append a heap item
    obtain ⟨dest', heap', hloop, hvalid, hlist⟩ := ih (i + 1) (by omega) heap₁ hmid
    refine ⟨dest', heap', ?_, hvalid, fun hs => ?_⟩
    · rw [Vector_Concat.loop, hitem, ok_bind, happend, ok_bind]
      exact hloop
    · obtain ⟨hheap₁, hdest'⟩ := hlist hs
      obtain ⟨hheap, _, hmid'⟩ := hmidlist hheap₁
      obtain ⟨hlt, hitem'⟩ := List.getElem?_eq_some_iff.mp hget
      rw [List.drop_eq_getElem_cons hlt, hitem', hdest', hmid', List.append_assoc,
        List.singleton_append]
      exact ⟨hheap, rfl⟩

theorem Vector.Valid.concat {src : Vector α} (hsrc : src.Valid) {dest : Vector α}
    (h : dest.Valid) (a : Allocator) (heap : Heap) :
    ∃ dest' heap', Vector_Concat a heap dest (some src) = .ok (dest', heap') ∧ dest'.Valid ∧
      (Succeeded heap' → Succeeded heap ∧ dest'.list = dest.list ++ src.list) :=
  concat_loop hsrc src.size 0 (Nat.zero_add _) heap h

/-- Some vectors and the memory they share. -/
structure Vectors (ι α : Type) where
  vecs : ι → Vector α
  heap : Heap

def Vectors.init {ι : Type} : Vectors ι α := ⟨fun _ => Vector_Init, []⟩

/-- The operations on vectors; a vector is not concatenated to itself. -/
inductive Op (ι α : Type) where
  | set (vec : ι) (index : Int) (item : Option α)
  | append (vec : ι) (item : Option α)
  | get (vec : ι) (index : Int)
  | concat (dest : ι) (src : Option ι) (distinct : src ≠ some dest)

inductive Output (α : Type) where
  | void
  | int (res : Int)
  | item (item : Option α)

namespace Op

variable {ι : Type} [DecidableEq ι]

def run (a : Allocator) (s : Vectors ι α) : Op ι α → Res (Output α × Vectors ι α)
  | set v index item => do
    let (res, vec, heap) ← Vector_Set a s.heap (s.vecs v) index item
    .ok (.int res, ⟨Function.update s.vecs v vec, heap⟩)
  | append v item => do
    let (res, vec, heap) ← Vector_Append a s.heap (s.vecs v) item
    .ok (.int res, ⟨Function.update s.vecs v vec, heap⟩)
  | get v index => do
    let item ← Vector_Get (s.vecs v) index
    .ok (.item item, s)
  | concat dest src _ => do
    let (vec, heap) ← Vector_Concat a s.heap (s.vecs dest) (src.map s.vecs)
    .ok (.void, ⟨Function.update s.vecs dest vec, heap⟩)

def runAll (a : Allocator) : Vectors ι α → List (Op ι α) → Res (List (Output α) × Vectors ι α)
  | s, [] => .ok ([], s)
  | s, op :: ops => do
    let (out, s) ← op.run a s
    let (outs, s) ← runAll a s ops
    .ok (out :: outs, s)

/-- The same operation on lists. -/
def onLists (l : ι → List (Option α)) : Op ι α → Output α × (ι → List (Option α))
  | set v index item =>
    (.int (setList (l v) index item).1, Function.update l v (setList (l v) index item).2)
  | append v item => (.int 0, Function.update l v (l v ++ [item]))
  | get v index => (.item (getList (l v) index), l)
  | concat dest src _ => (.void, Function.update l dest (l dest ++ src.elim [] l))

def allOnLists : (ι → List (Option α)) → List (Op ι α) → List (Output α) × (ι → List (Option α))
  | l, [] => ([], l)
  | l, op :: ops =>
    let (out, l) := op.onLists l
    let (outs, l) := allOnLists l ops
    (out :: outs, l)

end Op

section refinement

variable {ι : Type} [DecidableEq ι] {s : Vectors ι α}

def Vectors.Valid (s : Vectors ι α) : Prop := ∀ v, (s.vecs v).Valid

def Vectors.lists (s : Vectors ι α) : ι → List (Option α) := fun v => (s.vecs v).list

theorem Vectors.Valid.update (h : s.Valid) {v : ι} {vec : Vector α} (hvec : vec.Valid)
    (heap : Heap) : Vectors.Valid ⟨Function.update s.vecs v vec, heap⟩ := by
  intro w
  by_cases hw : w = v
  · subst hw
    simpa using hvec
  · simpa [hw] using h w

theorem lists_update {v : ι} {vec : Vector α} {heap : Heap} :
    Vectors.lists ⟨Function.update s.vecs v vec, heap⟩ =
      Function.update s.lists v vec.list := by
  funext w
  by_cases hw : w = v
  · subst hw
    simp [Vectors.lists]
  · simp [Vectors.lists, hw]

/-- Each operation does on the vectors what it does on their lists. -/
theorem Vectors.Valid.run (h : s.Valid) (op : Op ι α) :
    ∃ out s', op.run a s = .ok (out, s') ∧ s'.Valid ∧
      (Succeeded s'.heap → Succeeded s.heap ∧ (out, s'.lists) = op.onLists s.lists) := by
  cases op with
  | set v index item =>
    obtain ⟨res, vec, heap, hset, hvalid, hlist⟩ := (h v).set a s.heap index item
    refine ⟨_, _, by rw [Op.run, hset]; rfl, h.update hvalid heap, fun hs => ?_⟩
    obtain ⟨hheap, heq⟩ := hlist hs
    refine ⟨hheap, ?_⟩
    rw [Op.onLists, lists_update, Vectors.lists, ← heq]
  | append v item =>
    obtain ⟨res, vec, heap, happend, hvalid, hlist⟩ := (h v).append a s.heap item
    refine ⟨_, _, by rw [Op.run, happend]; rfl, h.update hvalid heap, fun hs => ?_⟩
    obtain ⟨hheap, hres, heq⟩ := hlist hs
    refine ⟨hheap, ?_⟩
    rw [Op.onLists, lists_update, heq, hres, Vectors.lists]
  | get v index =>
    exact ⟨_, s, by rw [Op.run, (h v).get]; rfl, h, fun hs => ⟨hs, rfl⟩⟩
  | concat dest src distinct =>
    cases src with
    | none =>
      refine ⟨.void, ⟨Function.update s.vecs dest (s.vecs dest), s.heap⟩, rfl,
        h.update (h dest) _, fun hs => ⟨hs, ?_⟩⟩
      simp [Op.onLists, Vectors.lists]
    | some src =>
      obtain ⟨vec, heap, hconcat, hvalid, hlist⟩ :=
        (h src).concat (h dest) a s.heap
      refine ⟨_, _, by rw [Op.run, Option.map_some, hconcat]; rfl, h.update hvalid heap,
        fun hs => ?_⟩
      obtain ⟨hheap, heq⟩ := hlist hs
      refine ⟨hheap, ?_⟩
      rw [Op.onLists, lists_update, heq]
      rfl

theorem Vectors.Valid.runAll (h : s.Valid) (ops : List (Op ι α)) :
    ∃ outs s', Op.runAll a s ops = .ok (outs, s') ∧ s'.Valid ∧
      (Succeeded s'.heap → Succeeded s.heap ∧ (outs, s'.lists) = Op.allOnLists s.lists ops) := by
  induction ops generalizing s with
  | nil => exact ⟨[], s, rfl, h, fun hs => ⟨hs, rfl⟩⟩
  | cons op ops ih =>
    obtain ⟨out, mid, hrun, hmid, hlists⟩ := h.run (a := a) op
    obtain ⟨outs, s', hruns, hvalid, hall⟩ := ih hmid
    refine ⟨out :: outs, s', ?_, hvalid, fun hs => ?_⟩
    · rw [Op.runAll, hrun, ok_bind]
      dsimp only
      rw [hruns, ok_bind]
    · obtain ⟨hheap, heq⟩ := hall hs
      obtain ⟨hheap', heq'⟩ := hlists hheap
      refine ⟨hheap', ?_⟩
      rw [Op.allOnLists, ← heq']
      dsimp only
      rw [← heq]

/-- Operations on vectors that start empty never leave the arrays, whose lengths are the
capacities and bound the sizes; they do what they do on lists when no request is refused. -/
theorem vector_refines_list (a : Allocator) (ops : List (Op ι α)) :
    ∃ outs s, Op.runAll a Vectors.init ops = .ok (outs, s) ∧
      (∀ v, ((s.vecs v).size : Int) ≤ (s.vecs v).capacity ∧
        (s.vecs v).capacity = (s.vecs v).slots.length) ∧
      (Succeeded s.heap → (outs, s.lists) = Op.allOnLists (fun _ => []) ops) := by
  have hinit : (Vectors.init : Vectors ι α).Valid := fun _ => valid_init
  obtain ⟨outs, s, hrun, hvalid, hlists⟩ := hinit.runAll (a := a) ops
  refine ⟨outs, s, hrun, fun v => ⟨?_, (hvalid v).capacity⟩, fun hs => (hlists hs).2⟩
  rw [(hvalid v).capacity]
  exact Int.ofNat_le.mpr (hvalid v).size_le

end refinement

end koala.vector
