import Koala.Basic
import Koala.HashTable.Buckets
import Mathlib.Data.List.Pairwise

open koala.hashtable

namespace koala.atomtable

variable {κ : Type} {δ : κ → Type}

structure AtomEntry (κ : Type) (δ : κ → Type) where
  type : κ
  index : Int
  data : δ type

/-- One vector of items for each type, and the entries of the items that were
appended as unique. -/
structure AtomTable (κ : Type) (δ : κ → Type) where
  table : Buckets (AtomEntry κ δ)
  items : (type : κ) → List (δ type)

def AtomTable_New : AtomTable κ δ where
  table := Buckets.init
  items := fun _ => []

def AtomTable_Size (table : AtomTable κ δ) (type : κ) : Nat := (table.items type).length

/-- `Vector_Get` on the vector of `type`: out of bounds it is the null pointer. -/
def AtomTable_Get (table : AtomTable κ δ) (type : κ) (index : Int) : Option (δ type) :=
  if index < 0 then none else (table.items type)[index.toNat]?

section operations

variable [DecidableEq κ] (hash : AtomEntry κ δ → Nat)
  (equal : AtomEntry κ δ → AtomEntry κ δ → Bool)

def AtomTable_Append (table : AtomTable κ δ) (type : κ) (data : δ type) (unique : Bool) :
    Res (Int × AtomTable κ δ) :=
  let items := Function.update table.items type (table.items type ++ [data])
  let index : Int := (items type).length - 1
  if unique then
    match table.table.insert id hash equal ⟨type, index, data⟩ with
    | none => .error .assertion
    | some entries => .ok (index, ⟨entries, items⟩)
  else .ok (index, ⟨table.table, items⟩)

def AtomTable_Index (table : AtomTable κ δ) (type : κ) (data : δ type) : Int :=
  let e : AtomEntry κ δ := ⟨type, 0, data⟩
  match table.table.find id equal (hash e) e with
  | none => -1
  | some res => res.index

end operations

theorem AtomTable_Get_of_nonneg (table : AtomTable κ δ) (type : κ) (n : Nat) :
    AtomTable_Get table type n = (table.items type)[n]? := by
  have hneg : ¬ (n : Int) < 0 := by omega
  simp only [AtomTable_Get, if_neg hneg, Int.toNat_natCast]

/-- A successful access is at a valid index. -/
theorem AtomTable_Get_some {table : AtomTable κ δ} {type : κ} {index : Int} {data : δ type}
    (h : AtomTable_Get table type index = some data) :
    ∃ n : Nat, index = n ∧ n < AtomTable_Size table type ∧
      (table.items type)[n]? = some data := by
  unfold AtomTable_Get at h
  split at h
  · cases h
  · refine ⟨index.toNat, by omega, ?_, h⟩
    exact (List.getElem?_eq_some_iff.mp h).1

theorem AtomTable_Get_eq_some_of_lt {table : AtomTable κ δ} {type : κ} {n : Nat}
    (h : n < AtomTable_Size table type) : ∃ data, AtomTable_Get table type n = some data := by
  rw [AtomTable_Get_of_nonneg]
  exact ⟨_, List.getElem?_eq_getElem h⟩

/-- The items of a table are the first items of another. -/
def Extends (table table' : AtomTable κ δ) : Prop :=
  ∀ type, table.items type <+: table'.items type

theorem Extends.refl (table : AtomTable κ δ) : Extends table table :=
  fun _ => List.prefix_refl _

theorem Extends.trans {t₁ t₂ t₃ : AtomTable κ δ} (h : Extends t₁ t₂) (h' : Extends t₂ t₃) :
    Extends t₁ t₃ := fun type => (h type).trans (h' type)

/-- An index keeps designating the same item. -/
theorem Extends.get {t t' : AtomTable κ δ} (h : Extends t t') {type : κ} {index : Int}
    {data : δ type} (hget : AtomTable_Get t type index = some data) :
    AtomTable_Get t' type index = some data := by
  obtain ⟨n, rfl, hn, hdata⟩ := AtomTable_Get_some hget
  rw [AtomTable_Get_of_nonneg]
  obtain ⟨rest, hrest⟩ := h type
  rw [← hrest, List.getElem?_append_left hn, hdata]

end koala.atomtable

namespace koala.atomtable

variable {κ : Type} {δ : κ → Type}

section spec

variable {hash : AtomEntry κ δ → Nat}
  {equal : AtomEntry κ δ → AtomEntry κ δ → Bool}

/-- Every entry belongs to the item at its index, every item of a unique type
has its entry, and no entry could be found in place of a later one. -/
structure WF (hash : AtomEntry κ δ → Nat) (equal : AtomEntry κ δ → AtomEntry κ δ → Bool)
    (unique : κ → Bool) (table : AtomTable κ δ) : Prop where
  buckets : table.table.WF id hash
  distinct : table.table.order.Pairwise fun e e' => hash e = hash e' → equal e e' = false
  entry_get : ∀ e ∈ table.table.order, AtomTable_Get table e.type e.index = some e.data
  has_entry : ∀ type, unique type = true → ∀ index data,
    AtomTable_Get table type index = some data → ⟨type, index, data⟩ ∈ table.table.order

theorem wf_new (unique : κ → Bool) : WF hash equal unique (AtomTable_New : AtomTable κ δ) where
  buckets := Buckets.wf_init
  distinct := List.Pairwise.nil
  entry_get := by simp [AtomTable_New, Buckets.init]
  has_entry := by simp [AtomTable_New, AtomTable_Get]

/-- A found index designates an equal item of the table. -/
theorem WF.index_found {uniqueType : κ → Bool} {table : AtomTable κ δ}
    (hwf : WF hash equal uniqueType table) {type : κ} {data : δ type}
    (h : 0 ≤ AtomTable_Index hash equal table type data) :
    ∃ e ∈ table.table.order, AtomTable_Index hash equal table type data = e.index ∧
      AtomTable_Get table e.type e.index = some e.data ∧ equal e ⟨type, 0, data⟩ = true := by
  unfold AtomTable_Index at h ⊢
  dsimp only at h ⊢
  split at h
  · omega
  · next res hfind =>
    obtain ⟨hmem, heq⟩ := hwf.buckets.find_some hfind
    exact ⟨res, hmem, rfl, hwf.entry_get res hmem, heq⟩

/-- An index is valid or -1. -/
theorem WF.index_nonneg_or {uniqueType : κ → Bool} {table : AtomTable κ δ}
    (hwf : WF hash equal uniqueType table) (type : κ) (data : δ type) :
    AtomTable_Index hash equal table type data = -1 ∨
      0 ≤ AtomTable_Index hash equal table type data := by
  unfold AtomTable_Index
  dsimp only
  split
  · exact Or.inl rfl
  · next res hfind =>
    obtain ⟨hmem, _⟩ := hwf.buckets.find_some hfind
    obtain ⟨n, hn, _⟩ := AtomTable_Get_some (hwf.entry_get res hmem)
    exact Or.inr (by omega)

/-- A search that fails rules out every equal item whose hash agrees. -/
theorem WF.index_not_found {uniqueType : κ → Bool} {table : AtomTable κ δ}
    (hwf : WF hash equal uniqueType table) {type : κ} {data : δ type}
    (hunique : uniqueType type = true)
    (h : AtomTable_Index hash equal table type data = -1) {index : Int} {found : δ type}
    (hget : AtomTable_Get table type index = some found)
    (hhash : hash ⟨type, index, found⟩ = hash ⟨type, 0, data⟩) :
    equal ⟨type, index, found⟩ ⟨type, 0, data⟩ = false := by
  have hmem := hwf.has_entry type hunique index found hget
  unfold AtomTable_Index at h
  dsimp only at h
  split at h
  · next hfind => exact hwf.buckets.find_none hfind hmem hhash
  · next res hfind =>
    obtain ⟨hres, _⟩ := hwf.buckets.find_some hfind
    obtain ⟨n, hn, _⟩ := AtomTable_Get_some (hwf.entry_get res hres)
    omega

/-- An index is -1 when it is negative. -/
theorem WF.index_of_neg {uniqueType : κ → Bool} {table : AtomTable κ δ}
    (hwf : WF hash equal uniqueType table) {type : κ} {data : δ type}
    (h : AtomTable_Index hash equal table type data < 0) :
    AtomTable_Index hash equal table type data = -1 := by
  rcases hwf.index_nonneg_or type data with hindex | hindex
  · exact hindex
  · omega

/-- The items of a type that satisfy `shape` are compared by content. -/
structure Extensional (hash : AtomEntry κ δ → Nat) (equal : AtomEntry κ δ → AtomEntry κ δ → Bool)
    (type : κ) (shape : δ type → Prop) : Prop where
  equal_type : ∀ (e : AtomEntry κ δ) (j : Int) (data : δ type),
    equal e ⟨type, j, data⟩ = true → e.type = type
  equal_iff : ∀ (i j : Int) (data data' : δ type), shape data → shape data' →
    (equal ⟨type, i, data⟩ ⟨type, j, data'⟩ = true ↔ data = data')
  hash_index : ∀ (i j : Int) (data : δ type), hash ⟨type, i, data⟩ = hash ⟨type, j, data⟩

/-- Every item of a type has the given shape. -/
def Shaped (table : AtomTable κ δ) (type : κ) (shape : δ type → Prop) : Prop :=
  ∀ index data, AtomTable_Get table type index = some data → shape data

variable {uniqueType : κ → Bool} {table : AtomTable κ δ} {type : κ} {shape : δ type → Prop}
  {data : δ type}

theorem WF.get_of_equal (hwf : WF hash equal uniqueType table)
    (hext : Extensional hash equal type shape) (hshaped : Shaped table type shape)
    (hshape : shape data) {e : AtomEntry κ δ} (he : e ∈ table.table.order) {j : Int}
    (h : equal e ⟨type, j, data⟩ = true) : AtomTable_Get table type e.index = some data := by
  have hget := hwf.entry_get e he
  obtain ⟨etype, i, found⟩ := e
  obtain rfl : etype = type := hext.equal_type _ j data h
  rwa [(hext.equal_iff i j found data (hshaped i found hget) hshape).mp h] at hget

theorem WF.get_of_index (hwf : WF hash equal uniqueType table)
    (hext : Extensional hash equal type shape) (hshaped : Shaped table type shape)
    (hshape : shape data) {index : Int}
    (h : AtomTable_Index hash equal table type data = index) (hindex : 0 ≤ index) :
    AtomTable_Get table type index = some data := by
  obtain ⟨e, he, heq, _, hequal⟩ := hwf.index_found (h ▸ hindex)
  rw [← h, heq]
  exact hwf.get_of_equal hext hshaped hshape he hequal

/-- No two indices of a type hold the same item. -/
theorem WF.get_injective (hwf : WF hash equal uniqueType table)
    (hext : Extensional hash equal type shape) (hshaped : Shaped table type shape)
    (hunique : uniqueType type = true) {i j : Int}
    (hi : AtomTable_Get table type i = some data) (hj : AtomTable_Get table type j = some data) :
    i = j := by
  by_contra hne
  have hshape := hshaped i data hi
  have hei := hwf.has_entry type hunique i data hi
  have hej := hwf.has_entry type hunique j data hj
  have hequal : ∀ i j : Int, equal ⟨type, i, data⟩ ⟨type, j, data⟩ = true :=
    fun i j => (hext.equal_iff i j data data hshape hshape).mpr rfl
  obtain ⟨m, hm, hmi⟩ := List.getElem_of_mem hei
  obtain ⟨n, hn, hnj⟩ := List.getElem_of_mem hej
  rcases Nat.lt_trichotomy m n with hlt | heq | hlt
  · have hfalse := List.pairwise_iff_getElem.mp hwf.distinct m n hm hn hlt
    rw [hmi, hnj, hequal] at hfalse
    exact absurd (hfalse (hext.hash_index i j data)) (by simp)
  · subst heq
    rw [hmi] at hnj
    injection hnj with _ hij
    exact hne hij
  · have hfalse := List.pairwise_iff_getElem.mp hwf.distinct n m hn hm hlt
    rw [hmi, hnj, hequal] at hfalse
    exact absurd (hfalse (hext.hash_index j i data)) (by simp)

theorem WF.index_of_get (hwf : WF hash equal uniqueType table)
    (hext : Extensional hash equal type shape) (hshaped : Shaped table type shape)
    (hunique : uniqueType type = true) {index : Int}
    (h : AtomTable_Get table type index = some data) :
    AtomTable_Index hash equal table type data = index := by
  have hshape := hshaped index data h
  rcases hwf.index_nonneg_or type data with hneg | hpos
  · have hfalse := hwf.index_not_found hunique hneg h (hext.hash_index _ _ _)
    rw [(hext.equal_iff index 0 data data hshape hshape).mpr rfl] at hfalse
    cases hfalse
  · exact hwf.get_injective hext hshaped hunique (hwf.get_of_index hext hshaped hshape rfl hpos) h

/-- A search finds the item, or the table does not hold it. -/
theorem WF.index_cases (hwf : WF hash equal uniqueType table)
    (hext : Extensional hash equal type shape) (hshaped : Shaped table type shape)
    (hunique : uniqueType type = true) (hshape : shape data) :
    (AtomTable_Index hash equal table type data = -1 ∧
      ∀ index, AtomTable_Get table type index ≠ some data) ∨
    AtomTable_Get table type (AtomTable_Index hash equal table type data) = some data := by
  rcases hwf.index_nonneg_or type data with hneg | hpos
  · refine Or.inl ⟨hneg, fun index hget => ?_⟩
    obtain ⟨n, hn, _⟩ := AtomTable_Get_some hget
    have hindex := hwf.index_of_get hext hshaped hunique hget
    omega
  · exact Or.inr (hwf.get_of_index hext hshaped hshape rfl hpos)

/-- Two items of a unique type whose hashes agree are not equal. -/
theorem WF.items_distinct (hwf : WF hash equal uniqueType table)
    (hcomm : ∀ e e', equal e e' = equal e' e) (hunique : uniqueType type = true) {i j : Int}
    {x y : δ type} (hne : i ≠ j) (hi : AtomTable_Get table type i = some x)
    (hj : AtomTable_Get table type j = some y)
    (hhash : hash ⟨type, i, x⟩ = hash ⟨type, j, y⟩) :
    equal ⟨type, i, x⟩ ⟨type, j, y⟩ = false := by
  have hmi := hwf.has_entry type hunique i x hi
  have hmj := hwf.has_entry type hunique j y hj
  have hdiff : (⟨type, i, x⟩ : AtomEntry κ δ) ≠ ⟨type, j, y⟩ := by
    intro heq
    injection heq with _ hij
    exact hne hij
  have hsymm : Std.Symm fun e e' => hash e = hash e' → equal e e' = false :=
    ⟨fun e e' h heq => by rw [hcomm, h heq.symm]⟩
  exact hwf.distinct.forall hmi hmj hdiff hhash

section append

variable [DecidableEq κ]

/-- The items after an append. -/
def appended (table : AtomTable κ δ) (type : κ) (data : δ type) : (type : κ) → List (δ type) :=
  Function.update table.items type (table.items type ++ [data])

@[simp] theorem appended_self (table : AtomTable κ δ) (type : κ) (data : δ type) :
    appended table type data type = table.items type ++ [data] := by simp [appended]

theorem appended_of_ne (table : AtomTable κ δ) {type other : κ} (data : δ type)
    (h : other ≠ type) : appended table type data other = table.items other :=
  Function.update_of_ne h _ _

theorem AtomTable_Append_ok {table table' : AtomTable κ δ} {type : κ} {data : δ type}
    {unique : Bool} {index : Int}
    (h : AtomTable_Append hash equal table type data unique = .ok (index, table')) :
    index = AtomTable_Size table type ∧ table'.items = appended table type data ∧
      (unique = false → table'.table = table.table) ∧
      (unique = true → table.table.insert id hash equal ⟨type, index, data⟩ =
        some table'.table) := by
  unfold AtomTable_Append at h
  have hindex : ((Function.update table.items type (table.items type ++ [data]) type).length : Int)
      - 1 = AtomTable_Size table type := by simp [AtomTable_Size]
  dsimp only at h
  rw [hindex] at h
  cases unique with
  | false =>
    simp only [Bool.false_eq_true, if_false, Except.ok.injEq, Prod.mk.injEq] at h
    obtain ⟨rfl, rfl⟩ := h
    exact ⟨rfl, rfl, fun _ => rfl, nofun⟩
  | true =>
    simp only [if_true] at h
    split at h
    · cases h
    · next entries hinsert =>
      simp only [Except.ok.injEq, Prod.mk.injEq] at h
      obtain ⟨rfl, rfl⟩ := h
      exact ⟨rfl, rfl, nofun, fun _ => hinsert⟩

theorem AtomTable_Append_not_unique (table : AtomTable κ δ) (type : κ) (data : δ type) :
    AtomTable_Append hash equal table type data false =
      .ok ((AtomTable_Size table type : Int), ⟨table.table, appended table type data⟩) := by
  simp [AtomTable_Append, AtomTable_Size, appended]

theorem extends_of_items {table table' : AtomTable κ δ} {type : κ} {data : δ type}
    (h : table'.items = appended table type data) : Extends table table' := by
  intro other
  rw [h]
  by_cases hother : other = type
  · subst hother
    rw [appended_self]
    exact List.prefix_append _ _
  · exact ⟨[], by rw [appended_of_ne _ _ hother, List.append_nil]⟩

theorem get_appended {table table' : AtomTable κ δ} {type other : κ} {data : δ type}
    {index : Int} {found : δ other} (h : table'.items = appended table type data)
    (hget : AtomTable_Get table' other index = some found) :
    AtomTable_Get table other index = some found ∨
      (index = AtomTable_Size table type ∧ (⟨other, found⟩ : (k : κ) × δ k) = ⟨type, data⟩) := by
  obtain ⟨n, rfl, hn, hdata⟩ := AtomTable_Get_some hget
  rw [h] at hdata
  rw [AtomTable_Get_of_nonneg]
  by_cases hother : other = type
  · subst hother
    rw [appended_self] at hdata
    rcases Nat.lt_or_ge n (table.items other).length with hlt | hge
    · rw [List.getElem?_append_left hlt] at hdata
      exact Or.inl hdata
    · rw [List.getElem?_append_right hge] at hdata
      have hzero : n - (table.items other).length = 0 := by
        by_contra hne
        rw [List.getElem?_eq_none (by simp; omega)] at hdata
        cases hdata
      rw [hzero] at hdata
      refine Or.inr ⟨?_, by simpa using hdata.symm⟩
      simp only [AtomTable_Size]
      omega
  · rw [appended_of_ne _ _ hother] at hdata
    exact Or.inl hdata

/-- Appending keeps a table well formed when unique types are appended as
unique. -/
theorem WF.append {uniqueType : κ → Bool} {table table' : AtomTable κ δ} {type : κ}
    {data : δ type} {index : Int} (hwf : WF hash equal uniqueType table)
    (h : AtomTable_Append hash equal table type data (uniqueType type) = .ok (index, table')) :
    WF hash equal uniqueType table' := by
  obtain ⟨hindex, hitems, hnot, hunique⟩ := AtomTable_Append_ok h
  have hext := extends_of_items hitems
  have hnew : AtomTable_Get table' type index = some data := by
    rw [hindex, AtomTable_Get_of_nonneg, hitems, appended_self]
    simp [AtomTable_Size]
  cases hu : uniqueType type with
  | false =>
    have htable := hnot hu
    refine ⟨htable ▸ hwf.buckets, htable ▸ hwf.distinct, ?_, ?_⟩
    · intro e he
      rw [htable] at he
      exact hext.get (hwf.entry_get e he)
    · intro other hother i found hget
      rw [htable]
      rcases get_appended hitems hget with hold | ⟨_, heq⟩
      · exact hwf.has_entry other hother i found hold
      · have htype : other = type := congrArg Sigma.fst heq
        rw [htype, hu] at hother
        cases hother
  | true =>
    obtain ⟨hnone, horder, hbuckets⟩ := hwf.buckets.insert (hunique hu)
    refine ⟨hbuckets, ?_, ?_, ?_⟩
    · rw [horder, List.pairwise_append]
      refine ⟨hwf.distinct, List.pairwise_singleton _ _, fun e he e' he' hhash => ?_⟩
      rw [List.mem_singleton.mp he'] at hhash ⊢
      exact hwf.buckets.find_none hnone he hhash
    · intro e he
      rw [horder] at he
      rcases List.mem_append.mp he with he | he
      · exact hext.get (hwf.entry_get e he)
      · rw [List.mem_singleton.mp he]
        exact hnew
    · intro other hother i found hget
      rw [horder]
      rcases get_appended hitems hget with hold | ⟨hi, heq⟩
      · exact List.mem_append_left _ (hwf.has_entry other hother i found hold)
      · cases heq
        rw [hi, ← hindex]
        simp

/-- An item that differs from every entry can be appended. -/
theorem WF.append_differing (hwf : WF hash equal uniqueType table)
    (h : uniqueType type = true → ∀ e ∈ table.table.order,
      equal e ⟨type, AtomTable_Size table type, data⟩ = false) :
    ∃ table', AtomTable_Append hash equal table type data (uniqueType type) =
      .ok ((AtomTable_Size table type : Int), table') := by
  cases hu : uniqueType type with
  | false => exact ⟨_, AtomTable_Append_not_unique table type data⟩
  | true =>
    have hlength : ((Function.update table.items type (table.items type ++ [data]) type).length
        : Int) - 1 = AtomTable_Size table type := by simp [AtomTable_Size]
    unfold AtomTable_Append
    dsimp only
    rw [hlength, if_pos rfl]
    split
    · next hnone =>
      rw [Buckets.insert_eq_none_iff] at hnone
      obtain ⟨e, he⟩ := Option.isSome_iff_exists.mp hnone
      obtain ⟨hmem, hequal⟩ := hwf.buckets.find_some he
      have hfalse := h hu e hmem
      rw [id_eq, id_eq, hfalse] at hequal
      cases hequal
    · exact ⟨_, rfl⟩

/-- An item that is not in the table can be appended to it. -/
theorem WF.append_fresh (hwf : WF hash equal uniqueType table)
    (hext : Extensional hash equal type shape) (hshaped : Shaped table type shape)
    (hshape : shape data) (h : ∀ index, AtomTable_Get table type index ≠ some data) :
    ∃ table', AtomTable_Append hash equal table type data (uniqueType type) =
      .ok ((AtomTable_Size table type : Int), table') := by
  refine hwf.append_differing fun _ e he => ?_
  by_contra hne
  have hequal : equal e ⟨type, AtomTable_Size table type, data⟩ = true := by simpa using hne
  exact h e.index (hwf.get_of_equal hext hshaped hshape he hequal)

end append

end spec

end koala.atomtable
