import Koala.Post
import Koala.AtomTable.Model

namespace koala.atomtable

variable {κ : Type} {δ : κ → Type} {hash : AtomEntry κ δ → Nat}
  {equal : AtomEntry κ δ → AtomEntry κ δ → Bool} {uniqueType : κ → Bool}
  {table table' : AtomTable κ δ} {type : κ} {shape : δ type → Prop} {data : δ type}

theorem AtomTable_Get_congr (hitems : table.items type = table'.items type) (index : Int) :
    AtomTable_Get table type index = AtomTable_Get table' type index := by
  unfold AtomTable_Get
  rw [hitems]

theorem Shaped.congr (hitems : table.items type = table'.items type)
    (h : Shaped table type shape) : Shaped table' type shape := by
  intro index found hget
  rw [← AtomTable_Get_congr hitems] at hget
  exact h index found hget

/-- Where items are compared by content, an index depends on the items alone,
however they are hashed. -/
theorem WF.index_congr (hwf : WF hash equal uniqueType table)
    (hwf' : WF hash equal uniqueType table') (hext : Extensional hash equal type shape)
    (hshaped : Shaped table type shape) (hunique : uniqueType type = true) (hshape : shape data)
    (hitems : table.items type = table'.items type) :
    AtomTable_Index hash equal table type data = AtomTable_Index hash equal table' type data := by
  have hshaped' := hshaped.congr hitems
  rcases hwf.index_cases hext hshaped hunique hshape with ⟨hneg, hnot⟩ | hget
  · rcases hwf'.index_cases hext hshaped' hunique hshape with ⟨hneg', _⟩ | hget'
    · rw [hneg, hneg']
    · rw [← AtomTable_Get_congr hitems] at hget'
      exact absurd hget' (hnot _)
  · have hget' := hget
    rw [AtomTable_Get_congr hitems] at hget'
    exact (hwf'.index_of_get hext hshaped' hunique hget').symm

section append

variable [DecidableEq κ]

/-- An item that is in the table cannot be appended to it as unique. -/
theorem WF.append_present (hwf : WF hash equal uniqueType table)
    (hext : Extensional hash equal type shape) (hshape : shape data)
    (hunique : uniqueType type = true) {index : Int}
    (hget : AtomTable_Get table type index = some data) :
    AtomTable_Append hash equal table type data (uniqueType type) = .error .assertion := by
  unfold AtomTable_Append
  dsimp only
  rw [hunique, if_pos rfl]
  split
  · rfl
  · next entries hinsert =>
    obtain ⟨hnone, _, _⟩ := hwf.buckets.insert hinsert
    have hmem := hwf.has_entry type hunique index data hget
    have hfalse := hwf.buckets.find_none hnone hmem (hext.hash_index _ _ _)
    rw [id_eq, id_eq, (hext.equal_iff _ _ data data hshape hshape).mpr rfl] at hfalse
    cases hfalse

/-- Both tables refuse an item, or both put it at the same place. -/
theorem WF.append_congr (hwf : WF hash equal uniqueType table)
    (hwf' : WF hash equal uniqueType table') (hext : Extensional hash equal type shape)
    (hshaped : Shaped table type shape) (hunique : uniqueType type = true) (hshape : shape data)
    (hitems : table.items type = table'.items type) :
    Agree (fun r r' => r.1 = r'.1 ∧ WF hash equal uniqueType r.2 ∧
        WF hash equal uniqueType r'.2 ∧ r.2.items = appended table type data ∧
        r'.2.items = appended table' type data)
      (AtomTable_Append hash equal table type data (uniqueType type))
      (AtomTable_Append hash equal table' type data (uniqueType type)) := by
  by_cases hin : ∃ index, AtomTable_Get table type index = some data
  · obtain ⟨index, hget⟩ := hin
    have hget' := hget
    rw [AtomTable_Get_congr hitems] at hget'
    rw [hwf.append_present hext hshape hunique hget, hwf'.append_present hext hshape hunique hget']
    exact .error _
  · have hnot : ∀ index, AtomTable_Get table type index ≠ some data :=
      fun index hget => hin ⟨index, hget⟩
    have hnot' : ∀ index, AtomTable_Get table' type index ≠ some data := by
      intro index hget
      rw [← AtomTable_Get_congr hitems] at hget
      exact hnot index hget
    obtain ⟨T, happend⟩ := hwf.append_fresh hext hshaped hshape hnot
    obtain ⟨T', happend'⟩ := hwf'.append_fresh hext (hshaped.congr hitems) hshape hnot'
    rw [happend, happend']
    have hsize : AtomTable_Size table type = AtomTable_Size table' type := by
      rw [AtomTable_Size, AtomTable_Size, hitems]
    exact .ok ⟨by rw [hsize], hwf.append happend, hwf'.append happend',
      (AtomTable_Append_ok happend).2.1, (AtomTable_Append_ok happend').2.1⟩

theorem appended_congr {other : κ} (hself : table.items type = table'.items type)
    (hother : table.items other = table'.items other) :
    appended table type data other = appended table' type data other := by
  by_cases h : other = type
  · subst h
    rw [appended_self, appended_self, hself]
  · rw [appended_of_ne _ _ h, appended_of_ne _ _ h, hother]

end append

end koala.atomtable

open koala.hashtable

set_option linter.style.nameCheck false

namespace koala.atomtable

variable {κ : Type} {δ : κ → Type}

/-- Equality is an equivalence on entries that never relates different types, and equal entries
have one hash. -/
structure Compatible (hash : AtomEntry κ δ → Nat)
    (equal : AtomEntry κ δ → AtomEntry κ δ → Bool) : Prop where
  refl : ∀ e, equal e e = true
  symm : ∀ e e', equal e e' = true → equal e' e = true
  trans : ∀ e₁ e₂ e₃, equal e₁ e₂ = true → equal e₂ e₃ = true → equal e₁ e₃ = true
  type : ∀ e e', equal e e' = true → e.type = e'.type
  hash : ∀ e e', equal e e' = true → hash e = hash e'

/-- An append, and the index it returned. -/
structure Appended (κ : Type) (δ : κ → Type) where
  entry : AtomEntry κ δ
  unique : Bool

section

variable [DecidableEq κ] (hash : AtomEntry κ δ → Nat)
  (equal : AtomEntry κ δ → AtomEntry κ δ → Bool)

/-- The appends that lead from a table to another. A unique one is made after `AtomTable_Index`
returned -1. -/
inductive Appends (table : AtomTable κ δ) : AtomTable κ δ → List (Appended κ δ) → Prop where
  | refl : Appends table table []
  | append {table₁ table₂ : AtomTable κ δ} {added : List (Appended κ δ)} {type : κ} {data : δ type}
    {unique : Bool} {index : Int} (h : Appends table table₁ added)
    (hnew : unique = true → AtomTable_Index hash equal table₁ type data = -1)
    (happend : AtomTable_Append hash equal table₁ type data unique = .ok (index, table₂)) :
    Appends table table₂ (added ++ [⟨⟨type, index, data⟩, unique⟩])

/-- The indices of a table after some appends. -/
structure Exact (table : AtomTable κ δ) (added : List (Appended κ δ)) : Prop where
  found : ∀ (type : κ) (data : δ type) (index : Nat),
    AtomTable_Index hash equal table type data = index ↔
      ∃ found : δ type, ⟨⟨type, index, found⟩, true⟩ ∈ added ∧
        equal ⟨type, index, found⟩ ⟨type, 0, data⟩ = true
  missing : ∀ (type : κ) (data : δ type), AtomTable_Index hash equal table type data = -1 ↔
    ∀ a ∈ added, a.unique = true → equal a.entry ⟨type, 0, data⟩ = false
  designates : ∀ a ∈ added, AtomTable_Get table a.entry.type a.entry.index = some a.entry.data
  later : ∀ table' more, Appends hash equal table table' more →
    (∀ type index data, AtomTable_Get table type index = some data →
      AtomTable_Get table' type index = some data) ∧
    ∀ (type : κ) (data : δ type) (index : Nat),
      AtomTable_Index hash equal table type data = index →
        AtomTable_Index hash equal table' type data = index
  accepts : (∀ (type : κ) (i j : Int) (data : δ type), equal ⟨type, i, data⟩ ⟨type, j, data⟩) →
    ∀ (type : κ) (data : δ type) (unique : Bool),
      (unique = true → AtomTable_Index hash equal table type data = -1) →
        ∃ r, AtomTable_Append hash equal table type data unique = .ok r

end

section proofs

variable {hash : AtomEntry κ δ → Nat} {equal : AtomEntry κ δ → AtomEntry κ δ → Bool}
  {table table' : AtomTable κ δ} {added : List (Appended κ δ)}

/-- The entries are those of the unique appends, no two of them equal, and each append is at its
index. -/
structure Entered (hash : AtomEntry κ δ → Nat) (equal : AtomEntry κ δ → AtomEntry κ δ → Bool)
    (table : AtomTable κ δ) (added : List (Appended κ δ)) : Prop where
  buckets : table.table.WF id hash
  mem : ∀ e, e ∈ table.table.order ↔ ⟨e, true⟩ ∈ added
  apart : table.table.order.Pairwise fun e e' => equal e e' = false
  designates : ∀ a ∈ added, AtomTable_Get table a.entry.type a.entry.index = some a.entry.data

theorem entered_new : Entered hash equal (AtomTable_New : AtomTable κ δ) [] where
  buckets := Buckets.wf_init
  mem := by simp [AtomTable_New, Buckets.init]
  apart := List.Pairwise.nil
  designates := fun a ha => nomatch ha

/-- The index of an entry is found by each datum it equals. -/
theorem Entered.index_eq_iff (h : Entered hash equal table added) (hcompat : Compatible hash equal)
    {type : κ} {data : δ type} {index : Nat} :
    AtomTable_Index hash equal table type data = index ↔
      ∃ found : δ type, ⟨⟨type, index, found⟩, true⟩ ∈ added ∧
        equal ⟨type, index, found⟩ ⟨type, 0, data⟩ = true := by
  have hget : ∀ e, table.table.find id equal (hash ⟨type, 0, data⟩) ⟨type, 0, data⟩ = some e →
      AtomTable_Index hash equal table type data = e.index := by
    intro e hfind
    simp only [AtomTable_Index, hfind]
  constructor
  · intro hindex
    cases hfind : table.table.find id equal (hash ⟨type, 0, data⟩) ⟨type, 0, data⟩ with
    | none =>
      simp only [AtomTable_Index, hfind] at hindex
      omega
    | some e =>
      obtain ⟨hmem, hequal⟩ := h.buckets.find_some hfind
      have heindex : e.index = index := (hget e hfind).symm.trans hindex
      obtain ⟨etype, eindex, found⟩ := e
      obtain rfl : etype = type := hcompat.type _ _ hequal
      obtain rfl : eindex = index := heindex
      exact ⟨found, (h.mem _).mp hmem, hequal⟩
  · rintro ⟨found, hmem, hequal⟩
    have horder := (h.mem _).mpr hmem
    cases hfind : table.table.find id equal (hash ⟨type, 0, data⟩) ⟨type, 0, data⟩ with
    | none =>
      have hfalse := h.buckets.find_none hfind horder (hcompat.hash _ _ hequal)
      exact absurd (hequal.symm.trans hfalse) Bool.noConfusion
    | some e =>
      obtain ⟨he, hequal'⟩ := h.buckets.find_some hfind
      rw [hget e hfind]
      by_contra hne
      have hother : e ≠ ⟨type, index, found⟩ := fun heq => hne (congrArg AtomEntry.index heq)
      have hsymm : Std.Symm fun e e' => equal e e' = false := ⟨fun e e' hfalse => by
        rw [← Bool.not_eq_true] at hfalse ⊢
        exact fun htrue => hfalse (hcompat.symm _ _ htrue)⟩
      have hfalse := h.apart.forall he horder hother
      have htrue := hcompat.trans _ _ _ hequal' (hcompat.symm _ _ hequal)
      exact absurd (htrue.symm.trans hfalse) Bool.noConfusion

/-- Nothing is found exactly when no entry equals the datum. -/
theorem Entered.index_neg_iff (h : Entered hash equal table added)
    (hcompat : Compatible hash equal) {type : κ} {data : δ type} :
    AtomTable_Index hash equal table type data = -1 ↔
      ∀ a ∈ added, a.unique = true → equal a.entry ⟨type, 0, data⟩ = false := by
  have hnone : table.table.find id equal (hash ⟨type, 0, data⟩) ⟨type, 0, data⟩ = none ↔
      ∀ e ∈ table.table.order, equal e ⟨type, 0, data⟩ = false :=
    h.buckets.find_eq_none_iff fun e _ hequal => hcompat.hash _ _ hequal
  have hentries : (∀ e ∈ table.table.order, equal e ⟨type, 0, data⟩ = false) ↔
      ∀ a ∈ added, a.unique = true → equal a.entry ⟨type, 0, data⟩ = false := by
    constructor
    · rintro hall ⟨e, unique⟩ ha rfl
      exact hall e ((h.mem e).mpr ha)
    · exact fun hall e he => hall ⟨e, true⟩ ((h.mem e).mp he) rfl
  rw [← hentries, ← hnone]
  constructor
  · intro hindex
    by_contra hfind
    obtain ⟨e, hfind⟩ := Option.ne_none_iff_exists'.mp hfind
    have hmem := (h.mem e).mp (h.buckets.find_some hfind).1
    obtain ⟨n, hn, _⟩ := AtomTable_Get_some (h.designates _ hmem)
    simp only [AtomTable_Index, hfind] at hindex
    simp only at hn
    omega
  · intro hfind
    simp only [AtomTable_Index, hfind]

variable [DecidableEq κ] {type : κ} {data : δ type} {unique : Bool} {index : Int}

/-- An append adds its item, and its entry when it is unique. -/
theorem Entered.append (h : Entered hash equal table added) (hcompat : Compatible hash equal)
    (happend : AtomTable_Append hash equal table type data unique = .ok (index, table')) :
    Entered hash equal table' (added ++ [⟨⟨type, index, data⟩, unique⟩]) := by
  obtain ⟨hindex, hitems, hnot, hunique⟩ := AtomTable_Append_ok happend
  have hext := extends_of_items hitems
  have hdesignates : ∀ a ∈ added ++ [⟨⟨type, index, data⟩, unique⟩],
      AtomTable_Get table' a.entry.type a.entry.index = some a.entry.data := by
    intro a ha
    rcases List.mem_append.mp ha with hold | hnew
    · exact hext.get (h.designates a hold)
    · rw [List.mem_singleton.mp hnew, hindex, AtomTable_Get_of_nonneg, hitems, appended_self]
      exact List.getElem?_concat_length
  cases unique with
  | false =>
    have htable := hnot rfl
    refine ⟨htable ▸ h.buckets, fun e => ?_, htable ▸ h.apart, hdesignates⟩
    rw [htable, h.mem, List.mem_append]
    refine ⟨Or.inl, fun hmem => hmem.resolve_right fun hnew => ?_⟩
    cases List.mem_singleton.mp hnew
  | true =>
    obtain ⟨hnone, horder, hbuckets⟩ := h.buckets.insert (hunique rfl)
    refine ⟨hbuckets, fun e => ?_, ?_, hdesignates⟩
    · rw [horder, List.mem_append, List.mem_append, h.mem, List.mem_singleton, List.mem_singleton,
        Appended.mk.injEq]
      simp only [and_true]
    · rw [horder, List.pairwise_append]
      refine ⟨h.apart, List.pairwise_singleton _ _, fun e he e' he' => ?_⟩
      rw [List.mem_singleton.mp he']
      exact (h.buckets.find_eq_none_iff fun e _ hequal => hcompat.hash _ _ hequal).mp hnone e he

/-- Appends only add. -/
theorem Appends.entered (hcompat : Compatible hash equal) {more : List (Appended κ δ)}
    (h : Entered hash equal table added) (happends : Appends hash equal table table' more) :
    Entered hash equal table' (added ++ more) ∧ Extends table table' := by
  induction happends with
  | refl => exact ⟨by rwa [List.append_nil], .refl _⟩
  | append _ _ happend ih =>
    rw [← List.append_assoc]
    exact ⟨ih.1.append hcompat happend,
      ih.2.trans (extends_of_items (AtomTable_Append_ok happend).2.1)⟩

/-- An item that is not found is accepted, where equality does not look at the index. -/
theorem Entered.accepts (h : Entered hash equal table added) (hcompat : Compatible hash equal)
    (hblind : ∀ (type : κ) (i j : Int) (data : δ type), equal ⟨type, i, data⟩ ⟨type, j, data⟩)
    (hnew : unique = true → AtomTable_Index hash equal table type data = -1) :
    ∃ r, AtomTable_Append hash equal table type data unique = .ok r := by
  cases unique with
  | false => exact ⟨_, AtomTable_Append_not_unique ..⟩
  | true =>
    have hmissing := (h.index_neg_iff hcompat).mp (hnew rfl)
    simp only [AtomTable_Append, if_true]
    split
    · next hinsert =>
      rw [Buckets.insert_eq_none_iff] at hinsert
      obtain ⟨e, hfind⟩ := Option.isSome_iff_exists.mp hinsert
      obtain ⟨he, hequal⟩ := h.buckets.find_some hfind
      have hzero := hcompat.trans _ _ _ hequal (hblind type _ 0 data)
      have hfalse := hmissing ⟨e, true⟩ ((h.mem e).mp he) rfl
      exact absurd (hzero.symm.trans hfalse) Bool.noConfusion
    · exact ⟨_, rfl⟩

/-- Indices are exact and stay so. -/
theorem Appends.index_exact (hcompat : Compatible hash equal)
    (h : Appends hash equal AtomTable_New table added) : Exact hash equal table added := by
  have hentered : Entered hash equal table added := (Appends.entered hcompat entered_new h).1
  refine ⟨fun type data index => hentered.index_eq_iff hcompat,
    fun type data => hentered.index_neg_iff hcompat, hentered.designates, ?_,
    fun hblind type data unique hnew => hentered.accepts hcompat hblind hnew⟩
  intro table' more happends
  obtain ⟨hentered', hext⟩ := Appends.entered hcompat hentered happends
  refine ⟨fun type index data => hext.get, fun type data index hindex => ?_⟩
  obtain ⟨found, hmem, hequal⟩ := (hentered.index_eq_iff hcompat).mp hindex
  exact (hentered'.index_eq_iff hcompat).mpr ⟨found, List.mem_append_left _ hmem, hequal⟩

end proofs

section instances

/-- Numbers of two types are compared by their values. -/
def number_equal (e e' : AtomEntry Bool fun _ => Nat) : Bool := e.type = e'.type ∧ e.data = e'.data

theorem compatible_number : Compatible AtomEntry.data number_equal where
  refl := by simp [number_equal]
  symm := by simp +contextual [number_equal]
  trans := by simp +contextual [number_equal]
  type := by simp +contextual [number_equal]
  hash := by simp +contextual [number_equal]

/-- A number is appended as unique, and then as another item of its type. -/
theorem index_exact_numbers : ∃ table added,
    Appends AtomEntry.data number_equal AtomTable_New table added ∧ added.length = 2 ∧
      Exact AtomEntry.data number_equal table added := by
  have hnone : Appends AtomEntry.data number_equal AtomTable_New AtomTable_New [] := .refl
  have hunique := @Appends.append _ _ _ _ _ _ _ _ _ true 7 true 0 hnone (fun _ => rfl) rfl
  have hboth := @Appends.append _ _ _ _ _ _ _ _ _ true 7 false 1 hunique nofun rfl
  exact ⟨_, _, hboth, rfl, hboth.index_exact compatible_number⟩

end instances

end koala.atomtable
