import Koala.Bytes
import Koala.HashTable.Map
import Koala.HashTable.Named

open koala.hashtable koala.hashtable.Buckets intrusive

namespace koala.hashtable

variable {ν κ : Type}

/-- The links of a table do not depend on the keys of nodes that are not in it. -/
theorem MapRep.congr {key key' : ν → κ} {hash : κ → Nat} {equal : κ → κ → Bool} {t : HashTable ν}
    {l : List ν} (h : MapRep key hash equal t l) (hkey : ∀ x ∈ l, key' x = key x) :
    MapRep key' hash equal t l := by
  obtain ⟨b, hrep, rfl, hdistinct⟩ := h
  have hchain : ∀ i, ∀ x ∈ b.chain i, key' x = key x :=
    fun i x hx => hkey x ((hrep.wf.mem_order x).mpr ⟨i, hx⟩)
  refine ⟨b, ⟨⟨hrep.wf.prime_index_lt, fun i x hx => ?_, hrep.wf.mem_order⟩, hrep.prime_index,
    hrep.nr_nodes, hrep.ring, hrep.chains, fun n hn => ?_⟩, rfl, fun x hx y hy heq => ?_⟩
  · rw [hchain i x hx]
    exact hrep.wf.place i x hx
  · rw [hkey n hn]
    exact hrep.hashed n hn
  · rw [hkey x hx, hkey y hy] at heq
    exact hdistinct x hx y hy heq

/-- A comparison that is equality. -/
theorem sameKey_equivalence [DecidableEq κ] :
    Equivalence fun a b : κ => sameKey a b = true where
  refl _ := decide_eq_true rfl
  symm h := decide_eq_true (of_decide_eq_true h).symm
  trans h h' := decide_eq_true ((of_decide_eq_true h).trans (of_decide_eq_true h'))

theorem sameKey_hash [DecidableEq κ] (hash : κ → Nat) (a b : κ) (h : sameKey a b = true) :
    hash a = hash b := congrArg hash (of_decide_eq_true h)

end koala.hashtable

namespace koala.atomstring

set_option linter.style.nameCheck false

/-- The characters of an entry, in memory that was zeroed. -/
structure StringEntry where
  size : Nat
  data : List UInt8

/-- The entries at their addresses, and the table that links them. -/
structure StringPool where
  entries : List StringEntry
  table : HashTable Nat

/-- The string at `val.str` of an entry. -/
def StringPool.str (pool : StringPool) (e : Nat) : CString :=
  .ofData (pool.entries[e]?.elim [] StringEntry.data)

def AtomString_Init : StringPool := ⟨[], HashTable_Init⟩

def strentry_new (str : CString) : StringEntry :=
  let len := str.bytes.length
  ⟨len + 1, str.bytes ++ [0]⟩

/-- The result of a walk over a table, which ends. -/
def walked {α : Type} : Option α → Res α
  | none => .error .fuel
  | some a => .ok a

/-- The entry whose `val` is returned. -/
def AtomString_Find (pool : StringPool) (str : CString) : Res (Option Nat) :=
  walked (HashTable_Find pool.str hash_string sameKey pool.table str)

def AtomString_New (pool : StringPool) (str : CString) : Res (Nat × StringPool) := do
  match ← AtomString_Find pool str with
  | some e => .ok (e, pool)
  | none =>
    let e := pool.entries.length
    let pool := { pool with entries := pool.entries ++ [strentry_new str] }
    let (_, table) ← walked (HashTable_Insert pool.str hash_string sameKey pool.table e)
    .ok (e, { pool with table })

/-- The entries are linked in their order, and their texts are distinct. -/
def StringPool.Interned (pool : StringPool) : Prop :=
  MapRep pool.str hash_string sameKey pool.table (List.range pool.entries.length)

theorem interned_init : AtomString_Init.Interned :=
  ⟨Buckets.init, rep_init, rfl, ordered_map.distinct_nil⟩

variable {pool pool' : StringPool}

/-- The text of an entry is not touched by later ones. -/
theorem str_extended (h : pool.entries <+: pool'.entries) {e : Nat}
    (he : e < pool.entries.length) : pool'.str e = pool.str e := by
  obtain ⟨rest, hrest⟩ := h
  rw [StringPool.str, StringPool.str, ← hrest, List.getElem?_append_left he]

/-- A text is found where it was interned. -/
theorem StringPool.Interned.find (h : pool.Interned) (str : CString) :
    ∃ found, AtomString_Find pool str = .ok found ∧
      (∀ e, found = some e → e < pool.entries.length ∧ pool.str e = str) ∧
      (found = none → ∀ e < pool.entries.length, pool.str e ≠ str) := by
  refine ⟨_, congrArg walked (mapRep_find sameKey_equivalence (sameKey_hash _) h str), ?_, ?_⟩
  · intro e hfound
    obtain ⟨hmem, hkey⟩ := ordered_map.find_eq_some hfound
    exact ⟨List.mem_range.mp hmem, of_decide_eq_true hkey⟩
  · intro hfound e he
    exact of_decide_eq_false (ordered_map.find_eq_none_iff.mp hfound e (List.mem_range.mpr he))

/-- An entry is made for a text that is not found. -/
theorem StringPool.Interned.new (h : pool.Interned) (str : CString) :
    ∃ e pool', AtomString_New pool str = .ok (e, pool') ∧ pool'.Interned ∧
      pool.entries <+: pool'.entries ∧ e < pool'.entries.length ∧ pool'.str e = str := by
  obtain ⟨found, hfind, hsome, hnone⟩ := h.find str
  cases found with
  | some e =>
    obtain ⟨he, hstr⟩ := hsome e rfl
    refine ⟨e, pool, ?_, h, List.prefix_refl _, he, hstr⟩
    rw [AtomString_New, hfind]
    rfl
  | none =>
    let grown : StringPool := { pool with entries := pool.entries ++ [strentry_new str] }
    have hext : pool.entries <+: grown.entries := List.prefix_append _ _
    have hlength : grown.entries.length = pool.entries.length + 1 := List.length_append
    have hnew : grown.str pool.entries.length = str := by
      rw [StringPool.str, List.getElem?_concat_length]
      exact CString.ofData_append_nul str []
    have hold : MapRep grown.str hash_string sameKey pool.table
        (List.range pool.entries.length) :=
      h.congr fun e he => str_extended hext (List.mem_range.mp he)
    obtain ⟨r, table, hinsert, _, hrep⟩ := mapRep_insert sameKey_equivalence (sameKey_hash _) hold
      pool.entries.length
    have hfresh : ¬ (pool.entries.length ∈ List.range pool.entries.length ∨
        (ordered_map.find grown.str sameKey (List.range pool.entries.length)
          (grown.str pool.entries.length)).isSome) := by
      rintro (hmem | hfound)
      · exact Nat.lt_irrefl _ (List.mem_range.mp hmem)
      · obtain ⟨e, hfound⟩ := Option.isSome_iff_exists.mp hfound
        obtain ⟨hmem, hkey⟩ := ordered_map.find_eq_some hfound
        have he := List.mem_range.mp hmem
        refine hnone rfl e he ?_
        rw [← str_extended hext he, of_decide_eq_true hkey, hnew]
    rw [mapStep, if_neg hfresh, ← List.range_succ] at hrep
    change MapRep grown.str hash_string sameKey table (List.range (pool.entries.length + 1)) at hrep
    rw [← hlength] at hrep
    refine ⟨pool.entries.length, ⟨grown.entries, table⟩, ?_, hrep, hext, ?_, hnew⟩
    · rw [AtomString_New, hfind]
      exact congrArg (fun r => walked r >>= fun r => Except.ok (pool.entries.length,
        (⟨grown.entries, r.2⟩ : StringPool))) hinsert
    · exact hlength ▸ Nat.lt_succ_self _

/-- Two entries with the same text are the same entry. -/
theorem StringPool.Interned.str_inj (h : pool.Interned) {e e' : Nat}
    (he : e < pool.entries.length) (he' : e' < pool.entries.length)
    (hstr : pool.str e = pool.str e') : e = e' := by
  obtain ⟨b, _, horder, hdistinct⟩ := h
  have hmem : ∀ {i}, i < pool.entries.length → i ∈ b.order := by
    intro i hi
    rw [horder]
    exact List.mem_range.mpr hi
  rw [← horder] at hdistinct
  exact hdistinct e (hmem he) e' (hmem he') (decide_eq_true hstr)

end koala.atomstring

namespace koala.atomstring

/-- A text that has an entry. -/
def StringPool.Has (pool : StringPool) (str : CString) : Prop :=
  ∃ e < pool.entries.length, pool.str e = str

/-- `string_ndup`, whose copy lies in zeroed memory. -/
def string_ndup (str : List UInt8) (len : Nat) : CString := CString.ofData (str.take len)

def AtomString_New_NStr (pool : StringPool) (str : List UInt8) (len : Nat) :
    Res (Nat × StringPool) := AtomString_New pool (string_ndup str len)

inductive Call where
  | find (str : CString)
  | new (str : CString)
  | newNStr (str : List UInt8) (len : Nat)

namespace Call

def text : Call → CString
  | find str => str
  | new str => str
  | newNStr str len => string_ndup str len

/-- All calls but a search make an entry for their text. -/
def Interns : Call → Prop
  | find _ => False
  | _ => True

/-- The entry a call returns, if any. -/
def run (pool : StringPool) : Call → Res (Option Nat × StringPool)
  | find str => do
    let found ← AtomString_Find pool str
    .ok (found, pool)
  | new str => do
    let (e, pool) ← AtomString_New pool str
    .ok (some e, pool)
  | newNStr str len => do
    let (e, pool) ← AtomString_New_NStr pool str len
    .ok (some e, pool)

def runAll : StringPool → List Call → Res (List (Option Nat) × StringPool)
  | pool, [] => .ok ([], pool)
  | pool, call :: calls => do
    let (e, pool) ← call.run pool
    let (es, pool) ← runAll pool calls
    .ok (e :: es, pool)

end Call

variable {pool pool' : StringPool}

theorem StringPool.Has.extended (h : pool.entries <+: pool'.entries) {str : CString}
    (hhas : pool.Has str) : pool'.Has str := by
  obtain ⟨e, he, hstr⟩ := hhas
  exact ⟨e, lt_of_lt_of_le he h.length_le, (str_extended h he).trans hstr⟩

/-- One entry is made at most, behind the others. -/
theorem new_entries {str : CString} {e : Nat} (h : AtomString_New pool str = .ok (e, pool')) :
    pool' = pool ∨
      e = pool.entries.length ∧ pool'.entries = pool.entries ++ [strentry_new str] := by
  rw [AtomString_New, bind_eq_ok_iff] at h
  obtain ⟨found, _, h⟩ := h
  cases found with
  | some e' =>
    obtain ⟨_, rfl⟩ := Prod.mk.inj (Except.ok.inj h)
    exact Or.inl rfl
  | none =>
    obtain ⟨_, _, h⟩ := bind_eq_ok_iff.mp h
    obtain ⟨rfl, rfl⟩ := Prod.mk.inj (Except.ok.inj h)
    exact Or.inr ⟨rfl, rfl⟩

/-- What a call returns, and what it does to the pool. -/
structure Called (pool : StringPool) (call : Call) (e : Option Nat) (pool' : StringPool) :
    Prop where
  interned : pool'.Interned
  kept : pool.entries <+: pool'.entries
  text : ∀ i, e = some i → i < pool'.entries.length ∧ pool'.str i = call.text
  none_iff : e = none ↔ ¬ call.Interns ∧ ¬ pool.Has call.text
  has_iff : ∀ str, pool'.Has str ↔ pool.Has str ∨ call.Interns ∧ call.text = str

theorem StringPool.Interned.called_find (h : pool.Interned) (str : CString) :
    ∃ e, Call.run pool (.find str) = .ok (e, pool) ∧ Called pool (.find str) e pool := by
  obtain ⟨found, hfind, hsome, hnone⟩ := h.find str
  refine ⟨found, by simp [Call.run, hfind], h, List.prefix_refl _, hsome, ⟨?_, ?_⟩, ?_⟩
  · rintro hfound
    refine ⟨id, ?_⟩
    rintro ⟨e, he, hstr⟩
    exact hnone hfound e he hstr
  · rintro ⟨_, hnot⟩
    cases found with
    | none => rfl
    | some e => exact absurd ⟨e, hsome e rfl⟩ hnot
  · simp [Call.Interns]

theorem StringPool.Interned.called_new (h : pool.Interned) {call : Call} (hcall : call.Interns) :
    ∃ e pool', AtomString_New pool call.text = .ok (e, pool') ∧ Called pool call (some e) pool' := by
  obtain ⟨e, pool', hnew, hinterned, hkept, he, hstr⟩ := h.new call.text
  refine ⟨e, pool', hnew, hinterned, hkept, ?_, by simp [hcall], ?_⟩
  · intro i hi
    obtain rfl := Option.some.inj hi
    exact ⟨he, hstr⟩
  · intro str
    constructor
    · rintro ⟨i, hi, ht⟩
      by_cases hold : i < pool.entries.length
      · exact Or.inl ⟨i, hold, (str_extended hkept hold).symm.trans ht⟩
      · obtain rfl | ⟨hfresh, hentries⟩ := new_entries hnew
        · exact absurd hi hold
        · rw [hentries, List.length_append, List.length_singleton] at hi
          have hie : i = e := by omega
          exact Or.inr ⟨hcall, by rw [← ht, hie, hstr]⟩
    · rintro (hhas | ⟨_, rfl⟩)
      · exact hhas.extended hkept
      · exact ⟨e, he, hstr⟩

/-- Every call returns. -/
theorem StringPool.Interned.called (h : pool.Interned) (call : Call) :
    ∃ e pool', call.run pool = .ok (e, pool') ∧ Called pool call e pool' := by
  cases call with
  | find str =>
    obtain ⟨e, hrun, hcalled⟩ := h.called_find str
    exact ⟨e, pool, hrun, hcalled⟩
  | new str =>
    obtain ⟨e, pool', hnew, hcalled⟩ := h.called_new (show (Call.new str).Interns from trivial)
    exact ⟨some e, pool', congrArg (· >>= _) hnew, hcalled⟩
  | newNStr str len =>
    obtain ⟨e, pool', hnew, hcalled⟩ :=
      h.called_new (show (Call.newNStr str len).Interns from trivial)
    exact ⟨some e, pool', congrArg (· >>= _) hnew, hcalled⟩

/-- What some calls return: each entry holds its text in the pool they leave, and a search
fails when its text had no entry before. -/
structure AllCalled (pool : StringPool) (calls : List Call) (es : List (Option Nat))
    (pool' : StringPool) : Prop where
  interned : pool'.Interned
  kept : pool.entries <+: pool'.entries
  length : es.length = calls.length
  text : ∀ {i e : Nat} {call : Call}, calls[i]? = some call → es[i]? = some (some e) →
    e < pool'.entries.length ∧ pool'.str e = call.text
  none_iff : ∀ {i : Nat} {call : Call}, calls[i]? = some call → (es[i]? = some none ↔
    ¬ call.Interns ∧ ¬ pool.Has call.text ∧ ∀ j < i, ∀ before : Call, calls[j]? = some before →
      before.Interns → before.text ≠ call.text)

theorem AllCalled.cons {call : Call} {calls : List Call} {e : Option Nat}
    {es : List (Option Nat)} {mid : StringPool} (hcall : Called pool call e mid)
    (h : AllCalled mid calls es pool') : AllCalled pool (call :: calls) (e :: es) pool' where
  interned := h.interned
  kept := hcall.kept.trans h.kept
  length := congrArg Nat.succ h.length
  text := by
    intro i e' c hc he
    cases i with
    | zero =>
      obtain rfl : call = c := by simpa using hc
      obtain ⟨hlt, htext⟩ := hcall.text e' (by simpa using he)
      exact ⟨lt_of_lt_of_le hlt h.kept.length_le, (str_extended h.kept hlt).trans htext⟩
    | succ i => exact h.text (i := i) (by simpa using hc) (by simpa using he)
  none_iff := by
    intro i c hc
    cases i with
    | zero =>
      obtain rfl : call = c := by simpa using hc
      simp [hcall.none_iff]
    | succ i =>
      rw [List.getElem?_cons_succ] at hc ⊢
      rw [h.none_iff hc, hcall.has_iff]
      constructor
      · rintro ⟨hfind, hnot, hbefore⟩
        rw [not_or] at hnot
        refine ⟨hfind, hnot.1, ?_⟩
        intro j hj before hb hint htext
        cases j with
        | zero =>
          obtain rfl : call = before := by simpa using hb
          exact hnot.2 ⟨hint, htext⟩
        | succ j => exact hbefore j (Nat.lt_of_succ_lt_succ hj) before hb hint htext
      · rintro ⟨hfind, hnot, hbefore⟩
        refine ⟨hfind, ?_, ?_⟩
        · rintro (hhas | ⟨hint, htext⟩)
          · exact hnot hhas
          · exact hbefore 0 (Nat.succ_pos i) call rfl hint htext
        · intro j hj before hb
          exact hbefore (j + 1) (Nat.succ_lt_succ hj) before hb

theorem StringPool.Interned.allCalled (h : pool.Interned) (calls : List Call) :
    ∃ es pool', Call.runAll pool calls = .ok (es, pool') ∧ AllCalled pool calls es pool' := by
  induction calls generalizing pool with
  | nil =>
    exact ⟨[], pool, rfl, h, List.prefix_refl _, rfl, by simp, by simp⟩
  | cons call calls ih =>
    obtain ⟨e, mid, hrun, hcalled⟩ := h.called call
    obtain ⟨es, pool', hruns, hall⟩ := ih hcalled.interned
    refine ⟨e :: es, pool', ?_, hall.cons hcalled⟩
    rw [Call.runAll, hrun, ok_bind]
    dsimp only
    rw [hruns, ok_bind]

end koala.atomstring
