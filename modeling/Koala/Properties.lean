import Koala.AtomString
import Koala.Vector

open koala.hashtable koala.hashtable.Buckets koala.atomstring koala.vector

namespace koala.properties

set_option linter.style.nameCheck false

/-- A key, at its address in the string pool, and the values put under it. -/
structure PropEntry where
  key : Nat
  vec : vector.Vector Nat

/-- The entries at their addresses and the table that links them, with the pool
of the strings, the requests for the vectors' memory, and the entries that were
freed. -/
structure Properties where
  pool : StringPool
  entries : List PropEntry
  table : HashTable Nat
  heap : Heap
  freed : List Nat

/-- The string that an entry is hashed and compared by. -/
def Properties.key (prop : Properties) (e : Nat) : CString :=
  prop.entries[e]?.elim (.ofData []) fun entry => prop.pool.str entry.key

def Properties_Init (pool : StringPool) (heap : Heap) : Properties :=
  ⟨pool, [], HashTable_Init, heap, []⟩

def find_entry (prop : Properties) (key : CString) : Res (Option Nat) :=
  walked (HashTable_Find prop.key hash_string sameKey prop.table key)

/-- A new entry, at the next address. -/
def propentry_new (prop : Properties) (key : CString) : Res (Nat × Properties) := do
  let (key, pool) ← AtomString_New prop.pool key
  .ok (prop.entries.length, { prop with pool, entries := prop.entries ++ [⟨key, Vector_Init⟩] })

/-- The first half of `Properties_Put`. -/
def Properties_Put.entry (prop : Properties) (key : CString) : Res (Nat × Properties) := do
  match ← find_entry prop key with
  | some e => .ok (e, prop)
  | none =>
    let (e, prop) ← propentry_new prop key
    let (_, table) ← walked (HashTable_Insert prop.key hash_string sameKey prop.table e)
    .ok (e, { prop with table })

def Properties_Put (a : Allocator) (prop : Properties) (key val : CString) :
    Res (Int × Properties) := do
  let (e, prop) ← Properties_Put.entry prop key
  let (val, pool) ← AtomString_New prop.pool val
  match prop.entries[e]? with
  | none => .error .null
  | some entry =>
    let (_, vec, heap) ← Vector_Append a prop.heap entry.vec (some val)
    .ok (0, { prop with pool, entries := prop.entries.set e { entry with vec }, heap })

def Properties_GetOne (prop : Properties) (key : CString) : Res (Option Nat) := do
  match ← find_entry prop key with
  | none => .ok none
  | some e =>
    match prop.entries[e]? with
    | none => .error .null
    | some entry => Vector_Get entry.vec 0

/-- The vector that a pointer to it is returned of. -/
def Properties_Get (prop : Properties) (key : CString) : Res (Option (vector.Vector Nat)) := do
  match ← find_entry prop key with
  | none => .ok none
  | some e =>
    match prop.entries[e]? with
    | none => .error .null
    | some entry => .ok (some entry.vec)

/-- An entry is freed with the array of its vector. -/
def __propentry_fini_func (s : HashTable Nat × List Nat) (hnode : Nat) :
    Res (HashTable Nat × List Nat) :=
  if hnode ∈ s.2 then .error .bounds else .ok (s.1, s.2 ++ [hnode])

def Properties_Fini (prop : Properties) : Res Properties := do
  let (table, freed) ← HashTable_Fini __propentry_fini_func (prop.table, prop.freed)
  .ok { prop with table, freed }

inductive Call where
  | put (key val : CString)
  | getOne (key : CString)
  | get (key : CString)

/-- What a call returns: a code, a string or none, the items of a vector or none. -/
inductive Answer (α : Type) where
  | code (res : Int)
  | one (val : Option α)
  | all (vals : Option (List (Option α)))
  deriving DecidableEq

def Answer.map {α β : Type} (f : α → β) : Answer α → Answer β
  | .code res => .code res
  | .one val => .one (val.map f)
  | .all vals => .all (vals.map fun items => items.map fun item => item.map f)

def run (a : Allocator) (prop : Properties) : Call → Res (Answer Nat × Properties)
  | .put key val => do
    let (res, prop) ← Properties_Put a prop key val
    .ok (.code res, prop)
  | .getOne key => do
    let val ← Properties_GetOne prop key
    .ok (.one val, prop)
  | .get key => do
    let vec ← Properties_Get prop key
    .ok (.all (vec.map vector.Vector.list), prop)

def runAll (a : Allocator) : Properties → List Call → Res (List (Answer Nat) × Properties)
  | prop, [] => .ok ([], prop)
  | prop, call :: calls => do
    let (answer, prop) ← run a prop call
    let (answers, prop) ← runAll a prop calls
    .ok (answer :: answers, prop)

/-- The values put under a key, the oldest one first. -/
def values (puts : List (CString × CString)) (key : CString) : List CString :=
  (puts.filter (·.1 = key)).map (·.2)

/-- The purpose of the properties: each key has the values that were put under it. -/
def onPuts (puts : List (CString × CString)) : Call → Answer CString × List (CString × CString)
  | .put key val => (.code 0, puts ++ [(key, val)])
  | .getOne key => (.one (values puts key).head?, puts)
  | .get key =>
    (.all (if values puts key = [] then none else some ((values puts key).map some)), puts)

def allOnPuts (puts : List (CString × CString)) : List Call → List (Answer CString)
  | [] => []
  | call :: calls => (onPuts puts call).1 :: allOnPuts (onPuts puts call).2 calls

end koala.properties

namespace koala.properties

set_option linter.style.nameCheck false

/-- An entry that is linked: its key and its items are in the pool, and the items are the
values put under the key, unless memory was refused. -/
structure PropEntry.Holds (entry : PropEntry) (pool : StringPool) (heap : Heap)
    (puts : List (CString × CString)) : Prop where
  key_lt : entry.key < pool.entries.length
  valid : entry.vec.Valid
  items : Succeeded heap → ∃ vals : List Nat, entry.vec.list = vals.map some ∧
    (∀ v ∈ vals, v < pool.entries.length) ∧ vals.map pool.str = values puts (pool.str entry.key)

structure Properties.Stored (prop : Properties) (puts : List (CString × CString)) : Prop where
  interned : prop.pool.Interned
  table : MapRep prop.key hash_string sameKey prop.table (List.range prop.entries.length)
  holds : ∀ (e : Nat) (entry : PropEntry), prop.entries[e]? = some entry →
    entry.Holds prop.pool prop.heap puts
  unfreed : prop.freed = []

/-- A key has an entry. -/
def Properties.Has (prop : Properties) (key : CString) : Prop :=
  ∃ e < prop.entries.length, prop.key e = key

/-- The keys that have an entry are those under which something was put. -/
structure Properties.Rep (prop : Properties) (puts : List (CString × CString)) : Prop extends
    prop.Stored puts where
  keys : ∀ key, prop.Has key ↔ values puts key ≠ []

variable {prop prop' : Properties} {puts : List (CString × CString)} {key val : CString}

@[simp] theorem values_nil (key : CString) : values [] key = [] := rfl

theorem values_append (puts : List (CString × CString)) (key val key' : CString) :
    values (puts ++ [(key, val)]) key' =
      values puts key' ++ if key = key' then [val] else [] := by
  by_cases heq : key = key' <;> simp [values, heq]

theorem Properties.key_eq (prop : Properties) {e : Nat} {entry : PropEntry}
    (h : prop.entries[e]? = some entry) :
    prop.key e = prop.pool.str entry.key := by
  rw [Properties.key, h]
  rfl

theorem rep_init {pool : StringPool} (h : pool.Interned) (heap : Heap) :
    (Properties_Init pool heap).Rep [] := by
  refine ⟨⟨h, ?_, ?_, rfl⟩, ?_⟩
  · exact ⟨Buckets.init, hashtable.rep_init, rfl, ordered_map.distinct_nil⟩
  · intro e entry hentry
    cases hentry
  · intro key
    simp [Properties.Has, Properties_Init]

/-- An entry is found by its key. -/
theorem Properties.Stored.find (h : prop.Stored puts) (key : CString) :
    ∃ found, find_entry prop key = .ok found ∧
      (∀ e, found = some e → e < prop.entries.length ∧ prop.key e = key) ∧
      (found = none → ¬ prop.Has key) := by
  refine ⟨_, congrArg walked (mapRep_find sameKey_equivalence (sameKey_hash _) h.table key), ?_, ?_⟩
  · intro e hfound
    obtain ⟨hmem, hkey⟩ := ordered_map.find_eq_some hfound
    exact ⟨List.mem_range.mp hmem, of_decide_eq_true hkey⟩
  · rintro hfound ⟨e, he, hkey⟩
    exact of_decide_eq_false (ordered_map.find_eq_none_iff.mp hfound e (List.mem_range.mpr he)) hkey

theorem Properties.Stored.key_inj (h : prop.Stored puts) {e e' : Nat}
    (he : e < prop.entries.length) (he' : e' < prop.entries.length)
    (hkey : prop.key e = prop.key e') : e = e' := by
  obtain ⟨b, -, horder, hdistinct⟩ := h.table
  rw [← horder] at hdistinct
  refine hdistinct e ?_ e' ?_ (decide_eq_true hkey)
  · rw [horder]
    exact List.mem_range.mpr he
  · rw [horder]
    exact List.mem_range.mpr he'

/-- What an entry holds is not touched when the pool grows. -/
theorem PropEntry.Holds.extended {entry : PropEntry} {pool pool' : StringPool} {heap : Heap}
    (h : entry.Holds pool heap puts) (hext : pool.entries <+: pool'.entries) :
    entry.Holds pool' heap puts ∧ pool'.str entry.key = pool.str entry.key := by
  have hkey : pool'.str entry.key = pool.str entry.key := str_extended hext h.key_lt
  refine ⟨⟨lt_of_lt_of_le h.key_lt hext.length_le, h.valid, fun hs => ?_⟩, hkey⟩
  obtain ⟨vals, hlist, hlt, hvals⟩ := h.items hs
  refine ⟨vals, hlist, fun v hv => lt_of_lt_of_le (hlt v hv) hext.length_le, ?_⟩
  rw [hkey, ← hvals]
  exact List.map_congr_left fun v hv => str_extended hext (hlt v hv)

/-- The key of an entry that was there is kept by a new one. -/
theorem key_extended {pool : StringPool} {entries : List PropEntry} {table : HashTable Nat}
    {heap : Heap} {freed : List Nat} (h : prop.Stored puts)
    (hpool : prop.pool.entries <+: pool.entries) {e : Nat} (he : e < prop.entries.length) :
    (⟨pool, prop.entries ++ entries, table, heap, freed⟩ : Properties).key e = prop.key e := by
  have hentry : prop.entries[e]? = some prop.entries[e] := List.getElem?_eq_getElem he
  have hentry' : (prop.entries ++ entries)[e]? = some prop.entries[e] :=
    (List.getElem?_append_left he).trans hentry
  rw [prop.key_eq hentry, Properties.key_eq ⟨_, _, _, _, _⟩ hentry']
  exact ((h.holds e _ hentry).extended hpool).2

/-- A key that has no entry gets one. -/
theorem Properties.Rep.new_entry (h : prop.Rep puts) (hnot : ¬ prop.Has key) :
    ∃ e prop₁ r table, propentry_new prop key = .ok (e, prop₁) ∧
      HashTable_Insert prop₁.key hash_string sameKey prop₁.table e = some (r, table) ∧
      ({ prop₁ with table } : Properties).Stored puts ∧
      prop.pool.entries <+: prop₁.pool.entries ∧ prop₁.heap = prop.heap ∧
      e < prop₁.entries.length ∧ prop₁.key e = key ∧
      ∀ key', prop₁.Has key' ↔ key' = key ∨ prop.Has key' := by
  obtain ⟨atom, pool, hnew, hinterned, hext, hatom, hstr⟩ := h.interned.new key
  let prop₁ : Properties :=
    { prop with pool, entries := prop.entries ++ [⟨atom, Vector_Init⟩] }
  have hlength : prop₁.entries.length = prop.entries.length + 1 := List.length_append
  have hentry : prop₁.entries[prop.entries.length]? = some ⟨atom, Vector_Init⟩ :=
    List.getElem?_concat_length
  have hkey : prop₁.key prop.entries.length = key := (prop₁.key_eq hentry).trans hstr
  have hold : ∀ {e}, e < prop.entries.length → prop₁.key e = prop.key e :=
    key_extended h.toStored hext
  have htable : MapRep prop₁.key hash_string sameKey prop.table
      (List.range prop.entries.length) := h.table.congr fun e he => hold (List.mem_range.mp he)
  obtain ⟨r, table, hinsert, -, hrep⟩ := mapRep_insert sameKey_equivalence (sameKey_hash _) htable
    prop.entries.length
  have hfresh : ¬ (prop.entries.length ∈ List.range prop.entries.length ∨
      (ordered_map.find prop₁.key sameKey (List.range prop.entries.length)
        (prop₁.key prop.entries.length)).isSome) := by
    rintro (hmem | hfound)
    · exact Nat.lt_irrefl _ (List.mem_range.mp hmem)
    · obtain ⟨e, hfound⟩ := Option.isSome_iff_exists.mp hfound
      obtain ⟨hmem, heq⟩ := ordered_map.find_eq_some hfound
      have he := List.mem_range.mp hmem
      exact hnot ⟨e, he, (hold he).symm.trans ((of_decide_eq_true heq).trans hkey)⟩
  rw [mapStep, if_neg hfresh, ← List.range_succ] at hrep
  change MapRep prop₁.key hash_string sameKey table (List.range (prop.entries.length + 1)) at hrep
  rw [← hlength] at hrep
  refine ⟨prop.entries.length, prop₁, r, table, ?_, hinsert,
    ⟨hinterned, hrep, ?_, h.unfreed⟩, hext, rfl, hlength ▸ Nat.lt_succ_self _, hkey, fun key' => ⟨?_, ?_⟩⟩
  · rw [propentry_new, hnew]
    rfl
  · intro e entry hget
    obtain hlt | heq := Nat.lt_or_eq_of_le (Nat.le_of_lt_succ
      (hlength ▸ (List.getElem?_eq_some_iff.mp hget).1))
    · have hget' : prop.entries[e]? = some entry :=
        (List.getElem?_append_left hlt).symm.trans hget
      exact ((h.holds e entry hget').extended hext).1
    · subst heq
      obtain rfl := Option.some.inj (hentry.symm.trans hget)
      refine ⟨hatom, valid_init, fun _ => ⟨[], rfl, by simp, ?_⟩⟩
      have hnone : values puts key = [] := by
        by_contra hne
        exact hnot ((h.keys key).mpr hne)
      exact (hstr ▸ hnone).symm
  · rintro ⟨e, he, heq⟩
    obtain hlt | rfl := Nat.lt_or_eq_of_le (Nat.le_of_lt_succ (hlength ▸ he))
    · exact .inr ⟨e, hlt, (hold hlt).symm.trans heq⟩
    · exact .inl (heq.symm.trans hkey)
  · rintro (rfl | ⟨e, he, heq⟩)
    · exact ⟨_, hlength ▸ Nat.lt_succ_self _, hkey⟩
    · exact ⟨e, hlength ▸ Nat.lt_succ_of_lt he, (hold he).trans heq⟩

/-- The entry of a key is found, or made. -/
theorem Properties.Rep.entry (h : prop.Rep puts) (key : CString) :
    ∃ e prop', Properties_Put.entry prop key = .ok (e, prop') ∧ prop'.Stored puts ∧
      prop.pool.entries <+: prop'.pool.entries ∧ prop'.heap = prop.heap ∧
      e < prop'.entries.length ∧ prop'.key e = key ∧
      ∀ key', prop'.Has key' ↔ key' = key ∨ prop.Has key' := by
  obtain ⟨found, hfind, hsome, hnone⟩ := h.find key
  cases found with
  | some e =>
    obtain ⟨he, hkey⟩ := hsome e rfl
    refine ⟨e, prop, ?_, h.toStored, List.prefix_refl _, rfl, he, hkey, fun key' => ⟨.inr, ?_⟩⟩
    · rw [Properties_Put.entry, hfind]
      rfl
    · rintro (rfl | hhas)
      · exact ⟨e, he, hkey⟩
      · exact hhas
  | none =>
    obtain ⟨e, prop₁, r, table, hnew, hinsert, hstored, hext, hheap, he, hkey, hkeys⟩ :=
      h.new_entry (hnone rfl)
    refine ⟨e, { prop₁ with table }, ?_, hstored, hext, hheap, he, hkey, hkeys⟩
    rw [Properties_Put.entry, hfind, ok_bind]
    simp only [hnew, ok_bind, hinsert, walked]

/-- A value is appended to those of its key. -/
theorem Properties.Rep.put (h : prop.Rep puts) (a : Allocator) (key val : CString) :
    ∃ prop', Properties_Put a prop key val = .ok (0, prop') ∧ prop'.Rep (puts ++ [(key, val)]) ∧
      prop.pool.entries <+: prop'.pool.entries ∧
      (Succeeded prop'.heap → Succeeded prop.heap) := by
  obtain ⟨e, prop₁, hentry, hstored, hext₁, hheap, he, hkey, hkeys⟩ := h.entry key
  obtain ⟨atom, pool, hnew, hinterned, hext, hatom, hstr⟩ := hstored.interned.new val
  let entry : PropEntry := prop₁.entries[e]
  have hget : prop₁.entries[e]? = some entry := List.getElem?_eq_getElem he
  have hentrykey : prop₁.pool.str entry.key = key := (prop₁.key_eq hget).symm.trans hkey
  obtain ⟨hholds, hsame⟩ := (hstored.holds e entry hget).extended hext
  obtain ⟨res, vec, heap, happend, hvalid, hlist⟩ := hholds.valid.append a prop₁.heap (some atom)
  let prop' : Properties :=
    { prop₁ with pool, entries := prop₁.entries.set e { entry with vec }, heap }
  have hold : ∀ i < prop₁.entries.length, prop'.key i = prop₁.key i := by
    intro i hi
    have hi' : prop₁.entries[i]? = some prop₁.entries[i] := List.getElem?_eq_getElem hi
    rw [prop₁.key_eq hi', ← ((hstored.holds i _ hi').extended hext).2]
    by_cases hie : e = i
    · subst hie
      have hset : prop'.entries[e]? = some { entry with vec } := List.getElem?_set_self he
      exact (prop'.key_eq hset).trans rfl
    · exact prop'.key_eq ((List.getElem?_set_ne hie).trans hi')
  have hlength : prop'.entries.length = prop₁.entries.length := List.length_set
  refine ⟨prop', ?_, ⟨⟨hinterned, ?_, ?_, hstored.unfreed⟩, fun key' => ?_⟩,
    hext₁.trans hext, fun hs => hheap ▸ (hlist hs).1⟩
  · simp only [Properties_Put, hentry, ok_bind, hnew, hget, happend]
    rfl
  · rw [hlength]
    exact hstored.table.congr fun i hi => hold i (List.mem_range.mp hi)
  · intro i entry' hget'
    by_cases hie : e = i
    · -- the entry of the key
      subst hie
      rw [List.getElem?_set_self he] at hget'
      obtain rfl := Option.some.inj hget'
      refine ⟨hholds.key_lt, hvalid, fun hs => ?_⟩
      obtain ⟨hsucc, -, happended⟩ := hlist hs
      obtain ⟨vals, hvals, hlt, htext⟩ := hholds.items hsucc
      refine ⟨vals ++ [atom], ?_, ?_, ?_⟩
      · rw [happended, hvals, List.map_append, List.map_singleton]
      · intro v hv
        obtain hv | hv := List.mem_append.mp hv
        · exact hlt v hv
        · exact List.mem_singleton.mp hv ▸ hatom
      · rw [values_append, List.map_append, List.map_singleton, htext, hsame, hentrykey, hstr,
          if_pos rfl]
    · -- another one
      rw [List.getElem?_set_ne hie] at hget'
      obtain ⟨hother, hsame'⟩ := (hstored.holds i entry' hget').extended hext
      refine ⟨hother.key_lt, hother.valid, fun hs => ?_⟩
      obtain ⟨vals, hvals, hlt, htext⟩ := hother.items (hlist hs).1
      have hne : key ≠ pool.str entry'.key := by
        intro heq
        refine hie (hstored.key_inj he (List.getElem?_eq_some_iff.mp hget').1 ?_)
        rw [hkey, prop₁.key_eq hget', ← hsame', heq]
      rw [values_append, if_neg hne, List.append_nil]
      exact ⟨vals, hvals, hlt, htext⟩
  · rw [values_append]
    have hhas : prop'.Has key' ↔ prop₁.Has key' := by
      rw [Properties.Has, Properties.Has, hlength]
      exact exists_congr fun i => and_congr_right fun hi => by rw [hold i hi]
    rw [hhas, hkeys, h.keys]
    by_cases heq : key = key'
    · simp [heq]
    · simp [heq, Ne.symm heq]

/-- A key has an entry, or nothing was put under it. -/
theorem Properties.Rep.found (h : prop.Rep puts) (key : CString) :
    find_entry prop key = .ok none ∧ values puts key = [] ∨
    ∃ (e : Nat) (entry : PropEntry), find_entry prop key = .ok (some e) ∧
      prop.entries[e]? = some entry ∧ entry.Holds prop.pool prop.heap puts ∧
      prop.pool.str entry.key = key ∧ values puts key ≠ [] := by
  obtain ⟨found, hfind, hsome, hnone⟩ := h.find key
  cases found with
  | none =>
    refine .inl ⟨hfind, ?_⟩
    by_contra hne
    exact hnone rfl ((h.keys key).mpr hne)
  | some e =>
    obtain ⟨he, hkey⟩ := hsome e rfl
    have hget : prop.entries[e]? = some prop.entries[e] := List.getElem?_eq_getElem he
    exact .inr ⟨e, _, hfind, hget, h.holds e _ hget, (prop.key_eq hget).symm.trans hkey,
      (h.keys key).mp ⟨e, he, hkey⟩⟩

/-- The strings of an answer are in a pool of `n` strings. -/
def Answer.Within (n : Nat) : Answer Nat → Prop
  | .code _ => True
  | .one val => ∀ v, val = some v → v < n
  | .all vals => ∀ items, vals = some items → ∀ v, some v ∈ items → v < n

/-- Strings stay where they are when the pool grows. -/
theorem Answer.Within.extended {answer : Answer Nat} {pool pool' : StringPool}
    (h : answer.Within pool.entries.length) (hext : pool.entries <+: pool'.entries) :
    answer.Within pool'.entries.length ∧ answer.map pool'.str = answer.map pool.str := by
  cases answer with
  | code res => exact ⟨trivial, rfl⟩
  | one val =>
    refine ⟨fun v hv => lt_of_lt_of_le (h v hv) hext.length_le, congrArg Answer.one ?_⟩
    exact Option.map_congr fun v hv => str_extended hext (h v hv)
  | all vals =>
    refine ⟨fun items hi v hv => lt_of_lt_of_le (h items hi v hv) hext.length_le,
      congrArg Answer.all (Option.map_congr fun items hi => List.map_congr_left fun item hitem =>
        Option.map_congr fun v hv => str_extended hext (h items hi v ?_))⟩
    rw [← Option.mem_def.mp hv]
    exact hitem

/-- The answer of a call, in the pool it leaves. -/
structure Answered (answer : Answer Nat) (prop : Properties) (expected : Answer CString) :
    Prop where
  within : answer.Within prop.pool.entries.length
  text : answer.map prop.pool.str = expected

theorem Answered.extended {answer : Answer Nat} {expected : Answer CString}
    (h : Answered answer prop expected) (hext : prop.pool.entries <+: prop'.pool.entries) :
    Answered answer prop' expected := by
  obtain ⟨hwithin, htext⟩ := h.within.extended hext
  exact ⟨hwithin, htext.trans h.text⟩

theorem answers_text {answers : List (Answer Nat)} {expected : List (Answer CString)}
    (h : List.Forall₂ (fun answer => Answered answer prop) answers expected) :
    answers.map (Answer.map prop.pool.str) = expected := by
  induction h with
  | nil => rfl
  | cons hone _ ih => rw [List.map_cons, hone.text, ih]

theorem Properties.Rep.getOne (h : prop.Rep puts) (key : CString) :
    ∃ val, Properties_GetOne prop key = .ok val ∧
      (Succeeded prop.heap → Answered (.one val) prop (.one (values puts key).head?)) := by
  obtain ⟨hfind, hnone⟩ | ⟨e, entry, hfind, hget, hholds, hkey, hne⟩ := h.found key
  · refine ⟨none, by simp [Properties_GetOne, hfind], fun _ => ⟨by simp [Answer.Within], ?_⟩⟩
    rw [hnone]
    rfl
  · refine ⟨getList entry.vec.list 0, ?_, fun hs => ?_⟩
    · simp only [Properties_GetOne, hfind, ok_bind, hget, hholds.valid.get]
    obtain ⟨vals, hlist, hlt, htext⟩ := hholds.items hs
    rw [hkey] at htext
    cases vals with
    | nil => exact absurd htext.symm hne
    | cons v vals =>
      have hfirst : getList entry.vec.list 0 = some v := by simp [getList, hlist]
      rw [hfirst, ← htext]
      refine ⟨fun w hw => ?_, rfl⟩
      exact hlt w (Option.some.inj hw ▸ List.mem_cons_self)

theorem Properties.Rep.get (h : prop.Rep puts) (key : CString) :
    ∃ vec, Properties_Get prop key = .ok vec ∧
      (Succeeded prop.heap → Answered (.all (vec.map vector.Vector.list)) prop
        (onPuts puts (.get key)).1) := by
  obtain ⟨hfind, hnone⟩ | ⟨e, entry, hfind, hget, hholds, hkey, hne⟩ := h.found key
  · refine ⟨none, by simp [Properties_Get, hfind], fun _ => ⟨by simp [Answer.Within], ?_⟩⟩
    simp [onPuts, hnone, Answer.map]
  · refine ⟨some entry.vec, by simp [Properties_Get, hfind, hget], fun hs => ?_⟩
    obtain ⟨vals, hlist, hlt, htext⟩ := hholds.items hs
    rw [hkey] at htext
    constructor
    · intro items hitems v hv
      obtain rfl := Option.some.inj hitems
      rw [hlist] at hv
      obtain ⟨w, hw, hsome⟩ := List.mem_map.mp hv
      exact Option.some.inj hsome ▸ hlt w hw
    · rw [onPuts, if_neg hne, ← htext]
      simp [Answer.map, hlist, Function.comp_def]

/-- Each call answers as the puts before it say. -/
theorem Properties.Rep.run (h : prop.Rep puts) (a : Allocator) (call : Call) :
    ∃ answer prop', run a prop call = .ok (answer, prop') ∧ prop'.Rep (onPuts puts call).2 ∧
      prop.pool.entries <+: prop'.pool.entries ∧
      (Succeeded prop'.heap →
        Succeeded prop.heap ∧ Answered answer prop' (onPuts puts call).1) := by
  cases call with
  | put key val =>
    obtain ⟨prop', hput, hrep, hext, hheap⟩ := h.put a key val
    exact ⟨.code 0, prop', congrArg (· >>= _) hput, hrep, hext,
      fun hs => ⟨hheap hs, trivial, rfl⟩⟩
  | getOne key =>
    obtain ⟨val, hget, hanswer⟩ := h.getOne key
    exact ⟨.one val, prop, congrArg (· >>= _) hget, h, List.prefix_refl _,
      fun hs => ⟨hs, hanswer hs⟩⟩
  | get key =>
    obtain ⟨vec, hget, hanswer⟩ := h.get key
    exact ⟨.all (vec.map vector.Vector.list), prop, congrArg (· >>= _) hget, h, List.prefix_refl _,
      fun hs => ⟨hs, hanswer hs⟩⟩

theorem Properties.Rep.runAll (h : prop.Rep puts) (a : Allocator) (calls : List Call) :
    ∃ answers prop' puts', runAll a prop calls = .ok (answers, prop') ∧ prop'.Rep puts' ∧
      prop.pool.entries <+: prop'.pool.entries ∧
      (Succeeded prop'.heap → Succeeded prop.heap ∧
        List.Forall₂ (fun answer => Answered answer prop') answers (allOnPuts puts calls)) := by
  induction calls generalizing prop puts with
  | nil => exact ⟨[], prop, puts, rfl, h, List.prefix_refl _, fun hs => ⟨hs, .nil⟩⟩
  | cons call calls ih =>
    obtain ⟨answer, prop₁, hrun, hrep, hext, hanswer⟩ := h.run a call
    obtain ⟨answers, prop', puts', hruns, hrep', hext', hanswers⟩ := ih hrep
    refine ⟨answer :: answers, prop', puts', ?_, hrep', hext.trans hext', fun hs => ?_⟩
    · simp only [koala.properties.runAll, hrun, ok_bind, hruns]
    · obtain ⟨hs₁, hall⟩ := hanswers hs
      obtain ⟨hs₀, hone⟩ := hanswer hs₁
      exact ⟨hs₀, .cons (hone.extended hext') hall⟩

/-- The entries are freed in their order, each once. -/
theorem Properties.Stored.fini (h : prop.Stored puts) :
    ∃ prop', Properties_Fini prop = .ok prop' ∧ prop'.freed = List.range prop.entries.length := by
  let P : List Nat → List Nat → Prop := fun l freed =>
    freed ++ l = List.range prop.entries.length
  have hvisit : ∀ {t : HashTable Nat} {x n l}, Linked prop.key hash_string sameKey t l →
      l.length ≤ t.nr_nodes → n ∉ l → P (n :: l) x →
      ∃ x', __propentry_fini_func (t, x) n = .ok (t, x') ∧ P l x' := by
    intro t x n l _ _ _ hP
    have hnodup : (x ++ n :: l).Nodup := hP ▸ List.nodup_range
    have hnot : n ∉ x := fun hmem =>
      (List.nodup_append.mp hnodup).2.2 n hmem n List.mem_cons_self rfl
    refine ⟨x ++ [n], if_neg hnot, ?_⟩
    exact (List.append_cons x n l).symm.trans hP
  obtain ⟨table, freed, hfini, hend⟩ := HashTable_Fini_spec (P := P) hvisit h.table
    (show P _ prop.freed by rw [h.unfreed]; exact List.nil_append _)
  refine ⟨{ prop with table, freed }, ?_, (List.append_nil freed).symm.trans hend⟩
  rw [Properties_Fini, hfini]
  rfl

/-- The properties are a multimap: each call returns, and it answers what the puts before it
say, in the strings of the pool, when no memory is refused; each entry is freed once in
the end. -/
theorem properties_refine_multimap (a : Allocator) (pool : StringPool) (heap : Heap)
    (calls : List Call) (hpool : pool.Interned) :
    ∃ answers prop prop', runAll a (Properties_Init pool heap) calls = .ok (answers, prop) ∧
      (Succeeded prop.heap →
        answers.map (Answer.map prop.pool.str) = allOnPuts [] calls) ∧
      Properties_Fini prop = .ok prop' ∧ prop'.freed = List.range prop.entries.length := by
  obtain ⟨answers, prop, puts, hrun, hrep, -, hanswers⟩ :=
    (rep_init hpool heap).runAll a calls
  obtain ⟨prop', hfini, hfreed⟩ := hrep.fini
  exact ⟨answers, prop, prop', hrun, fun hs => answers_text (hanswers hs).2, hfini, hfreed⟩

/-- An allocator that refuses only what it must. -/
def generous : Allocator := ⟨fun _ size => size < 2 ^ 63, fun _ _ h => of_decide_eq_true h⟩

def dot : CString := .ofData [46]

def slash : CString := .ofData [47]

/-- Two directories are put under one key. -/
def two_puts : List Call := [.put slash dot, .put slash slash, .getOne slash, .get slash, .get dot]

theorem properties_refine_multimap_two :
    ∃ answers prop prop', runAll generous (Properties_Init AtomString_Init []) two_puts =
        .ok (answers, prop) ∧
      (Succeeded prop.heap → answers.map (Answer.map prop.pool.str) = allOnPuts [] two_puts) ∧
      Properties_Fini prop = .ok prop' ∧ prop'.freed = List.range prop.entries.length :=
  properties_refine_multimap generous AtomString_Init [] two_puts interned_init

example : allOnPuts [] two_puts = [.code 0, .code 0, .one (some dot),
    .all (some [some dot, some slash]), .all none] := by decide

end koala.properties
