import Koala.AtomString

open koala.atomstring koala.hashtable koala.hashtable.Buckets

namespace koala.strings

set_option linter.style.nameCheck false

/-- Where the characters of a string are: behind the object or in an atom. -/
inductive Chars where
  | data (chars : List UInt8)
  | atom (e : Nat)

structure StringObject where
  ob_refcnt : Int
  str : Chars
  len : Nat
  freed : Bool

/-- The string objects at their addresses, the cache that links some of them, and the atoms. -/
structure State where
  objs : List StringObject
  strobj_cache : HashTable Nat
  pool : StringPool

def Chars.text (pool : StringPool) : Chars → CString
  | .data chars => .ofData chars
  | .atom e => pool.str e

/-- The string at `str` of an object. -/
def State.str (st : State) (ob : Nat) : CString :=
  st.objs[ob]?.elim (.ofData []) fun sob => sob.str.text st.pool

/-- An object that is not freed. -/
def State.sob (st : State) (ob : Nat) : Res StringObject :=
  match st.objs[ob]? with
  | none => .error .bounds
  | some sob => if sob.freed then .error .bounds else .ok sob

def State.set (st : State) (ob : Nat) (sob : StringObject) : State :=
  { st with objs := st.objs.set ob sob }

def Init_String_Klass : State := ⟨[], HashTable_Init, AtomString_Init⟩

def __find_strobj (st : State) (str : CString) : Res (Option Nat) :=
  walked (HashTable_Find st.str hash_string sameKey st.strobj_cache str)

def __add_strobj (st : State) (ob : Nat) : Res State := do
  let (_, cache) ← walked (HashTable_Insert st.str hash_string sameKey st.strobj_cache ob)
  .ok { st with strobj_cache := cache }

def __remove_strobj (st : State) (ob : Nat) : Res State := do
  let (_, cache) ← walked (HashTable_Remove st.str sameKey st.strobj_cache ob)
  .ok { st with strobj_cache := cache }

def OB_INCREF (st : State) (ob : Nat) : Res State := do
  let sob ← st.sob ob
  .ok (st.set ob { sob with ob_refcnt := sob.ob_refcnt + 1 })

/-- The characters of a new string are those of the atom, if there is one. -/
def String_New (st : State) (str : CString) : Res (Nat × State) := do
  match ← __find_strobj st str with
  | some ob =>
    let st ← OB_INCREF st ob
    .ok (ob, st)
  | none =>
    let atom ← AtomString_Find st.pool str
    let chars := atom.elim (.data (str.bytes ++ [0])) .atom
    let ob := st.objs.length
    let sob : StringObject := ⟨1, chars, str.bytes.length, false⟩
    let st ← __add_strobj { st with objs := st.objs ++ [sob] } ob
    .ok (ob, st)

def String_Free (st : State) (ob : Nat) : Res State := do
  let st ← __remove_strobj st ob
  let sob ← st.sob ob
  .ok (st.set ob { sob with freed := true })

def OB_DECREF (st : State) (ob : Nat) : Res State := do
  let sob ← st.sob ob
  let n := sob.ob_refcnt - 1
  let st := st.set ob { sob with ob_refcnt := n }
  if n ≠ 0 then
    if n > 0 then .ok st else .error .assertion
  else String_Free st ob

/-- The calls on strings. -/
inductive Call where
  | String_New (str : CString)
  | OB_INCREF (ob : Nat)
  | OB_DECREF (ob : Nat)
  | AtomString_New (str : CString)

/-- What a call returns. -/
def Call.run (st : State) : Call → Res (Option Nat × State)
  | .String_New str => do
    let (ob, st) ← strings.String_New st str
    .ok (some ob, st)
  | .OB_INCREF ob => do
    let st ← strings.OB_INCREF st ob
    .ok (none, st)
  | .OB_DECREF ob => do
    let st ← strings.OB_DECREF st ob
    .ok (none, st)
  | .AtomString_New str => do
    let (_, pool) ← atomstring.AtomString_New st.pool str
    .ok (none, { st with pool })

/-- The references that the caller owns, and the strings that were returned for texts. -/
structure History where
  owned : List Nat
  made : List (Nat × CString)

/-- A call takes a reference that is owned. -/
def Call.Allowed (owned : List Nat) : Call → Prop
  | .OB_INCREF ob | .OB_DECREF ob => ob ∈ owned
  | _ => True

def History.record (hist : History) : Call → Option Nat → History
  | .String_New str, some ob => ⟨ob :: hist.owned, (ob, str) :: hist.made⟩
  | .OB_INCREF ob, _ => { hist with owned := ob :: hist.owned }
  | .OB_DECREF ob, _ => { hist with owned := hist.owned.erase ob }
  | _, _ => hist

/-- Any calls, from the start. -/
inductive Run : State → History → Prop where
  | init : Run Init_String_Klass ⟨[], []⟩
  | call {st st' : State} {hist : History} {call : Call} {ret : Option Nat} (h : Run st hist)
    (hallowed : call.Allowed hist.owned) (hcall : call.run st = .ok (ret, st')) :
    Run st' (hist.record call ret)

def State.Live (st : State) (ob : Nat) : Prop :=
  ∃ sob, st.objs[ob]? = some sob ∧ sob.freed = false

/-- Strings are interned. -/
structure Interned (st : State) (hist : History) : Prop where
  same : ∀ ob₁ str₁ ob₂ str₂, (ob₁, str₁) ∈ hist.made → (ob₂, str₂) ∈ hist.made →
    st.Live ob₁ → st.Live ob₂ → (ob₁ = ob₂ ↔ str₁ = str₂)
  counted : ∀ (ob : Nat) (sob : StringObject), st.objs[ob]? = some sob → sob.freed = false →
    sob.ob_refcnt = hist.owned.count ob
  live : ∀ ob, st.Live ob ↔ ob ∈ hist.owned
  text : ∀ ob str, (ob, str) ∈ hist.made → st.Live ob → st.str ob = str
  known : ∀ ob, st.Live ob → ∃ str, (ob, str) ∈ hist.made
  cache : ∃ l, HashTable_Visit st.strobj_cache = some l ∧ l.Nodup ∧ ∀ ob, ob ∈ l ↔ st.Live ob
  returns : ∀ call : Call, call.Allowed hist.owned → ∃ ret st', call.run st = .ok (ret, st')

/-- What holds in every state. -/
structure Inv (st : State) (hist : History) : Prop where
  pool : st.pool.Interned
  atoms : ∀ {ob : Nat} {sob : StringObject} {e : Nat}, st.objs[ob]? = some sob →
    sob.str = .atom e → e < st.pool.entries.length
  cache : ∃ l, MapRep st.str hash_string sameKey st.strobj_cache l ∧ ∀ ob, ob ∈ l ↔ st.Live ob
  counted : ∀ {ob : Nat} {sob : StringObject}, st.objs[ob]? = some sob →
    sob.ob_refcnt = hist.owned.count ob
  live : ∀ {ob : Nat}, st.Live ob ↔ ob ∈ hist.owned
  text : ∀ {ob : Nat} {str : CString}, (ob, str) ∈ hist.made →
    ob < st.objs.length ∧ st.str ob = str
  known : ∀ {ob : Nat}, st.Live ob → ∃ str, (ob, str) ∈ hist.made

theorem inv_init : Inv Init_String_Klass ⟨[], []⟩ where
  pool := interned_init
  atoms h := by simp [Init_String_Klass] at h
  cache := ⟨[], ⟨Buckets.init, rep_init, rfl, ordered_map.distinct_nil⟩, by
    simp [State.Live, Init_String_Klass]⟩
  counted h := by simp [Init_String_Klass] at h
  live := by simp [State.Live, Init_String_Klass]
  text h := nomatch h
  known h := by simp [State.Live, Init_String_Klass] at h

section steps

variable {st st' : State} {hist : History} {ob : Nat} {sob sob' : StringObject}

theorem sob_live (h : st.objs[ob]? = some sob) (hfreed : sob.freed = false) :
    st.sob ob = .ok sob := by
  simp [State.sob, h, hfreed]

/-- An object that keeps its characters keeps its text. -/
theorem str_set (h : st.objs[ob]? = some sob) (hstr : sob'.str = sob.str) :
    (st.set ob sob').str = st.str := by
  funext o
  simp only [State.str, State.set]
  by_cases ho : ob = o
  · subst ho
    have hlt := (List.getElem?_eq_some_iff.mp h).1
    rw [List.getElem?_set_self hlt, h, Option.elim_some, Option.elim_some, hstr]
  · rw [List.getElem?_set_ne ho]

theorem getElem?_set_cases {o : Nat} {s : StringObject}
    (h : (st.set ob sob').objs[o]? = some s) : o = ob ∧ s = sob' ∨ o ≠ ob ∧ st.objs[o]? = some s := by
  simp only [State.set, List.getElem?_set] at h
  split at h
  · next heq =>
    split at h
    · cases h
      exact Or.inl ⟨heq.symm, rfl⟩
    · cases h
  · next hne => exact Or.inr ⟨fun heq => hne heq.symm, h⟩

theorem live_set (h : st.objs[ob]? = some sob) (o : Nat) :
    (st.set ob sob').Live o ↔ o = ob ∧ sob'.freed = false ∨ o ≠ ob ∧ st.Live o := by
  have hlt := (List.getElem?_eq_some_iff.mp h).1
  constructor
  · rintro ⟨s, hs, hfreed⟩
    rcases getElem?_set_cases hs with ⟨rfl, rfl⟩ | ⟨hne, hs⟩
    · exact Or.inl ⟨rfl, hfreed⟩
    · exact Or.inr ⟨hne, s, hs, hfreed⟩
  · rintro (⟨rfl, hfreed⟩ | ⟨hne, s, hs, hfreed⟩)
    · exact ⟨sob', List.getElem?_set_self hlt, hfreed⟩
    · refine ⟨s, ?_, hfreed⟩
      rw [State.set, List.getElem?_set_ne hne.symm, hs]

/-- The count of an object that stays changes with the references to it. -/
theorem Inv.count (h : Inv st hist) (hob : st.objs[ob]? = some sob) (hfreed : sob.freed = false)
    {n : Int} {owned : List Nat} (hn : n = owned.count ob) (hmem : ob ∈ owned)
    (hother : ∀ o, o ≠ ob → owned.count o = hist.owned.count o) :
    Inv (st.set ob { sob with ob_refcnt := n }) { hist with owned } := by
  have hstr : (st.set ob { sob with ob_refcnt := n }).str = st.str := str_set hob rfl
  have hlive : ∀ o, (st.set ob { sob with ob_refcnt := n }).Live o ↔ st.Live o := by
    intro o
    rw [live_set hob]
    constructor
    · rintro (⟨rfl, _⟩ | ⟨_, hlive⟩)
      · exact ⟨sob, hob, hfreed⟩
      · exact hlive
    · intro hlive
      by_cases ho : o = ob
      · exact Or.inl ⟨ho, hfreed⟩
      · exact Or.inr ⟨ho, hlive⟩
  refine ⟨h.pool, fun hs hatom => ?_, ?_, fun hs => ?_, ?_, fun hmade => ?_, fun hlive' => ?_⟩
  · rcases getElem?_set_cases hs with ⟨_, rfl⟩ | ⟨_, hs⟩
    · exact h.atoms hob hatom
    · exact h.atoms hs hatom
  · obtain ⟨l, hrep, hl⟩ := h.cache
    exact ⟨l, hstr ▸ hrep, fun o => (hl o).trans (hlive o).symm⟩
  · rcases getElem?_set_cases hs with ⟨rfl, rfl⟩ | ⟨hne, hs⟩
    · exact hn
    · rw [h.counted hs, hother _ hne]
  · intro o
    rw [hlive, h.live]
    by_cases ho : o = ob
    · subst ho
      exact iff_of_true (h.live.mp ⟨sob, hob, hfreed⟩) hmem
    · rw [← List.count_pos_iff, ← List.count_pos_iff, hother o ho]
  · obtain ⟨hlt, htext⟩ := h.text hmade
    refine ⟨?_, by rw [hstr, htext]⟩
    rw [State.set, List.length_set]
    exact hlt
  · exact h.known ((hlive _).mp hlive')

/-- One more reference to an object. -/
theorem Inv.incref (h : Inv st hist) (hlive : st.Live ob) :
    ∃ st', OB_INCREF st ob = .ok st' ∧ st'.str = st.str ∧
      Inv st' { hist with owned := ob :: hist.owned } := by
  obtain ⟨sob, hob, hfreed⟩ := hlive
  refine ⟨st.set ob { sob with ob_refcnt := sob.ob_refcnt + 1 }, ?_, str_set hob rfl, ?_⟩
  · rw [OB_INCREF, sob_live hob hfreed]
    rfl
  · refine h.count hob hfreed ?_ List.mem_cons_self fun o ho => List.count_cons_of_ne (Ne.symm ho)
    rw [h.counted hob, List.count_cons_self]
    rfl

/-- The last reference to an object frees it, and it leaves the cache. -/
theorem Inv.free (h : Inv st hist) (hob : st.objs[ob]? = some sob) (hfreed : sob.freed = false)
    (hone : hist.owned.count ob = 1) :
    ∃ st', String_Free (st.set ob { sob with ob_refcnt := 0 }) ob = .ok st' ∧
      Inv st' { hist with owned := hist.owned.erase ob } := by
  have hlt := (List.getElem?_eq_some_iff.mp hob).1
  obtain ⟨l, hrep, hl⟩ := h.cache
  have hin : ob ∈ l := (hl ob).mpr ⟨sob, hob, hfreed⟩
  obtain ⟨r, cache, hremove, _, hrep'⟩ :=
    mapRep_remove sameKey_equivalence (sameKey_hash _) hrep ob
  rw [mapStep, if_pos hin] at hrep'
  let gone : StringObject := { sob with ob_refcnt := 0, freed := true }
  let st' : State := { st.set ob gone with strobj_cache := cache }
  have hstr : st'.str = st.str := str_set hob rfl
  have hlive : ∀ o, st'.Live o ↔ o ≠ ob ∧ st.Live o := by
    intro o
    refine (live_set hob o).trans ⟨?_, Or.inr⟩
    rintro (⟨_, hfalse⟩ | hlive)
    · cases hfalse
    · exact hlive
  have hzero : (hist.owned.erase ob).count ob = 0 := by
    rw [List.count_erase_self, hone]
  refine ⟨st', ?_, h.pool, fun hs hatom => ?_, ?_, fun hs => ?_, ?_, fun hmade => ?_,
    fun hlive' => ?_⟩
  · let dead : StringObject := { sob with ob_refcnt := 0 }
    let st₀ : State := st.set ob dead
    let st₁ : State := { st₀ with strobj_cache := cache }
    have hstr₀ : st₀.str = st.str := str_set hob rfl
    have hgone : __remove_strobj st₀ ob = .ok st₁ := by
      rw [__remove_strobj, hstr₀,
        show HashTable_Remove st.str sameKey st₀.strobj_cache ob = some (r, cache) from hremove]
      rfl
    have hsob : st₁.sob ob = .ok dead := sob_live (List.getElem?_set_self hlt) hfreed
    change String_Free st₀ ob = .ok st'
    rw [String_Free, hgone, ok_bind, hsob, ok_bind]
    simp only [State.set, st₁, st₀, dead, st', gone, List.set_set]
  · rcases getElem?_set_cases hs with ⟨_, rfl⟩ | ⟨_, hs⟩
    · exact h.atoms hob hatom
    · exact h.atoms hs hatom
  · refine ⟨l.erase ob, hstr ▸ hrep', fun o => ?_⟩
    rw [hrep.linked.nodup.mem_erase_iff, hl, hlive]
  · rcases getElem?_set_cases hs with ⟨rfl, rfl⟩ | ⟨hne, hs⟩
    · exact congrArg Nat.cast hzero.symm
    · rw [h.counted hs, List.count_erase_of_ne hne]
  · intro o
    rw [hlive, h.live]
    by_cases ho : o = ob
    · subst ho
      refine iff_of_false (fun hne => hne.1 rfl) ?_
      exact List.count_eq_zero.mp hzero
    · exact ⟨fun hmem => (List.mem_erase_of_ne ho).mpr hmem.2,
        fun hmem => ⟨ho, (List.mem_erase_of_ne ho).mp hmem⟩⟩
  · obtain ⟨hmade, htext⟩ := h.text hmade
    refine ⟨?_, by rw [hstr, htext]⟩
    simp only [st', State.set, List.length_set]
    exact hmade
  · exact h.known ((hlive _).mp hlive').2

/-- One reference less. -/
theorem Inv.decref (h : Inv st hist) (hmem : ob ∈ hist.owned) :
    ∃ st', OB_DECREF st ob = .ok st' ∧ Inv st' { hist with owned := hist.owned.erase ob } := by
  obtain ⟨sob, hob, hfreed⟩ := h.live.mpr hmem
  have hcount := h.counted hob
  have hpos := List.count_pos_iff.mpr hmem
  simp only [OB_DECREF, sob_live hob hfreed, ok_bind]
  by_cases hone : hist.owned.count ob = 1
  · have hzero : sob.ob_refcnt - 1 = 0 := by omega
    rw [hzero, if_neg (not_not.mpr rfl)]
    exact h.free hob hfreed hone
  · have hne : sob.ob_refcnt - 1 ≠ 0 := by omega
    have hgt : sob.ob_refcnt - 1 > 0 := by omega
    rw [if_pos hne, if_pos hgt]
    refine ⟨_, rfl, h.count hob hfreed ?_ ?_ fun o ho => List.count_erase_of_ne ho⟩
    · rw [List.count_erase_self]
      omega
    · rw [← List.count_pos_iff, List.count_erase_self]
      omega

/-- A text is found where a live string has it. -/
theorem Inv.find (h : Inv st hist) (str : CString) :
    ∃ found, __find_strobj st str = .ok found ∧
      (∀ ob, found = some ob → st.Live ob ∧ st.str ob = str) ∧
      (found = none → ∀ ob, st.Live ob → st.str ob ≠ str) := by
  obtain ⟨l, hrep, hl⟩ := h.cache
  refine ⟨_, congrArg walked (mapRep_find sameKey_equivalence (sameKey_hash _) hrep str), ?_, ?_⟩
  · intro ob hfound
    obtain ⟨hmem, hkey⟩ := ordered_map.find_eq_some hfound
    exact ⟨(hl ob).mp hmem, of_decide_eq_true hkey⟩
  · intro hfound ob hlive
    exact of_decide_eq_false (ordered_map.find_eq_none_iff.mp hfound ob ((hl ob).mpr hlive))

theorem lt_of_live (h : st.Live ob) : ob < st.objs.length := by
  obtain ⟨sob, hob, _⟩ := h
  exact (List.getElem?_eq_some_iff.mp hob).1

/-- A live string was returned for its text. -/
theorem Inv.record (h : Inv st hist) (hlive : st.Live ob) {str : CString} (hstr : st.str ob = str) :
    Inv st { hist with made := (ob, str) :: hist.made } := by
  refine ⟨h.pool, h.atoms, h.cache, h.counted, h.live, fun hmade => ?_, fun hlive' => ?_⟩
  · rcases List.mem_cons.mp hmade with heq | hold
    · cases heq
      exact ⟨lt_of_live hlive, hstr⟩
    · exact h.text hold
  · obtain ⟨str', hmade⟩ := h.known hlive'
    exact ⟨str', List.mem_cons_of_mem _ hmade⟩

/-- A string that was not in the cache. -/
theorem Inv.new (h : Inv st hist) {str : CString} (hnone : ∀ ob, st.Live ob → st.str ob ≠ str)
    {chars : Chars} (hchars : chars.text st.pool = str)
    (hatom : ∀ e, chars = .atom e → e < st.pool.entries.length) :
    ∃ st', __add_strobj { st with objs := st.objs ++ [⟨1, chars, str.bytes.length, false⟩] }
        st.objs.length = .ok st' ∧
      Inv st' ⟨st.objs.length :: hist.owned, (st.objs.length, str) :: hist.made⟩ := by
  let ob := st.objs.length
  let sob : StringObject := ⟨1, chars, str.bytes.length, false⟩
  let grown : State := { st with objs := st.objs ++ [sob] }
  have hget : ∀ {o : Nat} {s : StringObject}, grown.objs[o]? = some s →
      o = ob ∧ s = sob ∨ o ≠ ob ∧ st.objs[o]? = some s := by
    intro o s hs
    have hlt := (List.getElem?_eq_some_iff.mp hs).1
    rw [List.length_append, List.length_singleton] at hlt
    rcases Nat.lt_succ_iff_lt_or_eq.mp hlt with hold | rfl
    · rw [List.getElem?_append_left hold] at hs
      exact Or.inr ⟨Nat.ne_of_lt hold, hs⟩
    · rw [List.getElem?_concat_length] at hs
      exact Or.inl ⟨rfl, (Option.some.inj hs).symm⟩
  have hold : ∀ {o : Nat}, o < ob → grown.str o = st.str o := by
    intro o ho
    rw [State.str, State.str, List.getElem?_append_left ho]
  have hself : grown.str ob = str := by
    rw [State.str, List.getElem?_concat_length]
    exact hchars
  have hlive : ∀ o, grown.Live o ↔ o = ob ∨ st.Live o := by
    intro o
    constructor
    · rintro ⟨s, hs, hfreed⟩
      rcases hget hs with ⟨ho, _⟩ | ⟨_, hs⟩
      · exact Or.inl ho
      · exact Or.inr ⟨s, hs, hfreed⟩
    · rintro (rfl | ⟨s, hs, hfreed⟩)
      · exact ⟨sob, List.getElem?_concat_length, rfl⟩
      · refine ⟨s, ?_, hfreed⟩
        rw [List.getElem?_append_left (List.getElem?_eq_some_iff.mp hs).1, hs]
  have hnot : ob ∉ hist.owned := fun hmem => Nat.lt_irrefl _ (lt_of_live (h.live.mpr hmem))
  obtain ⟨l, hrep, hl⟩ := h.cache
  have hltl : ∀ o ∈ l, o < ob := fun o ho => lt_of_live ((hl o).mp ho)
  obtain ⟨r, cache, hinsert, _, hrep'⟩ := mapRep_insert sameKey_equivalence (sameKey_hash _)
    (hrep.congr fun o ho => hold (hltl o ho)) ob
  have hfresh : ¬ (ob ∈ l ∨ (ordered_map.find grown.str sameKey l (grown.str ob)).isSome) := by
    rintro (hmem | hfound)
    · exact Nat.lt_irrefl _ (hltl ob hmem)
    · obtain ⟨o, hfound⟩ := Option.isSome_iff_exists.mp hfound
      obtain ⟨hmem, hkey⟩ := ordered_map.find_eq_some hfound
      have htext : grown.str o = grown.str ob := of_decide_eq_true hkey
      rw [hold (hltl o hmem), hself] at htext
      exact hnone o ((hl o).mp hmem) htext
  rw [mapStep, if_neg hfresh] at hrep'
  refine ⟨{ grown with strobj_cache := cache }, ?_, h.pool, fun hs hchars => ?_, ?_, fun hs => ?_,
    ?_, fun hmade => ?_, fun hlive' => ?_⟩
  · change __add_strobj grown ob = _
    rw [__add_strobj, show HashTable_Insert grown.str hash_string sameKey grown.strobj_cache ob =
      some (r, cache) from hinsert]
    rfl
  · rcases hget hs with ⟨_, rfl⟩ | ⟨_, hs⟩
    · exact hatom _ hchars
    · exact h.atoms hs hchars
  · refine ⟨l ++ [ob], hrep', fun o => ?_⟩
    rw [List.mem_append, List.mem_singleton, hl, or_comm]
    exact (hlive o).symm
  · rcases hget hs with ⟨rfl, rfl⟩ | ⟨hne, hs⟩
    · rw [List.count_cons_self, List.count_eq_zero.mpr hnot]
      rfl
    · rw [h.counted hs]
      exact congrArg Nat.cast (List.count_cons_of_ne hne.symm).symm
  · intro o
    rw [List.mem_cons, ← h.live]
    exact hlive o
  · rcases List.mem_cons.mp hmade with heq | hmade
    · cases heq
      exact ⟨List.length_append ▸ Nat.lt_succ_self _, hself⟩
    · obtain ⟨hlt, htext⟩ := h.text hmade
      refine ⟨Nat.lt_of_lt_of_le hlt (List.length_append ▸ Nat.le_add_right _ _), ?_⟩
      rw [← htext]
      exact hold hlt
  · rcases (hlive _).mp hlive' with rfl | hlive'
    · exact ⟨str, List.mem_cons_self⟩
    · obtain ⟨str', hmade⟩ := h.known hlive'
      exact ⟨str', List.mem_cons_of_mem _ hmade⟩

/-- A string is returned for a text, with a reference. -/
theorem Inv.String_New (h : Inv st hist) (str : CString) :
    ∃ ob st', String_New st str = .ok (ob, st') ∧
      Inv st' ⟨ob :: hist.owned, (ob, str) :: hist.made⟩ := by
  obtain ⟨found, hfind, hsome, hnone⟩ := h.find str
  cases found with
  | some ob =>
    obtain ⟨hlive, hstr⟩ := hsome ob rfl
    obtain ⟨st', hincref, hstr', hinv⟩ := h.incref hlive
    refine ⟨ob, st', ?_, hinv.record (hinv.live.mpr List.mem_cons_self) (hstr' ▸ hstr)⟩
    rw [strings.String_New, hfind, ok_bind]
    simp only [hincref, ok_bind]
  | none =>
    obtain ⟨atom, hatom, hentry, _⟩ := h.pool.find str
    have hchars : (atom.elim (Chars.data (str.bytes ++ [0])) .atom).text st.pool = str := by
      cases atom with
      | none => exact CString.ofData_append_nul str []
      | some e => exact (hentry e rfl).2
    have hin : ∀ e, atom.elim (Chars.data (str.bytes ++ [0])) .atom = .atom e →
        e < st.pool.entries.length := by
      intro e he
      cases atom with
      | none => cases he
      | some e' =>
        cases he
        exact (hentry e rfl).1
    obtain ⟨st', hadd, hinv⟩ := h.new (hnone rfl) hchars hin
    refine ⟨st.objs.length, st', ?_, hinv⟩
    rw [strings.String_New, hfind, ok_bind]
    simp only [hatom, ok_bind, hadd]

/-- An atom leaves the strings as they are. -/
theorem Inv.AtomString_New (h : Inv st hist) (str : CString) :
    ∃ e pool, atomstring.AtomString_New st.pool str = .ok (e, pool) ∧
      Inv { st with pool } hist := by
  obtain ⟨e, pool, hnew, hpool, hext, _⟩ := h.pool.new str
  have hstr : ∀ ob, ({ st with pool } : State).str ob = st.str ob := by
    intro ob
    rw [State.str, State.str]
    cases hob : st.objs[ob]? with
    | none => rfl
    | some sob =>
      rw [Option.elim_some, Option.elim_some]
      cases hchars : sob.str with
      | data chars => rfl
      | atom e => exact str_extended hext (h.atoms hob hchars)
  obtain ⟨l, hrep, hl⟩ := h.cache
  refine ⟨e, pool, hnew, hpool, fun hob hatom => ?_, ⟨l, hrep.congr fun ob _ => hstr ob, hl⟩,
    h.counted, h.live, fun hmade => ?_, h.known⟩
  · exact Nat.lt_of_lt_of_le (h.atoms hob hatom) hext.length_le
  · obtain ⟨hlt, htext⟩ := h.text hmade
    exact ⟨hlt, (hstr _).trans htext⟩

/-- Each call returns, and keeps what holds. -/
theorem Inv.run (h : Inv st hist) {call : Call} (hallowed : call.Allowed hist.owned) :
    ∃ ret st', call.run st = .ok (ret, st') ∧ Inv st' (hist.record call ret) := by
  cases call with
  | String_New str =>
    obtain ⟨ob, st', hnew, hinv⟩ := h.String_New str
    exact ⟨some ob, st', by simp only [Call.run, hnew, ok_bind], hinv⟩
  | OB_INCREF ob =>
    obtain ⟨st', hincref, _, hinv⟩ := h.incref (h.live.mpr hallowed)
    exact ⟨none, st', by simp only [Call.run, hincref, ok_bind], hinv⟩
  | OB_DECREF ob =>
    obtain ⟨st', hdecref, hinv⟩ := h.decref hallowed
    exact ⟨none, st', by simp only [Call.run, hdecref, ok_bind], hinv⟩
  | AtomString_New str =>
    obtain ⟨e, pool, hnew, hinv⟩ := h.AtomString_New str
    exact ⟨none, _, by simp only [Call.run, hnew, ok_bind], hinv⟩

end steps

section runs

variable {st : State} {hist : History}

theorem Run.inv (h : Run st hist) : Inv st hist := by
  induction h with
  | init => exact inv_init
  | call _ hallowed hcall ih =>
    obtain ⟨ret, st', hrun, hinv⟩ := ih.run hallowed
    cases hrun.symm.trans hcall
    exact hinv

/-- Strings of one text are one object while they live. -/
theorem Inv.same (h : Inv st hist) {ob₁ ob₂ : Nat} (hlive₁ : st.Live ob₁) (hlive₂ : st.Live ob₂)
    (hstr : st.str ob₁ = st.str ob₂) : ob₁ = ob₂ := by
  obtain ⟨l, ⟨b, _, _, hdistinct⟩, hl⟩ := h.cache
  exact hdistinct ob₁ ((hl ob₁).mpr hlive₁) ob₂ ((hl ob₂).mpr hlive₂) (decide_eq_true hstr)

theorem Run.String_New (h : Run st hist) (str : CString) :
    ∃ ob st', Run st' ⟨ob :: hist.owned, (ob, str) :: hist.made⟩ := by
  obtain ⟨ob, st', hnew, _⟩ := h.inv.String_New str
  have hrun : (Call.String_New str).run st = .ok (some ob, st') := by
    simp only [Call.run, hnew, ok_bind]
  exact ⟨ob, st', @Run.call _ _ _ (.String_New str) _ h trivial hrun⟩

end runs

end koala.strings
