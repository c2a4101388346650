import Koala.Basic
import Koala.Holders
import Mathlib.Data.Finset.Card
import Mathlib.Data.Finset.Range
import Mathlib.Data.List.ReduceOption

open holders

namespace koala.memory

set_option linter.style.nameCheck false

/-- The classes of objects: tuples, objects with fields, and those that hold no others. -/
inductive Klass where
  | Tuple
  | Object
  | Leaf
  deriving DecidableEq

/-- An object with its slots: the items of a tuple, or the values of fields. -/
structure Object where
  ob_refcnt : Int
  ob_klass : Klass
  avail : Nat
  slots : List (Option Nat)
  freed : Bool

/-- The objects at their addresses. The ghost field `released` lists the slots that were released
when their objects were freed. -/
structure State where
  objs : List Object
  released : List (Nat × Nat)

def State.set (st : State) (ob : Nat) (o : Object) : State :=
  { st with objs := st.objs.set ob o }

def State.log (st : State) (ob i : Nat) (val : Option Nat) : State :=
  if val.isSome then { st with released := st.released ++ [(ob, i)] } else st

/-- An object that is not freed. -/
def State.ob (st : State) (ob : Nat) : Res Object :=
  match st.objs[ob]? with
  | none => .error .bounds
  | some o => if o.freed then .error .bounds else .ok o

def GCfree (st : State) (ob : Nat) : Res State := do
  let o ← st.ob ob
  .ok (st.set ob { o with freed := true })

/-- The loop of `Tuple_Free` and of `object_free` over the slots from `i` on. -/
def free_slots (decref : State → Option Nat → Res State) (ob : Nat) : Nat → Nat → State → Res State
  | _, 0, st => .ok st
  | i, size + 1, st => do
    let o ← st.ob ob
    let val := o.slots[i]?.join
    let st ← decref (st.log ob i val) val
    free_slots decref ob (i + 1) size st

/-- `Tuple_Free` and `object_free`. Other objects have no slots. -/
def ob_free (decref : State → Option Nat → Res State) (st : State) (ob : Nat) : Res State := do
  let o ← st.ob ob
  let st ← free_slots decref ob 0 o.slots.length st
  GCfree st ob

/-- `OB_DECREF`, that calls itself at most `fuel` times. -/
def decref : Nat → State → Option Nat → Res State
  | _, st, none => .ok st
  | 0, _, some _ => .error .fuel
  | fuel + 1, st, some ob => do
    let o ← st.ob ob
    let n := o.ob_refcnt - 1
    let st := st.set ob { o with ob_refcnt := n }
    if n ≠ 0 then
      if n > 0 then .ok st else .error .assertion
    else ob_free (decref fuel) st ob

/-- No object is freed twice, so there are not more calls than objects. -/
def OB_DECREF (st : State) (ob : Option Nat) : Res State := decref (st.objs.length + 1) st ob

def OB_INCREF (st : State) (ob : Option Nat) : Res State :=
  match ob with
  | none => .error .null
  | some ob => do
    let o ← st.ob ob
    .ok (st.set ob { o with ob_refcnt := o.ob_refcnt + 1 })

/-- The old item is released first. -/
def __Tuple_Set (st : State) (tuple index : Nat) (val : Option Nat) : Res (Int × State) := do
  let o ← st.ob tuple
  if index < o.slots.length then
    let st ← OB_DECREF st o.slots[index]?.join
    let st ← OB_INCREF st val
    let o ← st.ob tuple
    .ok (0, st.set tuple { o with slots := o.slots.set index val })
  else .ok (-1, st)

def Tuple_Set (st : State) (ob index : Nat) (val : Option Nat) : Res (Int × State) := do
  let o ← st.ob ob
  if o.ob_klass = .Tuple then __Tuple_Set st ob index val else .error .assertion

def Tuple_Append (st : State) (ob : Nat) (val : Option Nat) : Res (Int × State) := do
  let o ← st.ob ob
  if o.ob_klass = .Tuple then
    __Tuple_Set (st.set ob { o with avail := o.avail + 1 }) ob o.avail val
  else .error .assertion

/-- `Set_Field` on the slot that the name stands for. The old value is released last. -/
def Set_Field (st : State) (ob index : Nat) (val : Option Nat) : Res State := do
  let o ← st.ob ob
  if index < o.slots.length then
    let old := o.slots[index]?.join
    let st := st.set ob { o with slots := o.slots.set index val }
    let st ← OB_INCREF st val
    OB_DECREF st old
  else .error .bounds

/-- A new object with empty slots, and a reference to it. -/
def Object_New (st : State) (klass : Klass) (size : Nat) : State :=
  { st with objs := st.objs ++ [⟨1, klass, 0, List.replicate size none, false⟩] }

section live

/-- The objects that are counted. -/
def State.live (st : State) : Finset Nat :=
  (Finset.range st.objs.length).filter fun a => st.objs[a]?.any (0 < ·.ob_refcnt)

variable {st st' : State} {a : Nat} {o : Object}

theorem mem_live : a ∈ st.live ↔ ∃ o, st.objs[a]? = some o ∧ 0 < o.ob_refcnt := by
  rw [State.live, Finset.mem_filter, Finset.mem_range, Option.any_eq_true]
  simp only [decide_eq_true_eq]
  refine ⟨fun h => h.2, fun h => ⟨?_, h⟩⟩
  obtain ⟨o, ho, _⟩ := h
  exact (List.getElem?_eq_some_iff.mp ho).1

theorem card_live_le (st : State) : st.live.card ≤ st.objs.length :=
  (Finset.card_filter_le _ _).trans (Finset.card_range _).le

/-- Objects that are counted are not freed. -/
def Unfreed (st : State) : Prop :=
  ∀ {a : Nat} {o : Object}, st.objs[a]? = some o → 0 < o.ob_refcnt → o.freed = false

theorem ob_ok (ha : st.objs[a]? = some o) (hfreed : o.freed = false) : st.ob a = .ok o := by
  simp [State.ob, ha, hfreed]

@[simp] theorem log_objs (st : State) (ob i : Nat) (val : Option Nat) :
    (st.log ob i val).objs = st.objs := by
  rw [State.log]
  split <;> rfl

theorem count_log (st : State) (ob i : Nat) (val : Option Nat) (p : Nat × Nat) :
    (st.log ob i val).released.count p =
      st.released.count p + if p = (ob, i) ∧ val.isSome then 1 else 0 := by
  rw [State.log]
  by_cases hval : val.isSome = true
  · have hone : List.count p [(ob, i)] = if p = (ob, i) then 1 else 0 := by
      rw [List.count_singleton]
      simp only [beq_iff_eq, eq_comm (a := p)]
    rw [if_pos hval, List.count_append, hone]
    simp only [hval, and_true]
  · rw [if_neg hval, if_neg fun h => hval h.2]
    rfl

end live

section effect

/-- A slot that is released because the count of its object gets to 0. -/
def died (before after : Int) (val : Option Nat) : Nat :=
  if 0 < before ∧ after ≤ 0 ∧ val.isSome then 1 else 0

theorem died_add {n₀ n₁ n₂ : Int} (hle : n₁ ≤ n₀) (hle' : n₂ ≤ n₁) (val : Option Nat) :
    died n₀ n₁ val + died n₁ n₂ val = died n₀ n₂ val := by
  unfold died
  by_cases hval : val.isSome = true
  · simp only [hval, and_true]
    split_ifs <;> omega
  · simp [hval]

theorem died_self (n : Int) (val : Option Nat) : died n n val = 0 :=
  if_neg fun h => Int.not_lt.mpr h.2.1 h.1

/-- What releases do: counts go down, and an object whose count gets to 0 is freed and its slots
are released once. `extra` counts the slots that were released besides. -/
structure Effect (extra : Nat → Nat → Nat) (st st' : State) : Prop where
  length : st'.objs.length = st.objs.length
  obj : ∀ {a : Nat} {o : Object}, st.objs[a]? = some o → ∃ o', st'.objs[a]? = some o' ∧
    o' = { o with ob_refcnt := o'.ob_refcnt, freed := o'.freed } ∧ o'.ob_refcnt ≤ o.ob_refcnt ∧
    (o.ob_refcnt ≤ 0 → o' = o) ∧ (0 < o.ob_refcnt → o'.freed = decide (o'.ob_refcnt ≤ 0))
  log : ∀ {a : Nat} {o o' : Object}, st.objs[a]? = some o → st'.objs[a]? = some o' →
    ∀ j, st'.released.count (a, j) = st.released.count (a, j) + extra a j +
      died o.ob_refcnt o'.ob_refcnt o.slots[j]?.join
  beyond : ∀ {a : Nat}, st.objs.length ≤ a →
    ∀ j, st'.released.count (a, j) = st.released.count (a, j) + extra a j

variable {extra extra' : Nat → Nat → Nat} {st st₁ st' : State} {a : Nat} {o : Object}

theorem Effect.slots (h : Effect extra st st') (ha : st.objs[a]? = some o) :
    ∃ o', st'.objs[a]? = some o' ∧ o'.slots = o.slots := by
  obtain ⟨o', ho', hsame, _⟩ := h.obj ha
  exact ⟨o', ho', by rw [hsame]⟩

theorem Effect.trans (h : Effect extra st st₁) (h' : Effect extra' st₁ st') :
    Effect (fun a j => extra a j + extra' a j) st st' := by
  refine ⟨h'.length.trans h.length, fun {a o} ha => ?_, fun {a o o'} ha ha' j => ?_,
    fun {a} ha j => ?_⟩
  · obtain ⟨o₁, ha₁, hsame, hle, hdead, hfreed⟩ := h.obj ha
    obtain ⟨o', ha', hsame', hle', hdead', hfreed'⟩ := h'.obj ha₁
    refine ⟨o', ha', by rw [hsame', hsame], by omega, fun hzero => ?_, fun hpos => ?_⟩
    · rw [hdead' (by omega), hdead hzero]
    · by_cases hpos₁ : 0 < o₁.ob_refcnt
      · exact hfreed' hpos₁
      · rw [hdead' (by omega)]
        exact hfreed hpos
  · obtain ⟨o₁, ha₁, hsame, hle, hdead, hfreed⟩ := h.obj ha
    obtain ⟨o₂, ha₂, _, hle', hdead', _⟩ := h'.obj ha₁
    cases ha₂.symm.trans ha'
    have hslots : o₁.slots = o.slots := by rw [hsame]
    rw [h'.log ha₁ ha' j, h.log ha ha₁ j, hslots]
    have hdied := died_add hle hle' o.slots[j]?.join
    omega
  · have hfirst := h.beyond ha j
    have hsecond := h'.beyond (h.length ▸ ha) j
    omega

theorem Effect.unfreed (h : Effect extra st st') : Unfreed st' := by
  intro a o' ha' hpos
  have hlt := (List.getElem?_eq_some_iff.mp ha').1
  rw [h.length] at hlt
  obtain ⟨o₁, ha₁, _, hle, _, hfreed⟩ := h.obj (List.getElem?_eq_getElem hlt)
  cases ha₁.symm.trans ha'
  rw [hfreed (by omega)]
  exact decide_eq_false (by omega)

theorem Effect.live (h : Effect extra st st') : st'.live ⊆ st.live := by
  intro a ha
  obtain ⟨o', ha', hpos⟩ := mem_live.mp ha
  have hlt := (List.getElem?_eq_some_iff.mp ha').1
  rw [h.length] at hlt
  obtain ⟨o₁, ha₁, _, hle, _⟩ := h.obj (List.getElem?_eq_getElem hlt)
  cases ha₁.symm.trans ha'
  exact mem_live.mpr ⟨_, List.getElem?_eq_getElem hlt, by omega⟩

theorem effect_refl (hunfreed : Unfreed st) : Effect (fun _ _ => 0) st st where
  length := rfl
  obj {a o} ha := by
    refine ⟨o, ha, rfl, Int.le_refl _, fun _ => rfl, fun hpos => ?_⟩
    rw [hunfreed ha hpos]
    exact (decide_eq_false (by omega)).symm
  log {a o o'} ha ha' j := by
    cases ha.symm.trans ha'
    rw [died_self]
    rfl
  beyond _ _ := rfl

theorem effect_count (ha : st.objs[a]? = some o) (hunfreed : Unfreed st) {n : Int} (hpos : 0 < n)
    (hle : n ≤ o.ob_refcnt) :
    Effect (fun _ _ => 0) st (st.set a { o with ob_refcnt := n }) := by
  have hrefl := effect_refl hunfreed
  have hlt := (List.getElem?_eq_some_iff.mp ha).1
  refine ⟨List.length_set, fun {b p} hb => ?_, fun {b p p'} hb hb' j => ?_, fun _ _ => rfl⟩
  · by_cases heq : b = a
    · subst heq
      cases ha.symm.trans hb
      refine ⟨_, List.getElem?_set_self hlt, rfl, hle, fun hzero => ?_, fun hpos' => ?_⟩
      · omega
      · dsimp only
        rw [hunfreed ha hpos']
        exact (decide_eq_false (by omega)).symm
    · rw [State.set, List.getElem?_set_ne (Ne.symm heq)]
      exact hrefl.obj hb
  · by_cases heq : b = a
    · subst heq
      cases ha.symm.trans hb
      cases (List.getElem?_set_self hlt).symm.trans hb'
      have hdied : died o.ob_refcnt n o.slots[j]?.join = 0 := if_neg fun h => by omega
      change st.released.count (b, j) = st.released.count (b, j) + 0 + died o.ob_refcnt n _
      rw [hdied]
      rfl
    · rw [State.set, List.getElem?_set_ne (Ne.symm heq)] at hb'
      exact hrefl.log hb hb' j

/-- A slot is noted as released. -/
theorem effect_log (hunfreed : Unfreed st) (ob i : Nat) (val : Option Nat) :
    Effect (fun a j => if (a, j) = (ob, i) ∧ val.isSome then 1 else 0) st (st.log ob i val) := by
  have hrefl := effect_refl hunfreed
  refine ⟨by rw [log_objs], fun ha => ?_, fun ha ha' j => ?_, fun _ j => count_log st ob i val _⟩
  · rw [log_objs]
    exact hrefl.obj ha
  · rw [log_objs] at ha'
    have hlog := hrefl.log ha ha' j
    rw [count_log]
    omega

/-- The last reference to an object is dropped, its slots are released and it is freed. -/
theorem Effect.free {n : Int} {st₀ st₁ : State} (ha : st.objs[a]? = some o)
    (hpos : 0 < o.ob_refcnt) (hst₀ : st₀ = st.set a { o with ob_refcnt := n }) (hzero : n = 0)
    (h : Effect (fun b j => if b = a ∧ (o.slots[j]?.join).isSome then 1 else 0) st₀ st₁) :
    Effect (fun _ _ => 0) st (st₁.set a { o with ob_refcnt := n, freed := true }) := by
  subst hst₀ hzero
  have hlt := (List.getElem?_eq_some_iff.mp ha).1
  have hlt₁ : a < st₁.objs.length := by
    rw [h.length, State.set, List.length_set]
    exact hlt
  refine ⟨?_, fun {b p} hb => ?_, fun {b p p'} hb hb' j => ?_, fun {b} hb j => ?_⟩
  · rw [State.set, List.length_set, h.length, State.set, List.length_set]
  · by_cases heq : b = a
    · subst heq
      cases ha.symm.trans hb
      refine ⟨_, List.getElem?_set_self hlt₁, rfl, Int.le_of_lt hpos, fun hle => ?_, fun _ => rfl⟩
      omega
    · have hb₀ : (st.set a { o with ob_refcnt := 0 }).objs[b]? = some p := by
        rw [State.set, List.getElem?_set_ne (Ne.symm heq), hb]
      obtain ⟨p', hp', hrest⟩ := h.obj hb₀
      refine ⟨p', ?_, hrest⟩
      rw [State.set, List.getElem?_set_ne (Ne.symm heq), hp']
  · by_cases heq : b = a
    · subst heq
      cases ha.symm.trans hb
      cases (List.getElem?_set_self hlt₁).symm.trans hb'
      have ha₀ : (st.set b { o with ob_refcnt := 0 }).objs[b]? = some { o with ob_refcnt := 0 } :=
        List.getElem?_set_self hlt
      obtain ⟨p₁, hp₁, _, _, hdead, _⟩ := h.obj ha₀
      cases hdead (Int.le_refl 0)
      have hlog := h.log ha₀ hp₁ j
      rw [died_self] at hlog
      simp only [true_and] at hlog
      have hdied : died o.ob_refcnt 0 o.slots[j]?.join =
          if (o.slots[j]?.join).isSome then 1 else 0 := by
        simp only [died, hpos, Int.le_refl, true_and]
      change st₁.released.count (b, j) = st.released.count (b, j) + 0 + died o.ob_refcnt 0 _
      rw [hdied, hlog]
      rfl
    · have hb₀ : (st.set a { o with ob_refcnt := 0 }).objs[b]? = some p := by
        rw [State.set, List.getElem?_set_ne (Ne.symm heq), hb]
      rw [State.set, List.getElem?_set_ne (Ne.symm heq)] at hb'
      have hlog := h.log hb₀ hb' j
      rw [if_neg fun h => heq h.1] at hlog
      exact hlog
  · have hbeyond := h.beyond (show (st.objs.set a _).length ≤ b by rwa [List.length_set]) j
    have hne : b ≠ a := by omega
    rw [if_neg fun h => hne h.1] at hbeyond
    exact hbeyond

end effect

section release

variable {S : Nat → Prop} {parts : Nat → Object → List Nat}

/-- How the slots of objects are seen: by their contents, and those outside of a set all of them. -/
structure View (S : Nat → Prop) (parts : Nat → Object → List Nat) : Prop where
  slots : ∀ {a : Nat} {o o' : Object}, o'.slots = o.slots → parts a o' = parts a o
  full : ∀ {a : Nat}, ¬ S a → ∀ o, parts a o = o.slots.reduceOption

abbrev Counted (parts : Nat → Object → List Nat) (outside : List Nat) (st : State) : Prop :=
  Balanced Object.ob_refcnt parts outside st.objs

abbrev Kept (S : Nat → Prop) (parts : Nat → Object → List Nat) (outside : List Nat) (st : State) :
    Prop := Supported Object.ob_refcnt parts S outside st.objs

variable {outside : List Nat} {st st' : State} {a : Nat} {o : Object}
  {extra : Nat → Nat → Nat}

/-- An object of the set is counted as long as the set is kept. -/
theorem Kept.effect (hview : View S parts) {outside' : List Nat} (hkept : Kept S parts outside st)
    (heffect : Effect extra st st') (hkept' : Kept S parts outside' st') :
    Kept S parts outside st' := by
  refine Supported.congr hkept (fun b hb => hb) fun b c hb hc => ?_
  obtain ⟨⟨c', hc', hpos⟩, _⟩ := hkept' b hb
  obtain ⟨c₁, hc₁, hslots⟩ := heffect.slots hc
  cases hc₁.symm.trans hc'
  exact ⟨c', hc', hpos, hview.slots hslots⟩

/-- What a release is to do. -/
def Releases (S : Nat → Prop) (parts : Nat → Object → List Nat) (outside : List Nat)
    (extra : Nat → Nat → Nat) (st : State) (r : Res State) : Prop :=
  ∃ st', r = .ok st' ∧ Counted parts outside st' ∧ Kept S parts outside st' ∧ Effect extra st st'

/-- The slots of a dying object are released one after the other. -/
theorem free_slots_spec (hview : View S parts) {decref : State → Option Nat → Res State}
    {fuel : Nat} (hnone : ∀ st, decref st none = .ok st)
    (hdecref : ∀ {st outside a}, Counted parts (a :: outside) st → Kept S parts outside st →
      Unfreed st → st.live.card < fuel →
      Releases S parts outside (fun _ _ => 0) st (decref st (some a)))
    (size : Nat) {i : Nat} {st : State} (ha : st.objs[a]? = some o) (hzero : o.ob_refcnt = 0)
    (hfreed : o.freed = false) (hsize : o.slots.length = i + size)
    (hbal : Counted parts ((o.slots.drop i).reduceOption ++ outside) st)
    (hkept : Kept S parts outside st) (hunfreed : Unfreed st) (hfuel : st.live.card < fuel) :
    Releases S parts outside
      (fun b j => if b = a ∧ i ≤ j ∧ (o.slots[j]?.join).isSome then 1 else 0) st
      (free_slots decref a i size st) := by
  induction size generalizing i st with
  | zero =>
    have hdrop : o.slots.drop i = [] := List.drop_eq_nil_of_le (by omega)
    rw [hdrop] at hbal
    refine ⟨st, rfl, hbal, hkept, ?_⟩
    have hnone : ∀ b j, (if b = a ∧ i ≤ j ∧ (o.slots[j]?.join).isSome then 1 else 0) = 0 := by
      intro b j
      refine if_neg fun h => ?_
      rw [List.getElem?_eq_none (by omega)] at h
      exact Bool.noConfusion h.2.2
    simp only [hnone]
    exact effect_refl hunfreed
  | succ size ih =>
    obtain ⟨val, hval⟩ : ∃ val, o.slots[i]? = some val := ⟨_, List.getElem?_eq_getElem (by omega)⟩
    have hdrop : o.slots.drop i = val :: o.slots.drop (i + 1) := by
      obtain ⟨hlt, hget⟩ := List.getElem?_eq_some_iff.mp hval
      rw [List.drop_eq_getElem_cons hlt, hget]
    rw [hdrop] at hbal
    have hlog := effect_log hunfreed a i val
    have hkept₁ : Kept S parts outside (st.log a i val) := by
      rw [Kept, log_objs]
      exact hkept
    have hstep : Releases S parts ((o.slots.drop (i + 1)).reduceOption ++ outside) (fun _ _ => 0)
        (st.log a i val) (decref (st.log a i val) val) := by
      have hmore : Kept S parts ((o.slots.drop (i + 1)).reduceOption ++ outside) (st.log a i val) :=
        Supported.congr hkept₁ (fun b hb => List.mem_append_right _ hb) fun b c hb hc => by
          obtain ⟨⟨c', hc', hpos⟩, _⟩ := hkept₁ b hb
          cases hc'.symm.trans hc
          exact ⟨c, hc, hpos, rfl⟩
      cases val with
      | none =>
        refine ⟨_, hnone _, ?_, hmore, effect_refl hlog.unfreed⟩
        rw [List.reduceOption_cons_of_none] at hbal
        rw [Counted, log_objs]
        exact hbal
      | some b =>
        rw [List.reduceOption_cons_of_some] at hbal
        refine hdecref ?_ hmore hlog.unfreed ?_
        · rw [Counted, log_objs]
          exact hbal
        · exact Nat.lt_of_le_of_lt (Finset.card_le_card hlog.live) hfuel
    obtain ⟨st₁, hst₁, hbal₁, hmore₁, heffect⟩ := hstep
    have heffect₁ := hlog.trans heffect
    obtain ⟨o₁, ha₁, _, _, hdead, _⟩ := heffect₁.obj ha
    cases hdead (by omega)
    obtain ⟨st', hst', hbal', hkept', heffect'⟩ := ih ha₁ (by omega) hbal₁
      (Kept.effect hview hkept heffect₁ hmore₁) heffect₁.unfreed
      (Nat.lt_of_le_of_lt (Finset.card_le_card heffect₁.live) hfuel)
    refine ⟨st', ?_, hbal', hkept', ?_⟩
    · rw [free_slots, ob_ok ha hfreed, ok_bind]
      simp only [hval, Option.join_some, hst₁, ok_bind, hst']
    · have hextra : (fun b j => if b = a ∧ i ≤ j ∧ (o.slots[j]?.join).isSome then 1 else 0) =
          fun b j => (if (b, j) = (a, i) ∧ val.isSome then 1 else 0) + 0 +
            (if b = a ∧ i + 1 ≤ j ∧ (o.slots[j]?.join).isSome then 1 else 0) := by
        funext b j
        by_cases hj : j = i
        · subst hj
          have hnot : ¬ j + 1 ≤ j := by omega
          simp only [hval, Option.join_some, Prod.mk.injEq, and_true, Nat.le_refl, true_and, hnot,
            false_and, and_false, if_false]
          rfl
        · have hle : i ≤ j ↔ i + 1 ≤ j := by omega
          simp only [Prod.mk.injEq, hj, and_false, false_and, if_false, hle, Nat.zero_add]
      rw [hextra]
      exact heffect₁.trans heffect'

/-- A reference is dropped, and what is not held any more is freed. -/
theorem decref_spec (hview : View S parts) (fuel : Nat) {st : State} {outside : List Nat} {a : Nat}
    (hbal : Counted parts (a :: outside) st) (hkept : Kept S parts outside st)
    (hunfreed : Unfreed st) (hfuel : st.live.card < fuel) :
    Releases S parts outside (fun _ _ => 0) st (decref fuel st (some a)) := by
  induction fuel generalizing st outside a with
  | zero => omega
  | succ fuel ih =>
    obtain ⟨o, ha, hpos⟩ := hbal.pos (List.mem_append_left _ List.mem_cons_self)
    have hfreed := hunfreed ha hpos
    have hlt := (List.getElem?_eq_some_iff.mp ha).1
    rw [decref, ob_ok ha hfreed, ok_bind]
    dsimp only
    have hother : ∀ (n : Int) {b : Nat}, b ≠ a →
        (st.set a { o with ob_refcnt := n }).objs[b]? = st.objs[b]? :=
      fun _ _ hb => List.getElem?_set_ne (Ne.symm hb)
    have hself : ∀ n : Int, (st.set a { o with ob_refcnt := n }).objs[a]? =
        some { o with ob_refcnt := n } := fun _ => List.getElem?_set_self hlt
    by_cases hone : o.ob_refcnt = 1
    · have hnot : ¬ S a := fun hS => by
        have hmany := hkept.many hbal hS ha
        omega
      have hkept₀ : Kept S parts outside (st.set a { o with ob_refcnt := 0 }) := by
        refine Supported.congr hkept (fun b hb => hb) fun b c hb hc => ?_
        obtain ⟨⟨c', hc', hpos⟩, _⟩ := hkept b hb
        cases hc'.symm.trans hc
        exact ⟨c, (hother 0 fun heq => hnot (heq ▸ hb)).trans hc, hpos, rfl⟩
      have hbal₀ : Counted parts ((o.slots.drop 0).reduceOption ++ outside)
          (st.set a { o with ob_refcnt := 0 }) := by
        rw [List.drop_zero, ← hview.full hnot]
        exact hbal.last ha hone rfl
      have hunfreed₀ : Unfreed (st.set a { o with ob_refcnt := 0 }) := by
        intro b c hb hpos
        by_cases heq : b = a
        · subst heq
          cases (hself 0).symm.trans hb
          exact hfreed
        · rw [hother 0 heq] at hb
          exact hunfreed hb hpos
      have hfuel₀ : (st.set a { o with ob_refcnt := 0 }).live.card < fuel := by
        refine Nat.lt_of_lt_of_le (Finset.card_lt_card ?_) (Nat.le_of_lt_succ hfuel)
        refine Finset.ssubset_iff_subset_ne.mpr ⟨fun b hb => ?_, fun heq => ?_⟩
        · obtain ⟨c, hc, hpos'⟩ := mem_live.mp hb
          by_cases heq : b = a
          · exact heq ▸ mem_live.mpr ⟨o, ha, hpos⟩
          · exact mem_live.mpr ⟨c, (hother 0 heq).symm.trans hc, hpos'⟩
        · have hmem : a ∈ (st.set a { o with ob_refcnt := 0 }).live :=
            heq ▸ mem_live.mpr ⟨o, ha, hpos⟩
          obtain ⟨c, hc, hpos'⟩ := mem_live.mp hmem
          cases (hself 0).symm.trans hc
          exact Int.lt_irrefl 0 hpos'
      have hnone : ∀ st, decref fuel st none = .ok st := fun st => by cases fuel <;> rfl
      obtain ⟨st₁, hst₁, hbal₁, hkept₁, heffect⟩ := free_slots_spec hview hnone ih o.slots.length
        (hself 0) rfl hfreed (Nat.zero_add _).symm hbal₀ hkept₀ hunfreed₀ hfuel₀
      obtain ⟨o₁, ha₁, _, _, hdead, _⟩ := heffect.obj (hself 0)
      cases hdead (Int.le_refl 0)
      have hfree : GCfree st₁ a = .ok (st₁.set a { o with ob_refcnt := 0, freed := true }) := by
        rw [GCfree, ob_ok ha₁ hfreed, ok_bind]
      refine ⟨st₁.set a { o with ob_refcnt := 0, freed := true }, ?_, hbal₁.dead ha₁ rfl rfl, ?_,
        ?_⟩
      · have hzero : ¬ o.ob_refcnt - 1 ≠ 0 := by omega
        rw [if_neg hzero, hone, Int.sub_self, ob_free, ob_ok (hself 0) hfreed, ok_bind]
        dsimp only
        rw [hst₁, ok_bind, hfree]
      · refine Supported.congr hkept₁ (fun b hb => hb) fun b c hb hc => ?_
        obtain ⟨⟨c', hc', hpos⟩, _⟩ := hkept₁ b hb
        cases hc'.symm.trans hc
        refine ⟨c, ?_, hpos, rfl⟩
        rw [State.set, List.getElem?_set_ne fun heq : a = b => hnot (heq ▸ hb), hc]
      · refine Effect.free ha hpos rfl rfl ?_
        simpa only [Nat.zero_le, true_and] using heffect
    · have hne : o.ob_refcnt - 1 ≠ 0 := by omega
      have hgt : o.ob_refcnt - 1 > 0 := by omega
      have hsame : parts a { o with ob_refcnt := o.ob_refcnt - 1 } = parts a o := hview.slots rfl
      rw [if_pos hne, if_pos hgt]
      refine ⟨_, rfl, hbal.drop ha (by omega) rfl hsame, ?_,
        effect_count ha hunfreed hgt (by omega)⟩
      refine Supported.congr hkept (fun b hb => hb) fun b c hb hc => ?_
      by_cases heq : b = a
      · subst heq
        cases ha.symm.trans hc
        exact ⟨_, hself _, hgt, hsame⟩
      · obtain ⟨⟨c', hc', hpos⟩, _⟩ := hkept b hb
        cases hc'.symm.trans hc
        exact ⟨c, (hother _ heq).trans hc, hpos, rfl⟩

/-- `OB_DECREF` has calls enough. -/
theorem OB_DECREF_spec (hview : View S parts) (hbal : Counted parts (a :: outside) st)
    (hkept : Kept S parts outside st) (hunfreed : Unfreed st) :
    Releases S parts outside (fun _ _ => 0) st (OB_DECREF st (some a)) :=
  decref_spec hview _ hbal hkept hunfreed (Nat.lt_succ_of_le (card_live_le st))

theorem OB_DECREF_none (st : State) : OB_DECREF st none = .ok st := rfl

end release

end koala.memory
