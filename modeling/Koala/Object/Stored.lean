import Koala.Object.Slots

open holders

namespace koala.memory

set_option linter.style.nameCheck false

section views

/-- All slots of an object. -/
def all (_ : Nat) (o : Object) : List Nat := o.slots.reduceOption

/-- All slots but one, that is about to be overwritten. -/
def masked (t i : Nat) (a : Nat) (o : Object) : List Nat :=
  if a = t then (o.slots.set i none).reduceOption else o.slots.reduceOption

theorem view_all (S : Nat → Prop) : View S all where
  slots h := by rw [all, all, h]
  full _ _ := rfl

theorem view_masked {S : Nat → Prop} {t : Nat} (ht : S t) (i : Nat) : View S (masked t i) where
  slots h := by rw [masked, masked, h]
  full {a} h _ := if_neg fun heq : a = t => h (heq ▸ ht)

theorem mem_reduceOption {l : List (Option Nat)} {b j : Nat} (h : l[j]? = some (some b)) :
    b ∈ l.reduceOption := List.reduceOption_mem_iff.mpr (List.mem_of_getElem? h)

/-- The reference in a slot, and those in the others. -/
theorem count_reduceOption_set {l : List (Option Nat)} {i : Nat} {x : Option Nat}
    (h : l[i]? = some x) (b : Nat) :
    l.reduceOption.count b = (l.set i none).reduceOption.count b + x.toList.count b := by
  induction l generalizing i with
  | nil => cases h
  | cons y l ih =>
    cases i with
    | zero =>
      cases h
      rw [List.set_cons_zero, List.reduceOption_cons_of_none]
      cases x with
      | none => rfl
      | some a =>
        rw [List.reduceOption_cons_of_some, List.count_cons, Option.toList_some,
          List.count_singleton]
    | succ i =>
      rw [List.set_cons_succ]
      have htail := ih (show l[i]? = some x from h)
      cases y with
      | none => exact htail
      | some a =>
        rw [List.reduceOption_cons_of_some, List.reduceOption_cons_of_some, List.count_cons,
          List.count_cons, htail]
        omega

variable {st : State} {outside : List Nat} {t i : Nat} {o : Object} {x : Option Nat}

theorem set_self (ht : st.objs[t]? = some o) : st.objs.set t o = st.objs := by
  obtain ⟨hlt, hget⟩ := List.getElem?_eq_some_iff.mp ht
  rw [← hget, List.set_getElem_self]

/-- A slot is taken out of sight: the reference in it is then one from outside. -/
theorem counted_masked (ht : st.objs[t]? = some o) (hpos : 0 < o.ob_refcnt)
    (hi : o.slots[i]? = some x) (h : Counted all outside st) :
    Counted (masked t i) (x.toList ++ outside) st := by
  have hcount := count_reduceOption_set hi
  have hall : held Object.ob_refcnt all t o = o.slots.reduceOption := held_of_pos hpos
  have hmasked : held Object.ob_refcnt (masked t i) t o = (o.slots.set i none).reduceOption :=
    (held_of_pos hpos).trans (if_pos rfl)
  have hset : Balanced Object.ob_refcnt (masked t i) (x.toList ++ outside) (st.objs.set t o) := by
    refine h.set ht (fun k hk => funext fun o => if_neg hk) ?_ fun b _ => ?_
    · rw [hall, hmasked, hcount, List.count_append]
      omega
    · rw [hall, hmasked, hcount, List.count_append]
      omega
  rwa [set_self ht] at hset

/-- It comes back in sight. -/
theorem counted_all (ht : st.objs[t]? = some o) (hpos : 0 < o.ob_refcnt)
    (hi : o.slots[i]? = some x) (h : Counted (masked t i) (x.toList ++ outside) st) :
    Counted all outside st := by
  have hcount := count_reduceOption_set hi
  have hall : held Object.ob_refcnt all t o = o.slots.reduceOption := held_of_pos hpos
  have hmasked : held Object.ob_refcnt (masked t i) t o = (o.slots.set i none).reduceOption :=
    (held_of_pos hpos).trans (if_pos rfl)
  have hset : Balanced Object.ob_refcnt all outside (st.objs.set t o) := by
    refine h.set ht (fun k hk => funext fun o => (if_neg hk).symm) ?_ fun b _ => ?_
    · rw [hall, hmasked, hcount, List.count_append]
      omega
    · rw [hall, hmasked, hcount, List.count_append]
      omega
  rwa [set_self ht] at hset

/-- A slot that is out of sight can be written. -/
theorem counted_store (ht : st.objs[t]? = some o) (h : Counted (masked t i) outside st)
    (x : Option Nat) :
    Counted (masked t i) outside (st.set t { o with slots := o.slots.set i x }) := by
  have hparts : masked t i t { o with slots := o.slots.set i x } = masked t i t o := by
    simp only [masked, if_true, List.set_set]
  have hheld : held Object.ob_refcnt (masked t i) t { o with slots := o.slots.set i x } =
      held Object.ob_refcnt (masked t i) t o := by
    unfold held
    rw [hparts]
  refine h.set ht (fun _ _ => rfl) ?_ fun b _ => ?_
  · rw [hheld]
  · rw [hheld]

/-- A reference is taken to an object that is counted. -/
theorem counted_take {S : Nat → Prop} {parts : Nat → Object → List Nat} (hview : View S parts)
    (ht : st.objs[t]? = some o) (hpos : 0 < o.ob_refcnt) (h : Counted parts outside st) :
    Counted parts (t :: outside) (st.set t { o with ob_refcnt := o.ob_refcnt + 1 }) :=
  h.take ht hpos rfl (hview.slots rfl)

end views

section quiet

/-- Between calls, objects without references are freed, and their slots were released once. -/
structure Quiet (st : State) : Prop where
  settled : ∀ {a : Nat} {o : Object}, st.objs[a]? = some o →
    (o.freed = false ↔ 0 < o.ob_refcnt)
  released : ∀ {a : Nat} {o : Object}, st.objs[a]? = some o → ∀ j,
    st.released.count (a, j) = if o.freed = true ∧ (o.slots[j]?.join).isSome then 1 else 0
  beyond : ∀ {a : Nat}, st.objs.length ≤ a → ∀ j, st.released.count (a, j) = 0

variable {st st' : State} {a : Nat} {o o' : Object}

theorem Quiet.unfreed (h : Quiet st) : Unfreed st := fun ha hpos => (h.settled ha).mpr hpos

theorem Quiet.effect (h : Quiet st) (heffect : Effect (fun _ _ => 0) st st') : Quiet st' := by
  have hback : ∀ {a : Nat} {o' : Object}, st'.objs[a]? = some o' → ∃ o, st.objs[a]? = some o := by
    intro a o' ha'
    have hlt := (List.getElem?_eq_some_iff.mp ha').1
    rw [heffect.length] at hlt
    exact ⟨_, List.getElem?_eq_getElem hlt⟩
  refine ⟨fun {a o'} ha' => ?_, fun {a o'} ha' j => ?_, fun ha j => ?_⟩
  · obtain ⟨o, ha⟩ := hback ha'
    obtain ⟨o₁, ha₁, _, _, hdead, hfreed⟩ := heffect.obj ha
    cases ha₁.symm.trans ha'
    by_cases hpos : 0 < o.ob_refcnt
    · rw [hfreed hpos, decide_eq_false_iff_not, Int.not_le]
    · rw [hdead (by omega)]
      exact h.settled ha
  · obtain ⟨o, ha⟩ := hback ha'
    obtain ⟨o₁, ha₁, hsame, _, hdead, hfreed⟩ := heffect.obj ha
    cases ha₁.symm.trans ha'
    rw [heffect.log ha ha' j, h.released ha j]
    by_cases hpos : 0 < o.ob_refcnt
    · have hslots : o'.slots = o.slots := by rw [hsame]
      simp only [died, hfreed hpos, (h.settled ha).mpr hpos, hpos, hslots, decide_eq_true_eq,
        Bool.false_eq_true, false_and, if_false, true_and, Nat.zero_add]
    · rw [hdead (by omega), died_self]
      rfl
  · rw [heffect.beyond (heffect.length ▸ ha) j, h.beyond (heffect.length ▸ ha) j]

/-- An object that is counted may change as long as it is. -/
theorem Quiet.set (h : Quiet st) (ha : st.objs[a]? = some o) (hpos : 0 < o.ob_refcnt)
    (hpos' : 0 < o'.ob_refcnt) (hfreed : o'.freed = o.freed) : Quiet (st.set a o') := by
  have hlt := (List.getElem?_eq_some_iff.mp ha).1
  have hunfreed := (h.settled ha).mpr hpos
  refine ⟨fun {b p} hb => ?_, fun {b p} hb j => ?_, fun hb j => ?_⟩
  · by_cases heq : b = a
    · subst heq
      cases (List.getElem?_set_self hlt).symm.trans hb
      exact iff_of_true (hfreed.trans hunfreed) hpos'
    · rw [State.set, List.getElem?_set_ne (Ne.symm heq)] at hb
      exact h.settled hb
  · by_cases heq : b = a
    · subst heq
      cases (List.getElem?_set_self hlt).symm.trans hb
      have hreleased := h.released ha j
      rw [hunfreed] at hreleased hfreed
      rw [hfreed]
      change st.released.count (b, j) = _
      simpa only [Bool.false_eq_true, false_and, if_false] using hreleased
    · rw [State.set, List.getElem?_set_ne (Ne.symm heq)] at hb
      exact h.released hb j
  · rw [State.set, List.length_set] at hb
    exact h.beyond hb j

theorem Quiet.new (h : Quiet st) (klass : Klass) (size : Nat) :
    Quiet (Object_New st klass size) := by
  refine ⟨fun {b p} hb => ?_, fun {b p} hb j => ?_, fun hb j => ?_⟩
  · rcases Nat.lt_or_ge b st.objs.length with hlt | hge
    · rw [Object_New, List.getElem?_append_left hlt] at hb
      exact h.settled hb
    · obtain rfl : b = st.objs.length := by
        have hlt := (List.getElem?_eq_some_iff.mp hb).1
        rw [Object_New, List.length_append, List.length_singleton] at hlt
        omega
      rw [Object_New, List.getElem?_concat_length] at hb
      cases hb
      exact iff_of_true rfl Int.zero_lt_one
  · rcases Nat.lt_or_ge b st.objs.length with hlt | hge
    · rw [Object_New, List.getElem?_append_left hlt] at hb
      exact h.released hb j
    · obtain rfl : b = st.objs.length := by
        have hlt := (List.getElem?_eq_some_iff.mp hb).1
        rw [Object_New, List.length_append, List.length_singleton] at hlt
        omega
      rw [Object_New, List.getElem?_concat_length] at hb
      cases hb
      exact h.beyond (Nat.le_refl _) j
  · rw [Object_New, List.length_append, List.length_singleton] at hb
    exact h.beyond (by omega) j

end quiet

section calls

/-- Calls on slots, and those that make objects and take and give up references to them. -/
inductive Call where
  | Object_New (klass : Klass) (size : Nat)
  | OB_INCREF (ob : Nat)
  | OB_DECREF (ob : Nat)
  | Tuple_Set (ob index : Nat) (val : Option Nat)
  | Tuple_Append (ob : Nat) (val : Option Nat)
  | Set_Field (ob index : Nat) (val : Option Nat)

def Call.run (st : State) : Call → Res State
  | .Object_New klass size => .ok (memory.Object_New st klass size)
  | .OB_INCREF ob => memory.OB_INCREF st (some ob)
  | .OB_DECREF ob => memory.OB_DECREF st (some ob)
  | .Tuple_Set ob index val => do
    let (_, st) ← memory.Tuple_Set st ob index val
    .ok st
  | .Tuple_Append ob val => do
    let (_, st) ← memory.Tuple_Append st ob val
    .ok st
  | .Set_Field ob index val => memory.Set_Field st ob index val

/-- The references that the caller owns after a call. -/
def Call.owned (st : State) (owned : List Nat) : Call → List Nat
  | .Object_New .. => st.objs.length :: owned
  | .OB_INCREF ob => ob :: owned
  | .OB_DECREF ob => owned.erase ob
  | _ => owned

def State.Live (st : State) (a : Nat) : Prop := ∃ o, st.objs[a]? = some o ∧ o.freed = false

/-- A value is NULL or an object. -/
def State.Value (st : State) (val : Option Nat) : Prop := ∀ v, val = some v → st.Live v

/-- The slot is one of an object of some class. -/
def State.InRange (st : State) (klass : Klass) (ob : Nat) (index : Object → Nat) : Prop :=
  ∃ o, st.objs[ob]? = some o ∧ o.freed = false ∧ o.ob_klass = klass ∧ index o < o.slots.length

/-- References are owned, slots are in range and values are any. -/
def Call.Allowed (st : State) (owned : List Nat) : Call → Prop
  | .Object_New klass size => klass = .Leaf → size = 0
  | .OB_INCREF ob | .OB_DECREF ob => ob ∈ owned
  | .Tuple_Set ob index val => st.InRange .Tuple ob (fun _ => index) ∧ st.Value val
  | .Tuple_Append ob val => st.InRange .Tuple ob Object.avail ∧ st.Value val
  | .Set_Field ob index val => st.InRange .Object ob (fun _ => index) ∧ st.Value val

/-- An object is in a set of objects each of which is owned by the caller, or held by one of the
set in a slot other than a certain one. -/
def Survives (st : State) (owned : List Nat) (t i a : Nat) : Prop :=
  ∃ S : Nat → Prop, S a ∧ ∀ b, S b → st.Live b ∧ (b ∈ owned ∨ ∃ c o j, S c ∧
    st.objs[c]? = some o ∧ o.slots[j]? = some (some b) ∧ (c, j) ≠ (t, i))

/-- A value is stored in a tuple where it and the tuple survive without the slot. -/
def Stores (st : State) (owned : List Nat) (t i : Nat) (val : Option Nat) : Prop :=
  Survives st owned t i t ∧ ∃ v, val = some v ∧ Survives st owned t i v

/-- The condition on a call. -/
def Call.Meets (st : State) (owned : List Nat) : Call → Prop
  | .Tuple_Set ob index val => Stores st owned ob index val
  | .Tuple_Append ob val => ∀ o, st.objs[ob]? = some o → Stores st owned ob o.avail val
  | .Set_Field _ _ val => val ≠ none
  | _ => True

/-- Any calls that meet the condition, from the start. -/
inductive Run : State → List Nat → Prop where
  | init : Run ⟨[], []⟩ []
  | call {st st' : State} {owned : List Nat} {c : Call} (h : Run st owned)
    (hallowed : c.Allowed st owned) (hmeets : c.Meets st owned) (hrun : c.run st = .ok st') :
    Run st' (c.owned st owned)

/-- The number of slots of objects that are not freed that hold an object. -/
def State.holding (st : State) (a : Nat) : Nat :=
  ((st.objs.filter fun o => !o.freed).flatMap Object.slots).count (some a)

/-- Slots hold live values. -/
structure Sound (st : State) (owned : List Nat) : Prop where
  counted : ∀ (a : Nat) (o : Object), st.objs[a]? = some o → o.freed = false →
    o.ob_refcnt = owned.count a + st.holding a
  roots : ∀ a ∈ owned, st.Live a
  held : ∀ (a b : Nat) (o : Object), st.objs[a]? = some o → o.freed = false →
    some b ∈ o.slots → st.Live b
  released : ∀ (a : Nat) (o : Object), st.objs[a]? = some o → ∀ j, st.released.count (a, j) =
    if o.freed = true ∧ (o.slots[j]?.join).isSome then 1 else 0
  returns : ∀ call : Call, call.Allowed st owned → call.Meets st owned →
    ∃ st', call.run st = .ok st'

end calls

section steps

/-- What holds between calls. -/
structure Inv (st : State) (owned : List Nat) : Prop where
  counted : Counted all owned st
  quiet : Quiet st

variable {st : State} {owned : List Nat} {t i v : Nat} {o : Object}

theorem inv_init : Inv ⟨[], []⟩ [] := by
  refine ⟨⟨fun ha => ?_, fun ha => ?_⟩, ⟨fun ha => ?_, fun ha => ?_, fun _ _ => rfl⟩⟩
  · cases ha
  · cases ha
  · cases ha
  · cases ha

theorem Inv.pos (h : Inv st owned) (ho : st.objs[t]? = some o) (hfreed : o.freed = false) :
    0 < o.ob_refcnt := (h.quiet.settled ho).mp hfreed

/-- Survivors are kept while the slot is out of sight. -/
theorem Inv.kept (h : Inv st owned) {S : Nat → Prop}
    (hS : ∀ b, S b → st.Live b ∧ (b ∈ owned ∨ ∃ c o j, S c ∧ st.objs[c]? = some o ∧
      o.slots[j]? = some (some b) ∧ (c, j) ≠ (t, i))) : Kept S (masked t i) owned st := by
  intro b hb
  obtain ⟨⟨o, ho, hfreed⟩, hheld⟩ := hS b hb
  refine ⟨⟨o, ho, h.pos ho hfreed⟩, hheld.imp_right ?_⟩
  rintro ⟨c, p, j, hc, hp, hslot, hne⟩
  refine ⟨c, p, hc, hp, ?_⟩
  rw [masked]
  split
  · next heq =>
    subst heq
    have hj : i ≠ j := fun heq => hne (by rw [heq])
    refine mem_reduceOption (j := j) ?_
    rw [List.getElem?_set_ne hj, hslot]
  · exact mem_reduceOption hslot

/-- A set of survivors with the tuple and the value. -/
theorem Stores.kept {val : Option Nat} (h : Inv st owned) (hstores : Stores st owned t i val) :
    ∃ v S, val = some v ∧ S t ∧ S v ∧ Kept S (masked t i) owned st := by
  obtain ⟨⟨S, ht, hS⟩, v, hval, S', hv, hS'⟩ := hstores
  refine ⟨v, fun a => S a ∨ S' a, hval, Or.inl ht, Or.inr hv, h.kept fun b hb => ?_⟩
  rcases hb with hb | hb
  · obtain ⟨hlive, hheld⟩ := hS b hb
    refine ⟨hlive, hheld.imp_right ?_⟩
    rintro ⟨c, o, j, hc, hrest⟩
    exact ⟨c, o, j, Or.inl hc, hrest⟩
  · obtain ⟨hlive, hheld⟩ := hS' b hb
    refine ⟨hlive, hheld.imp_right ?_⟩
    rintro ⟨c, o, j, hc, hrest⟩
    exact ⟨c, o, j, Or.inr hc, hrest⟩

theorem OB_INCREF_ok (ho : st.objs[t]? = some o) (hfreed : o.freed = false) :
    OB_INCREF st (some t) = .ok (st.set t { o with ob_refcnt := o.ob_refcnt + 1 }) := by
  rw [OB_INCREF, ob_ok ho hfreed, ok_bind]

/-- The old item is released while its slot is out of sight. -/
theorem Inv.release_old (h : Inv st owned) (ho : st.objs[t]? = some o) (hpos : 0 < o.ob_refcnt)
    {old : Option Nat} (hold : o.slots[i]? = some old) {S : Nat → Prop} (ht : S t)
    (hkept : Kept S (masked t i) owned st) :
    Releases S (masked t i) owned (fun _ _ => 0) st (OB_DECREF st old) := by
  have hbal := counted_masked ho hpos hold h.counted
  cases old with
  | none => exact ⟨st, rfl, hbal, hkept, effect_refl h.quiet.unfreed⟩
  | some b => exact OB_DECREF_spec (view_masked ht i) hbal hkept h.quiet.unfreed

/-- An object that changes neither its count nor its slots. -/
theorem Inv.same (h : Inv st owned) (ho : st.objs[t]? = some o) (hpos : 0 < o.ob_refcnt)
    {o' : Object} (hcount : o'.ob_refcnt = o.ob_refcnt) (hslots : o'.slots = o.slots)
    (hfreed : o'.freed = o.freed) : Inv (st.set t o') owned := by
  have hheld : held Object.ob_refcnt all t o' = held Object.ob_refcnt all t o := by
    simp only [held, all, hcount, hslots]
  refine ⟨h.counted.set ho (fun _ _ => rfl) ?_ fun b _ => ?_,
    h.quiet.set ho hpos (hcount ▸ hpos) hfreed⟩
  · rw [hheld, hcount]
  · rw [hheld]

theorem Survives.congr {st' : State} {a : Nat} (h : Survives st owned t i a)
    (hsame : ∀ {b : Nat} {o : Object}, st.objs[b]? = some o →
      ∃ o', st'.objs[b]? = some o' ∧ o'.slots = o.slots ∧ o'.freed = o.freed) :
    Survives st' owned t i a := by
  obtain ⟨S, ha, hS⟩ := h
  refine ⟨S, ha, fun b hb => ?_⟩
  obtain ⟨⟨o, ho, hfreed⟩, hheld⟩ := hS b hb
  obtain ⟨o', ho', _, hfreed'⟩ := hsame ho
  refine ⟨⟨o', ho', hfreed'.trans hfreed⟩, hheld.imp_right ?_⟩
  rintro ⟨c, p, j, hc, hp, hslot, hne⟩
  obtain ⟨p', hp', hslots, _⟩ := hsame hp
  exact ⟨c, p', j, hc, hp', hslots ▸ hslot, hne⟩

/-- A value is stored in a tuple. -/
theorem Inv.__Tuple_Set (h : Inv st owned) (ho : st.objs[t]? = some o) (hfreed : o.freed = false)
    (hi : i < o.slots.length) {val : Option Nat} (hstores : Stores st owned t i val) :
    ∃ st', __Tuple_Set st t i val = .ok (0, st') ∧ Inv st' owned := by
  obtain ⟨v, S, rfl, ht, hv, hkept⟩ := hstores.kept h
  obtain ⟨old, hold⟩ : ∃ old, o.slots[i]? = some old := ⟨_, List.getElem?_eq_getElem hi⟩
  obtain ⟨st₁, hst₁, hbal₁, hkept₁, heffect⟩ := h.release_old ho (h.pos ho hfreed) hold ht hkept
  have hquiet₁ := h.quiet.effect heffect
  -- the value and the tuple are there after the release
  obtain ⟨⟨p, hp, hpos⟩, _⟩ := hkept₁ v hv
  have hpfreed := (hquiet₁.settled hp).mpr hpos
  obtain ⟨⟨q, hq, hqpos⟩, _⟩ := hkept₁ t ht
  obtain ⟨q', hq', hqslots⟩ := heffect.slots ho
  cases hq'.symm.trans hq
  let st₂ : State := st₁.set v { p with ob_refcnt := p.ob_refcnt + 1 }
  have hbal₂ : Counted (masked t i) ((some v).toList ++ owned) st₂ :=
    counted_take (view_masked ht i) hp hpos hbal₁
  have hquiet₂ : Quiet st₂ := hquiet₁.set hp hpos (Int.lt_add_one_of_le (Int.le_of_lt hpos)) rfl
  obtain ⟨r, hr, hrslots, hrpos⟩ : ∃ r, st₂.objs[t]? = some r ∧ r.slots = o.slots ∧
      0 < r.ob_refcnt := by
    by_cases heq : t = v
    · subst heq
      cases hp.symm.trans hq
      exact ⟨_, List.getElem?_set_self (List.getElem?_eq_some_iff.mp hq).1, hqslots,
        Int.lt_add_one_of_le (Int.le_of_lt hqpos)⟩
    · exact ⟨q, (List.getElem?_set_ne (Ne.symm heq)).trans hq, hqslots, hqpos⟩
  have hrfreed := (hquiet₂.settled hr).mpr hrpos
  have hlt : t < st₂.objs.length := (List.getElem?_eq_some_iff.mp hr).1
  refine ⟨st₂.set t { r with slots := r.slots.set i (some v) }, ?_, ?_⟩
  · rw [memory.__Tuple_Set, ob_ok ho hfreed, ok_bind]
    rw [if_pos hi, hold, Option.join_some, hst₁, ok_bind, OB_INCREF_ok hp hpfreed, ok_bind,
      ob_ok hr hrfreed, ok_bind]
  · refine ⟨?_, hquiet₂.set hr hrpos hrpos rfl⟩
    refine counted_all (List.getElem?_set_self hlt) hrpos ?_ (counted_store hr hbal₂ (some v))
    exact List.getElem?_set_self (hrslots ▸ hi)

theorem Inv.Tuple_Append (h : Inv st owned) (ho : st.objs[t]? = some o) (hfreed : o.freed = false)
    (hklass : o.ob_klass = .Tuple) (hi : o.avail < o.slots.length) {val : Option Nat}
    (hstores : Stores st owned t o.avail val) :
    ∃ st', Tuple_Append st t val = .ok (0, st') ∧ Inv st' owned := by
  have hlt := (List.getElem?_eq_some_iff.mp ho).1
  let p : Object := { o with avail := o.avail + 1 }
  have hp : (st.set t p).objs[t]? = some p := List.getElem?_set_self hlt
  have hsame : ∀ {b : Nat} {c : Object}, st.objs[b]? = some c →
      ∃ c', (st.set t p).objs[b]? = some c' ∧ c'.slots = c.slots ∧ c'.freed = c.freed := by
    intro b c hc
    by_cases heq : b = t
    · subst heq
      cases ho.symm.trans hc
      exact ⟨p, hp, rfl, rfl⟩
    · exact ⟨c, (List.getElem?_set_ne (Ne.symm heq)).trans hc, rfl, rfl⟩
  have hinv : Inv (st.set t p) owned := h.same ho (h.pos ho hfreed) rfl rfl rfl
  have hstores' : Stores (st.set t p) owned t o.avail val := by
    obtain ⟨htuple, v, hval, hvalue⟩ := hstores
    exact ⟨htuple.congr hsame, v, hval, hvalue.congr hsame⟩
  obtain ⟨st', hset, hinv'⟩ := hinv.__Tuple_Set hp hfreed hi hstores'
  refine ⟨st', ?_, hinv'⟩
  rw [memory.Tuple_Append, ob_ok ho hfreed, ok_bind, if_pos hklass]
  exact hset

/-- A value is stored in a field. -/
theorem Inv.Set_Field (h : Inv st owned) (ho : st.objs[t]? = some o) (hfreed : o.freed = false)
    (hi : i < o.slots.length) (hv : st.Live v) :
    ∃ st', Set_Field st t i (some v) = .ok st' ∧ Inv st' owned := by
  have hlt := (List.getElem?_eq_some_iff.mp ho).1
  have hpos := h.pos ho hfreed
  obtain ⟨old, hold⟩ : ∃ old, o.slots[i]? = some old := ⟨_, List.getElem?_eq_getElem hi⟩
  let p : Object := { o with slots := o.slots.set i (some v) }
  have hp : (st.set t p).objs[t]? = some p := List.getElem?_set_self hlt
  have hbal₁ : Counted (masked t i) (old.toList ++ owned) (st.set t p) :=
    counted_store ho (counted_masked ho hpos hold h.counted) (some v)
  have hquiet₁ : Quiet (st.set t p) := h.quiet.set ho hpos hpos rfl
  -- the value, which may be the object itself
  obtain ⟨q, hq, hqfreed⟩ : ∃ q, (st.set t p).objs[v]? = some q ∧ q.freed = false := by
    obtain ⟨q, hq, hqfreed⟩ := hv
    by_cases heq : v = t
    · subst heq
      exact ⟨p, hp, hfreed⟩
    · exact ⟨q, (List.getElem?_set_ne (Ne.symm heq)).trans hq, hqfreed⟩
  have hqpos := (hquiet₁.settled hq).mp hqfreed
  let st₂ : State := (st.set t p).set v { q with ob_refcnt := q.ob_refcnt + 1 }
  have hview : View (fun a => a = t) (masked t i) :=
    view_masked (S := fun a => a = t) rfl i
  have hbal₂ : Counted (masked t i) ((some v).toList ++ (old.toList ++ owned)) st₂ :=
    counted_take hview hq hqpos hbal₁
  have hquiet₂ : Quiet st₂ := hquiet₁.set hq hqpos (Int.lt_add_one_of_le (Int.le_of_lt hqpos)) rfl
  obtain ⟨r, hr, hrslots, hrpos⟩ : ∃ r, st₂.objs[t]? = some r ∧
      r.slots = o.slots.set i (some v) ∧ 0 < r.ob_refcnt := by
    by_cases heq : t = v
    · subst heq
      obtain rfl : q = p := Option.some.inj (hq.symm.trans hp)
      exact ⟨_, List.getElem?_set_self (List.getElem?_eq_some_iff.mp hq).1, rfl,
        Int.lt_add_one_of_le (Int.le_of_lt hqpos)⟩
    · exact ⟨p, (List.getElem?_set_ne (Ne.symm heq)).trans hp, rfl, hpos⟩
  have hbal₃ : Counted all (old.toList ++ owned) st₂ := by
    refine counted_all hr hrpos ?_ hbal₂
    rw [hrslots]
    exact List.getElem?_set_self hi
  have hrun : memory.Set_Field st t i (some v) = OB_DECREF st₂ old := by
    rw [memory.Set_Field, ob_ok ho hfreed, ok_bind, if_pos hi, hold, Option.join_some]
    dsimp only
    rw [OB_INCREF_ok hq hqfreed, ok_bind]
  rw [hrun]
  cases old with
  | none => exact ⟨st₂, rfl, hbal₃, hquiet₂⟩
  | some b =>
    have hkept : Kept (fun _ => False) all owned st₂ := fun _ hfalse => hfalse.elim
    obtain ⟨st', hst', hbal', _, heffect⟩ :=
      OB_DECREF_spec (view_all _) hbal₃ hkept hquiet₂.unfreed
    exact ⟨st', hst', hbal', hquiet₂.effect heffect⟩

theorem Inv.Object_New (h : Inv st owned) (klass : Klass) (size : Nat) :
    Inv (Object_New st klass size) (st.objs.length :: owned) :=
  ⟨h.counted.new rfl List.reduceOption_replicate_none, h.quiet.new klass size⟩

theorem Inv.live_owned (h : Inv st owned) (ht : t ∈ owned) : st.Live t := by
  obtain ⟨o, ho, hpos⟩ := h.counted.pos (List.mem_append_left _ ht)
  exact ⟨o, ho, (h.quiet.settled ho).mpr hpos⟩

theorem Inv.OB_INCREF (h : Inv st owned) (ht : t ∈ owned) :
    ∃ st', OB_INCREF st (some t) = .ok st' ∧ Inv st' (t :: owned) := by
  obtain ⟨o, ho, hfreed⟩ := h.live_owned ht
  have hpos := h.pos ho hfreed
  refine ⟨_, OB_INCREF_ok ho hfreed, counted_take (view_all fun _ => False) ho hpos h.counted, ?_⟩
  exact h.quiet.set ho hpos (Int.lt_add_one_of_le (Int.le_of_lt hpos)) rfl

/-- An object is released when nothing is out of sight. -/
theorem Inv.OB_DECREF (h : Inv st (t :: owned)) :
    ∃ st', OB_DECREF st (some t) = .ok st' ∧ Inv st' owned := by
  have hkept : Kept (fun _ => False) all owned st := fun _ hfalse => hfalse.elim
  obtain ⟨st', hst', hbal', _, heffect⟩ :=
    OB_DECREF_spec (view_all _) h.counted hkept h.quiet.unfreed
  exact ⟨st', hst', hbal', h.quiet.effect heffect⟩

theorem Inv.congr {owned' : List Nat} (h : Inv st owned)
    (hcount : ∀ b, owned'.count b = owned.count b) : Inv st owned' :=
  ⟨Balanced.congr h.counted hcount, h.quiet⟩

/-- A call that meets the condition returns. -/
theorem Inv.run (h : Inv st owned) {call : Call} (hallowed : call.Allowed st owned)
    (hmeets : call.Meets st owned) :
    ∃ st', call.run st = .ok st' ∧ Inv st' (call.owned st owned) := by
  cases call with
  | Object_New klass size => exact ⟨_, rfl, h.Object_New klass size⟩
  | OB_INCREF ob => exact h.OB_INCREF hallowed
  | OB_DECREF ob =>
    refine Inv.OB_DECREF (h.congr fun b => ?_)
    exact (List.perm_cons_erase hallowed).symm.count_eq b
  | Tuple_Set ob index val =>
    obtain ⟨⟨o, ho, hfreed, hklass, hlt⟩, _⟩ := hallowed
    obtain ⟨st', hst', hinv⟩ := h.__Tuple_Set ho hfreed hlt hmeets
    refine ⟨st', ?_, hinv⟩
    rw [Call.run, memory.Tuple_Set, ob_ok ho hfreed, ok_bind, if_pos hklass, hst', ok_bind]
  | Tuple_Append ob val =>
    obtain ⟨⟨o, ho, hfreed, hklass, hlt⟩, _⟩ := hallowed
    obtain ⟨st', hst', hinv⟩ := h.Tuple_Append ho hfreed hklass hlt (hmeets o ho)
    refine ⟨st', ?_, hinv⟩
    rw [Call.run, hst', ok_bind]
  | Set_Field ob index val =>
    obtain ⟨⟨o, ho, hfreed, _, hlt⟩, hvalue⟩ := hallowed
    obtain ⟨v, rfl⟩ := Option.ne_none_iff_exists'.mp hmeets
    exact h.Set_Field ho hfreed hlt (hvalue v rfl)

theorem Run.inv (h : Run st owned) : Inv st owned := by
  induction h with
  | init => exact inv_init
  | call h hallowed hmeets hrun ih =>
    obtain ⟨st', hst', hinv⟩ := ih.run hallowed hmeets
    cases hst'.symm.trans hrun
    exact hinv

end steps

section sound

variable {st : State} {owned : List Nat}

theorem count_reduceOption (l : List (Option Nat)) (b : Nat) :
    l.reduceOption.count b = l.count (some b) := by
  induction l with
  | nil => rfl
  | cons x l ih =>
    cases x with
    | none => rw [List.reduceOption_cons_of_none, ih, List.count_cons_of_ne (by nofun)]
    | some a =>
      rw [List.reduceOption_cons_of_some, List.count_cons, List.count_cons, ih]
      simp only [beq_iff_eq, Option.some.injEq]

/-- What is held is held by slots of objects that are not freed. -/
theorem count_references (h : Quiet st) (a : Nat) :
    (references Object.ob_refcnt all st.objs).count a = st.holding a := by
  have hslots : ∀ l : List Object, (∀ o ∈ l, o.freed = false ↔ 0 < o.ob_refcnt) →
      (l.flatMap (held Object.ob_refcnt all 0)).count a =
        ((l.filter fun o => !o.freed).flatMap Object.slots).count (some a) := by
    intro l hl
    induction l with
    | nil => rfl
    | cons o l ih =>
      have htail := ih fun p hp => hl p (List.mem_cons_of_mem _ hp)
      have hsettled := hl o List.mem_cons_self
      rw [List.flatMap_cons, List.count_append, htail]
      cases hfreed : o.freed with
      | false =>
        rw [held_of_pos (hsettled.mp hfreed), List.filter_cons_of_pos (by simp [hfreed]),
          List.flatMap_cons, List.count_append, all, count_reduceOption]
      | true =>
        have hzero : ¬ 0 < o.ob_refcnt := fun hpos => by
          rw [hsettled.mpr hpos] at hfreed
          cases hfreed
        rw [held_of_zero (Int.not_lt.mp hzero), List.filter_cons_of_neg (by simp [hfreed]),
          List.count_nil, Nat.zero_add]
  rw [references_flatMap fun _ _ => rfl]
  refine hslots st.objs fun o ho => ?_
  obtain ⟨b, hb⟩ := List.mem_iff_getElem?.mp ho
  exact h.settled hb

theorem Inv.sound (h : Inv st owned) : Sound st owned where
  counted a o ho _ := by
    rw [← count_references h.quiet]
    exact h.counted.counted ho
  roots a ha := h.live_owned ha
  held a b o ho hfreed hb := by
    have hmem : b ∈ references Object.ob_refcnt all st.objs :=
      mem_references.mpr ⟨a, o, ho, h.pos ho hfreed, List.reduceOption_mem_iff.mpr hb⟩
    obtain ⟨c, hc, hpos⟩ := h.counted.pos (List.mem_append_right _ hmem)
    exact ⟨c, hc, (h.quiet.settled hc).mpr hpos⟩
  released _ _ ho j := h.quiet.released ho j
  returns _ hallowed hmeets := by
    obtain ⟨st', hst', _⟩ := h.run hallowed hmeets
    exact ⟨st', hst'⟩

/-- A tuple at 1 that holds the only reference to the object at 0. -/
def stored : State := ⟨[⟨1, .Leaf, 0, [], false⟩, ⟨1, .Tuple, 0, [some 0], false⟩], []⟩

theorem survives_owned {S : Nat → Prop} {t i a : Nat} (ha : S a)
    (hS : ∀ b, S b → st.Live b ∧ b ∈ owned) : Survives st owned t i a :=
  ⟨S, ha, fun b hb => ⟨(hS b hb).1, Or.inl (hS b hb).2⟩⟩

theorem run_stored : Run stored [1] := by
  have hleaf : Run ⟨[⟨1, .Leaf, 0, [], false⟩], []⟩ [0] :=
    Run.init.call (c := .Object_New .Leaf 0) (fun _ => rfl) trivial rfl
  have htuple : Run ⟨[⟨1, .Leaf, 0, [], false⟩, ⟨1, .Tuple, 0, [none], false⟩], []⟩ [1, 0] :=
    hleaf.call (c := .Object_New .Tuple 1) nofun trivial rfl
  have hset : Run ⟨[⟨2, .Leaf, 0, [], false⟩, ⟨1, .Tuple, 0, [some 0], false⟩], []⟩ [1, 0] := by
    have hlive : ∀ b, b = 0 ∨ b = 1 → State.Live
        ⟨[⟨1, .Leaf, 0, [], false⟩, ⟨1, .Tuple, 0, [none], false⟩], []⟩ b ∧ b ∈ [1, 0] := by
      rintro b (rfl | rfl)
      · exact ⟨⟨_, rfl, rfl⟩, by decide⟩
      · exact ⟨⟨_, rfl, rfl⟩, by decide⟩
    refine htuple.call (c := .Tuple_Set 1 0 (some 0)) ⟨⟨_, rfl, rfl, rfl, Nat.one_pos⟩, ?_⟩ ?_ rfl
    · rintro v ⟨⟩
      exact (hlive 0 (Or.inl rfl)).1
    · exact ⟨survives_owned (Or.inr rfl) hlive, 0, rfl, survives_owned (Or.inl rfl) hlive⟩
  exact hset.call (c := .OB_DECREF 0) (show 0 ∈ [1, 0] by decide) trivial rfl

end sound

end koala.memory
