import Koala.Task.Deque
import Mathlib.Logic.Function.Iterate

open intrusive koala.lldq

namespace koala.balance

set_option linter.style.nameCheck false

/-- Where a processor is in `sched_load_balance`, with its local variables. -/
inductive Pc (N : Type) where
  | idle
  | start
  | loop (count : Int) (i : Nat)
  | steal (count : Int) (i : Nat) (num_steal : Int)
  | keep (count : Int) (i : Nat) (num_steal : Int) (node : N)
  | failed

/-- The node that was taken out of a deque and is in none yet. -/
def Pc.held {N : Type} : Pc N → Option N
  | .keep _ _ _ node => some node
  | _ => none

/-- Each of the `num_scheds` processors has a scheduler. A task is given by the
node in its `sched_info`, which is made when it is scheduled first. -/
structure State (num_scheds : Nat) (N : Type) where
  mem : Memory (Fin num_scheds) N
  pc : Fin num_scheds → Pc N

/-- What happens to tasks, and which deque a load balancing looks at. -/
inductive Event (num_scheds : Nat) (N : Type) where
  | schedule (i : Fin num_scheds) (node : N)
  | get (i : Fin num_scheds) (found : Option N)
  | visit (p index : Fin num_scheds)

variable {num_scheds : Nat} {N : Type} [DecidableEq N]

def State.goto (s : State num_scheds N) (p : Fin num_scheds) (pc : Pc N) : State num_scheds N :=
  { s with pc := Function.update s.pc p pc }

def schedule (s : State num_scheds N) (i : Fin num_scheds) (node : N) : State num_scheds N :=
  { s with mem := lldq_push_tail s.mem i node }

def sched_get_task (s : State num_scheds N) (i : Fin num_scheds) :
    Option N × State num_scheds N :=
  let (node, mem) := lldq_pop_head s.mem i
  (node, { s with mem })

/-- `task_schedulers[i % mod]` -/
def index (p : Fin num_scheds) (i : Nat) : Fin num_scheds := ⟨i % num_scheds, Nat.mod_lt i p.pos⟩

/-- The next action of processor `p` in `sched_load_balance`. Each reads or
changes one deque. -/
def sched_load_balance (p : Fin num_scheds) (s : State num_scheds N) :
    List (Event num_scheds N) × State num_scheds N :=
  match s.pc p with
  | .idle => ([], s)
  | .start => ([], s.goto p (.loop (s.mem.deque p).count p))
  | .loop count i =>
    if i < p + num_scheds - 1 then
      let other := index p (i + 1)
      if other = p then ([], s.goto p .failed)
      else
        let num_steal := ((s.mem.deque other).count - count).tdiv 2
        ([.visit p other], s.goto p (.steal count (i + 1) num_steal))
    else ([], s.goto p .idle)
  | .steal count i num_steal =>
    if 0 < num_steal then
      let (node, mem) := lldq_pop_head s.mem (index p i)
      let s := { s with mem }
      match node with
      | some node => ([], s.goto p (.keep count i (num_steal - 1) node))
      | none => ([], s.goto p (.steal count i (num_steal - 1)))
    else ([], s.goto p (.loop count i))
  | .keep count i num_steal node =>
    ([], { s with mem := lldq_push_tail s.mem p node }.goto p (.steal count i num_steal))
  | .failed => ([], s)

/-- Processors call and return in any order. A task is scheduled when `may` says so. -/
inductive Step (may : State num_scheds N → N → Prop) :
    State num_scheds N → List (Event num_scheds N) → State num_scheds N → Prop where
  | call {s} (p) : s.pc p = .idle → Step may s [] (s.goto p .start)
  | act {s} (p) : Step may s (sched_load_balance p s).1 (sched_load_balance p s).2
  | schedule {s} (i node) : may s node → Step may s [.schedule i node] (schedule s i node)
  | get {s} (i) : Step may s [.get i (sched_get_task s i).1] (sched_get_task s i).2

inductive Run (may : State num_scheds N → N → Prop) (s₀ : State num_scheds N) :
    List (Event num_scheds N) → State num_scheds N → Prop where
  | start : Run may s₀ [] s₀
  | step {events s new s'} : Run may s₀ events s → Step may s new s' →
    Run may s₀ (events ++ new) s'

/-- The links lead from the sentinel of deque `i` to the node. -/
def State.InDeque (s : State num_scheds N) (i : Fin num_scheds) (node : N) : Prop :=
  ∃ l, Path s.mem.next (.inl i) l ∧ node ∈ l

def InNoDeque (s : State num_scheds N) (node : N) : Prop := ∀ i, ¬ s.InDeque i node

/-- The node is in no deque, and no processor is moving it to one. -/
def Free (s : State num_scheds N) (node : N) : Prop :=
  InNoDeque s node ∧ ∀ p, (s.pc p).held ≠ some node

def entered : Event num_scheds N → Option N
  | .schedule _ node => some node
  | _ => none

def handed : Event num_scheds N → Option N
  | .get _ found => found
  | _ => none

/-- The deques hold the lists `q`, and each node that is moved is in none of them
and is moved by one processor. -/
structure Held (m : Memory (Fin num_scheds) N) (q : Fin num_scheds → List N)
    (held : Fin num_scheds → Option N) : Prop where
  rep : Rep m q
  outside : ∀ p node, held p = some node → ∀ i, node ∉ q i
  apart : ∀ p p' node, held p = some node → held p' = some node → p = p'

def Present (q : Fin num_scheds → List N) (held : Fin num_scheds → Option N) (node : N) : Prop :=
  (∃ i, node ∈ q i) ∨ ∃ p, held p = some node

section held

variable {m : Memory (Fin num_scheds) N} {q : Fin num_scheds → List N}
  {held : Fin num_scheds → Option N}

omit [DecidableEq N] in
theorem mem_update {i : Fin num_scheds} {l : List N} {a : N} :
    (∃ j, a ∈ Function.update q i l j) ↔ a ∈ l ∨ ∃ j, j ≠ i ∧ a ∈ q j := by
  constructor
  · rintro ⟨j, hj⟩
    obtain rfl | hne := eq_or_ne j i
    · exact Or.inl (by simpa using hj)
    · exact Or.inr ⟨j, hne, by simpa [Function.update_of_ne hne] using hj⟩
  · rintro (ha | ⟨j, hne, hj⟩)
    · exact ⟨i, by simpa using ha⟩
    · exact ⟨j, by simpa [Function.update_of_ne hne] using hj⟩

omit [DecidableEq N] in
theorem held_update {p : Fin num_scheds} {v : Option N} {a : N} :
    (∃ r, Function.update held p v r = some a) ↔ v = some a ∨ ∃ r, r ≠ p ∧ held r = some a := by
  constructor
  · rintro ⟨r, hr⟩
    obtain rfl | hne := eq_or_ne r p
    · exact Or.inl (by simpa using hr)
    · exact Or.inr ⟨r, hne, by simpa [Function.update_of_ne hne] using hr⟩
  · rintro (hv | ⟨r, hne, hr⟩)
    · exact ⟨p, by simpa using hv⟩
    · exact ⟨r, by simpa [Function.update_of_ne hne] using hr⟩

omit [DecidableEq N] in
theorem exists_split {P : Fin num_scheds → Prop} (i : Fin num_scheds) :
    (∃ j, P j) ↔ P i ∨ ∃ j, j ≠ i ∧ P j := by
  constructor
  · rintro ⟨j, hj⟩
    obtain rfl | hne := eq_or_ne j i
    · exact Or.inl hj
    · exact Or.inr ⟨j, hne, hj⟩
  · rintro (hi | ⟨j, _, hj⟩)
    · exact ⟨i, hi⟩
    · exact ⟨j, hj⟩

omit [DecidableEq N] in
/-- The nodes that are left in a deque without its first one. -/
theorem Held.popped (h : Held m q held) {m' : Memory (Fin num_scheds) N} {i : Fin num_scheds}
    {node : N} {l : List N} (hq : q i = node :: l) (hrep : Rep m' (Function.update q i l)) :
    Held m' (Function.update q i l) held ∧ ¬ Present (Function.update q i l) held node ∧
      ∀ a, Present q held a ↔ Present (Function.update q i l) held a ∨ a = node := by
  have hnl : node ∉ l := by
    have hnodup := h.rep.nodup i
    rw [hq] at hnodup
    exact (List.nodup_cons.mp hnodup).1
  have hmem : node ∈ q i := hq ▸ List.mem_cons_self
  refine ⟨⟨hrep, fun p a ha j hj => ?_, h.apart⟩, ?_, fun a => ?_⟩
  · obtain hl | ⟨k, _, hk⟩ := mem_update.mp ⟨j, hj⟩
    · exact h.outside p a ha i (hq ▸ List.mem_cons_of_mem node hl)
    · exact h.outside p a ha k hk
  · rintro (hdeque | ⟨p, hp⟩)
    · obtain hl | ⟨k, hk, hmemk⟩ := mem_update.mp hdeque
      · exact hnl hl
      · exact h.rep.disjoint i k (Ne.symm hk) node hmem hmemk
    · exact h.outside p node hp i hmem
  · rw [Present, Present, mem_update, exists_split i, hq, List.mem_cons]
    simp only [or_comm, or_left_comm, or_assoc]

omit [DecidableEq N] in
/-- The first node of a deque is taken out by a processor. -/
theorem Held.take (h : Held m q held) {m' : Memory (Fin num_scheds) N} {i p : Fin num_scheds}
    {node : N} {l : List N} (hq : q i = node :: l) (hrep : Rep m' (Function.update q i l))
    (hp : held p = none) :
    Held m' (Function.update q i l) (Function.update held p (some node)) ∧
      ∀ a, Present q held a ↔
        Present (Function.update q i l) (Function.update held p (some node)) a := by
  obtain ⟨hheld, habsent, hpresent⟩ := h.popped hq hrep
  refine ⟨⟨hrep, fun r a hr j hj => ?_, fun r r' a hr hr' => ?_⟩, fun a => ?_⟩
  · obtain heq | ⟨r, _, hr⟩ := held_update.mp ⟨r, hr⟩
    · exact habsent (Or.inl ⟨j, Option.some.inj heq ▸ hj⟩)
    · exact hheld.outside r a hr j hj
  · have hnode : ∀ {r}, held r = some node → False :=
      fun hr => h.outside _ node hr i (hq ▸ List.mem_cons_self)
    obtain rfl | hne := eq_or_ne r p
    · rw [Function.update_self] at hr
      obtain rfl | hne' := eq_or_ne r' r
      · rfl
      · rw [Function.update_of_ne hne'] at hr'
        exact absurd (Option.some.inj hr ▸ hr') hnode
    · rw [Function.update_of_ne hne] at hr
      obtain rfl | hne' := eq_or_ne r' p
      · rw [Function.update_self] at hr'
        exact absurd (Option.some.inj hr' ▸ hr) hnode
      · rw [Function.update_of_ne hne'] at hr'
        exact h.apart r r' a hr hr'
  · rw [hpresent, Present, Present, held_update, exists_split p (P := fun r => held r = some a), hp,
      Option.some.injEq, eq_comm (a := a)]
    simp only [reduceCtorEq, false_or, or_comm, or_assoc]

/-- A node in no deque is linked into one. -/
theorem Held.push (h : Held m q held) (i : Fin num_scheds) {node : N}
    (hnode : ¬ Present q held node) :
    Held (lldq_push_tail m i node) (Function.update q i (q i ++ [node])) held ∧
      ∀ a, Present (Function.update q i (q i ++ [node])) held a ↔ Present q held a ∨ a = node := by
  refine ⟨⟨h.rep.push i node fun j hj => hnode (Or.inl ⟨j, hj⟩), fun p a ha j hj => ?_, h.apart⟩,
    fun a => ?_⟩
  · obtain hl | ⟨k, _, hk⟩ := mem_update.mp ⟨j, hj⟩
    · obtain hold | hnew := List.mem_append.mp hl
      · exact h.outside p a ha i hold
      · exact hnode (Or.inr ⟨p, List.mem_singleton.mp hnew ▸ ha⟩)
    · exact h.outside p a ha k hk
  · rw [Present, Present, mem_update, exists_split i (P := fun j => a ∈ q j), List.mem_append,
      List.mem_singleton]
    simp only [or_comm, or_left_comm, or_assoc]

/-- The node that a processor has taken out is linked into its own deque. -/
theorem Held.put (h : Held m q held) (p : Fin num_scheds) (node : N) (i : Fin num_scheds)
    (hp : held p = some node) :
    Held (lldq_push_tail m i node) (Function.update q i (q i ++ [node]))
        (Function.update held p none) ∧
      ∀ a, Present q held a ↔ Present (Function.update q i (q i ++ [node]))
        (Function.update held p none) a := by
  have hsub : ∀ {r a}, Function.update held p none r = some a → r ≠ p ∧ held r = some a := by
    intro r a hr
    obtain rfl | hne := eq_or_ne r p
    · rw [Function.update_self] at hr
      exact absurd hr (by simp)
    · exact ⟨hne, by rwa [Function.update_of_ne hne] at hr⟩
  have hless : Held m q (Function.update held p none) :=
    ⟨h.rep, fun r a hr => h.outside r a (hsub hr).2,
      fun r r' a hr hr' => h.apart r r' a (hsub hr).2 (hsub hr').2⟩
  have habsent : ¬ Present q (Function.update held p none) node := by
    rintro (⟨j, hj⟩ | ⟨r, hr⟩)
    · exact h.outside p node hp j hj
    · obtain ⟨hne, hr⟩ := hsub hr
      exact hne (h.apart r p node hr hp)
  obtain ⟨hheld, hpresent⟩ := hless.push i habsent
  refine ⟨hheld, fun a => ?_⟩
  rw [hpresent, Present, Present, held_update, exists_split p (P := fun r => held r = some a), hp,
    Option.some.injEq, eq_comm (a := a)]
  simp only [reduceCtorEq, false_or, or_comm, or_left_comm]

end held

end koala.balance
