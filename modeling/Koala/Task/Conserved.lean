import Koala.Task.Balance

open intrusive koala.lldq

namespace koala.balance

set_option linter.style.nameCheck false

variable {num_scheds : Nat} {N : Type} [DecidableEq N]

/-- The walk has not come round to the processor itself. -/
def Pc.Ok (p : Fin num_scheds) : Pc N → Prop
  | .idle => True
  | .start => True
  | .loop _ i => p ≤ i
  | .steal _ i _ => p ≤ i
  | .keep _ i _ _ => p ≤ i
  | .failed => False

def State.held (s : State num_scheds N) (p : Fin num_scheds) : Option N := (s.pc p).held

structure Inv (s : State num_scheds N) (q : Fin num_scheds → List N) : Prop where
  held : Held s.mem q s.held
  ok : ∀ p, (s.pc p).Ok p

omit [DecidableEq N] in
theorem held_goto (s : State num_scheds N) (p : Fin num_scheds) (pc : Pc N) :
    (s.goto p pc).held = Function.update s.held p pc.held := by
  funext r
  obtain rfl | hne := eq_or_ne r p
  · simp [State.held, State.goto]
  · simp [State.held, State.goto, Function.update_of_ne hne]

omit [DecidableEq N] in
theorem ok_goto {s : State num_scheds N} (h : ∀ r, (s.pc r).Ok r) {p : Fin num_scheds} {pc : Pc N}
    (hpc : pc.Ok p) (r : Fin num_scheds) : ((s.goto p pc).pc r).Ok r := by
  obtain rfl | hne := eq_or_ne r p
  · simpa [State.goto] using hpc
  · simpa [State.goto, Function.update_of_ne hne] using h r

omit [DecidableEq N] in
/-- A processor goes on with what it holds. -/
theorem Inv.goto {s : State num_scheds N} {q : Fin num_scheds → List N} (h : Inv s q)
    (p : Fin num_scheds) (pc : Pc N) (hheld : pc.held = (s.pc p).held) (hok : pc.Ok p) :
    (s.goto p pc).held = s.held ∧ Inv (s.goto p pc) q := by
  have hsame : (s.goto p pc).held = s.held := by
    rw [held_goto, hheld]
    exact Function.update_eq_self p s.held
  exact ⟨hsame, ⟨hsame ▸ h.held, ok_goto h.ok hok⟩⟩

/-- Two numbers less than `n` apart with one remainder are equal. -/
theorem eq_of_mod_eq {n a b : Nat} (hmod : a % n = b % n) (hab : a < b + n) (hba : b < a + n) :
    a = b := by
  wlog hle : a ≤ b generalizing a b with H
  · exact (H hmod.symm hba hab (Nat.le_of_not_le hle)).symm
  have hdvd : (b - a) % n = 0 := Nat.sub_mod_eq_zero_of_mod_eq hmod.symm
  rw [Nat.mod_eq_of_lt (by omega)] at hdvd
  omega

theorem index_ne {p : Fin num_scheds} {i : Nat} (hp : p ≤ i) (hi : i < p + num_scheds - 1) :
    index p (i + 1) ≠ p := by
  intro heq
  have hmod : (i + 1) % num_scheds = (p : Nat) % num_scheds := by
    rw [Nat.mod_eq_of_lt p.isLt]
    exact congrArg Fin.val heq
  have hsame := eq_of_mod_eq hmod (by omega) (by omega)
  omega

section step

variable {s : State num_scheds N} {q : Fin num_scheds → List N}

/-- An action of a load balancing moves at most one node, and loses none. -/
theorem Inv.act (h : Inv s q) (p : Fin num_scheds) :
    ∃ q', Inv (sched_load_balance p s).2 q' ∧
      (∀ a, Present q s.held a ↔ Present q' (sched_load_balance p s).2.held a) ∧
      (sched_load_balance p s).1.filterMap entered = [] ∧
      (sched_load_balance p s).1.filterMap handed = [] := by
  have hok := h.ok p
  rw [sched_load_balance]
  cases hpc : s.pc p with
  | idle => exact ⟨q, h, fun _ => Iff.rfl, rfl, rfl⟩
  | start =>
    obtain ⟨hheld, hinv⟩ := h.goto p (.loop (s.mem.deque p).count p)
      (by rw [hpc]; rfl) (Nat.le_refl _)
    exact ⟨q, hinv, fun a => by rw [hheld], rfl, rfl⟩
  | loop count i =>
    rw [hpc] at hok
    dsimp only
    split
    next hi =>
      rw [if_neg (index_ne hok hi)]
      obtain ⟨hheld, hinv⟩ := h.goto p (.steal count (i + 1)
        (((s.mem.deque (index p (i + 1))).count - count).tdiv 2))
        (by rw [hpc]; rfl) (Nat.le_succ_of_le hok)
      exact ⟨q, hinv, fun a => by rw [hheld], rfl, rfl⟩
    next =>
      obtain ⟨hheld, hinv⟩ := h.goto p .idle (by rw [hpc]; rfl) trivial
      exact ⟨q, hinv, fun a => by rw [hheld], rfl, rfl⟩
  | steal count i num_steal =>
    rw [hpc] at hok
    dsimp only
    split
    next =>
      cases hq : q (index p i) with
      | nil =>
        rw [h.held.rep.pop_none hq]
        obtain ⟨hheld, hinv⟩ := h.goto p (.steal count i (num_steal - 1))
          (by rw [hpc]; rfl) hok
        exact ⟨q, hinv, fun a => by rw [← hheld], rfl, rfl⟩
      | cons node l =>
        obtain ⟨m', hpop, hrep⟩ := h.held.rep.pop_some hq
        rw [hpop]
        obtain ⟨hheld, hpresent⟩ := h.held.take (p := p) hq hrep (by rw [State.held, hpc]; rfl)
        refine ⟨Function.update q (index p i) l, ⟨?_, ok_goto h.ok ?_⟩, fun a => ?_, rfl, rfl⟩
        · dsimp only
          rw [held_goto]
          exact hheld
        · exact hok
        · dsimp only
          rw [hpresent, held_goto]
          rfl
    next =>
      obtain ⟨hheld, hinv⟩ := h.goto p (.loop count i) (by rw [hpc]; rfl) hok
      exact ⟨q, hinv, fun a => by rw [hheld], rfl, rfl⟩
  | keep count i num_steal node =>
    rw [hpc] at hok
    obtain ⟨hheld, hpresent⟩ := h.held.put p node p (by rw [State.held, hpc]; rfl)
    refine ⟨Function.update q p (q p ++ [node]), ⟨?_, ok_goto h.ok ?_⟩, fun a => ?_, rfl, rfl⟩
    · dsimp only
      rw [held_goto]
      exact hheld
    · exact hok
    · dsimp only
      rw [hpresent, held_goto]
      rfl
  | failed =>
    rw [hpc] at hok
    exact hok.elim

open Classical in
/-- The number of places of a node that is in at most one. -/
noncomputable def places (present : Prop) : Nat := if present then 1 else 0

theorem places_congr {P Q : Prop} (h : P ↔ Q) : places P = places Q := by
  rw [propext h]

/-- The node is in one place less after it left the only one it was in. -/
theorem places_or {P : N → Prop} {node : N} (hnode : ¬ P node) (a : N) :
    places (P a ∨ a = node) = places (P a) + [node].count a := by
  obtain rfl | hne := eq_or_ne a node
  · simp [places, hnode]
  · rw [places_congr (or_iff_left hne), List.count_eq_zero.mpr (by simpa using hne), Nat.add_zero]

omit [DecidableEq N] in
theorem inNoDeque_iff (h : Rep s.mem q) (node : N) : InNoDeque s node ↔ ∀ i, node ∉ q i := by
  constructor
  · intro hout i hmem
    exact hout i ⟨q i, h.path i, hmem⟩
  · rintro hout i ⟨l, hl, hmem⟩
    exact hout i ((h.path i).unique hl ▸ hmem)

/-- Whatever happens next, each node is in at most one place, and it has come in
as often as it has left or is there. -/
theorem Inv.step (h : Inv s q) {new : List (Event num_scheds N)} {s' : State num_scheds N}
    (hstep : Step Free s new s') :
    ∃ q', Inv s' q' ∧ ∀ a, places (Present q s.held a) + (new.filterMap entered).count a =
      (new.filterMap handed).count a + places (Present q' s'.held a) := by
  cases hstep with
  | call p hidle =>
    obtain ⟨hheld, hinv⟩ := h.goto p .start (by rw [hidle]; rfl) trivial
    refine ⟨q, hinv, fun a => ?_⟩
    rw [hheld]
    simp
  | act p =>
    obtain ⟨q', hinv, hpresent, hentered, hhanded⟩ := h.act p
    refine ⟨q', hinv, fun a => ?_⟩
    rw [hentered, hhanded, places_congr (hpresent a)]
    simp
  | schedule i node hfree =>
    have habsent : ¬ Present q s.held node := by
      rintro (⟨j, hj⟩ | ⟨p, hp⟩)
      · exact (inNoDeque_iff h.held.rep node).mp hfree.1 j hj
      · exact hfree.2 p hp
    obtain ⟨hheld, hpresent⟩ := h.held.push i habsent
    refine ⟨_, ⟨hheld, h.ok⟩, fun a => ?_⟩
    have hsum := places_or habsent a
    have hafter := places_congr (hpresent a)
    change _ = 0 + places (Present _ s.held a)
    rw [hafter, hsum, Nat.zero_add]
    rfl
  | get i =>
    cases hq : q i with
    | nil =>
      refine ⟨q, ⟨?_, ?_⟩, fun a => ?_⟩
      all_goals rw [sched_get_task, h.held.rep.pop_none hq]
      · exact h.held
      · exact h.ok
      · exact Nat.add_comm _ _
    | cons node l =>
      obtain ⟨m', hpop, hrep⟩ := h.held.rep.pop_some hq
      obtain ⟨hheld, habsent, hpresent⟩ := h.held.popped hq hrep
      have hget : sched_get_task s i = (some node, { s with mem := m' }) := by
        rw [sched_get_task, hpop]
      refine ⟨Function.update q i l, ⟨?_, ?_⟩, fun a => ?_⟩
      · rw [hget]
        exact hheld
      · rw [hget]
        exact h.ok
      · rw [places_congr (hpresent a), places_or habsent a, hget]
        exact (Nat.add_zero _).trans (Nat.add_comm _ _)

theorem Inv.run (h : Inv s q) {events : List (Event num_scheds N)} {s' : State num_scheds N}
    (hrun : Run Free s events s') :
    ∃ q', Inv s' q' ∧ ∀ a, places (Present q s.held a) + (events.filterMap entered).count a =
      (events.filterMap handed).count a + places (Present q' s'.held a) := by
  induction hrun with
  | start => exact ⟨q, h, fun a => Nat.add_comm _ _⟩
  | step _ hstep ih =>
    obtain ⟨q₁, hinv, hbefore⟩ := ih
    obtain ⟨q', hinv', hnew⟩ := hinv.step hstep
    refine ⟨q', hinv', fun a => ?_⟩
    have hb := hbefore a
    have hn := hnew a
    simp only [List.filterMap_append, List.count_append]
    omega

end step

/-- Processor `p` acts while the others stand still. -/
def State.alone (p : Fin num_scheds) :
    Nat → State num_scheds N → List (Event num_scheds N) × State num_scheds N
  | 0, s => ([], s)
  | k + 1, s =>
    let (events, s) := sched_load_balance p s
    let (rest, s) := s.alone p k
    (events ++ rest, s)

/-- Acting alone leads from one state to another. -/
def Leads (p : Fin num_scheds) (s : State num_scheds N) (events : List (Event num_scheds N))
    (s' : State num_scheds N) : Prop := ∃ k, s.alone p k = (events, s')

theorem Leads.refl (p : Fin num_scheds) (s : State num_scheds N) : Leads p s [] s := ⟨0, rfl⟩

theorem Leads.act {p : Fin num_scheds} {s s' s'' : State num_scheds N}
    {events rest : List (Event num_scheds N)} (hact : sched_load_balance p s = (events, s'))
    (hrest : Leads p s' rest s'') : Leads p s (events ++ rest) s'' := by
  obtain ⟨k, hk⟩ := hrest
  refine ⟨k + 1, ?_⟩
  rw [State.alone, hact]
  dsimp only
  rw [hk]

theorem Leads.trans {p : Fin num_scheds} {s s' s'' : State num_scheds N}
    {events rest : List (Event num_scheds N)} (h : Leads p s events s') (h' : Leads p s' rest s'') :
    Leads p s (events ++ rest) s'' := by
  obtain ⟨k, hk⟩ := h
  induction k generalizing s events with
  | zero =>
    obtain ⟨rfl, rfl⟩ := Prod.mk.inj hk
    exact h'
  | succ k ih =>
    rw [State.alone] at hk
    obtain ⟨rfl, rfl⟩ := Prod.mk.inj hk
    rw [List.append_assoc]
    exact Leads.act rfl (ih rfl)

section alone

variable {p : Fin num_scheds} {s : State num_scheds N} {q : Fin num_scheds → List N}

omit [DecidableEq N] in
theorem pc_goto (s : State num_scheds N) (p : Fin num_scheds) (pc : Pc N) :
    (s.goto p pc).pc p = pc := Function.update_self ..

/-- The first `k` nodes of deque `j` are moved behind those of `p`. -/
def moved (q : Fin num_scheds → List N) (p j : Fin num_scheds) (k : Nat) :
    Fin num_scheds → List N :=
  Function.update (Function.update q j ((q j).drop k)) p (q p ++ (q j).take k)

omit [DecidableEq N] in
theorem moved_self (q : Fin num_scheds → List N) (p j : Fin num_scheds) (k : Nat) :
    moved q p j k p = q p ++ (q j).take k := Function.update_self ..

omit [DecidableEq N] in
theorem moved_from (q : Fin num_scheds → List N) {p j : Fin num_scheds} (hj : j ≠ p) (k : Nat) :
    moved q p j k j = (q j).drop k := by
  rw [moved, Function.update_of_ne hj, Function.update_self]

omit [DecidableEq N] in
theorem moved_other (q : Fin num_scheds → List N) {p j r : Fin num_scheds} (hp : r ≠ p)
    (hj : r ≠ j) (k : Nat) : moved q p j k r = q r := by
  rw [moved, Function.update_of_ne hp, Function.update_of_ne hj]

/-- The inner loop moves as many nodes as it was told when so many are there. -/
theorem steal_alone {count num_steal : Int} {i k : Nat} (hne : index p i ≠ p)
    (hk : k ≤ (q (index p i)).length) (hsteal : num_steal.toNat = k) (hrep : Rep s.mem q)
    (hpc : s.pc p = .steal count i num_steal) :
    ∃ s', Leads p s [] s' ∧ s'.pc p = .loop count i ∧ Rep s'.mem (moved q p (index p i) k) := by
  induction k generalizing s q num_steal with
  | zero =>
    have hact : sched_load_balance p s = ([], s.goto p (.loop count i)) := by
      rw [sched_load_balance, hpc]
      dsimp only
      rw [if_neg (by omega)]
    refine ⟨s.goto p (.loop count i), Leads.act hact (Leads.refl p _), pc_goto .., ?_⟩
    have hsame : moved q p (index p i) 0 = q := by
      rw [moved, List.drop_zero, List.take_zero, List.append_nil, Function.update_eq_self,
        Function.update_eq_self]
    rw [hsame]
    exact hrep
  | succ k ih =>
    obtain ⟨node, l, hq⟩ := List.exists_cons_of_length_pos (Nat.lt_of_lt_of_le k.succ_pos hk)
    obtain ⟨m', hpop, hrep'⟩ := hrep.pop_some hq
    have hfree : Held s.mem q fun _ => none := ⟨hrep, by simp, by simp⟩
    obtain ⟨_, habsent, _⟩ := hfree.popped hq hrep'
    have hpushed := hrep'.push p _ fun j hj => habsent (Or.inl ⟨j, hj⟩)
    rw [Function.update_of_ne (Ne.symm hne)] at hpushed
    let s₁ := { s with mem := m' }.goto p (.keep count i (num_steal - 1) node)
    let s₂ := { s₁ with mem := lldq_push_tail m' p node }.goto p (.steal count i (num_steal - 1))
    have hone : Function.update (Function.update q (index p i) l) p (q p ++ [node]) =
        moved q p (index p i) 1 := by
      rw [moved, hq]
      rfl
    rw [hone] at hpushed
    have hlength : k ≤ (moved q p (index p i) 1 (index p i)).length := by
      rw [moved_from q hne, List.length_drop]
      omega
    obtain ⟨s', hleads, hpc', hrep''⟩ := ih (s := s₂) hlength (by omega) hpushed (pc_goto ..)
    have htake : sched_load_balance p s = ([], s₁) := by
      rw [sched_load_balance, hpc]
      dsimp only
      rw [if_pos (by omega), hpop]
    have hput : sched_load_balance p s₁ = ([], s₂) := by
      rw [sched_load_balance, pc_goto]
      rfl
    have htwo : moved (moved q p (index p i) 1) p (index p i) k = moved q p (index p i) (k + 1) := by
      funext r
      obtain rfl | hr := eq_or_ne r p
      · rw [moved_self, moved_self, moved_self, moved_from q hne, List.append_assoc, hq]
        rfl
      · obtain rfl | hj := eq_or_ne r (index p i)
        · rw [moved_from _ hr, moved_from _ hr, moved_from _ hr, List.drop_drop, Nat.add_comm]
        · rw [moved_other _ hr hj, moved_other _ hr hj, moved_other _ hr hj]
    exact ⟨s', Leads.act htake (Leads.act hput hleads), hpc', htwo ▸ hrep''⟩

/-- What a deque gives up to one that holds `count` tasks. -/
def share (q : Fin num_scheds → List N) (count : Nat) (j : Fin num_scheds) : Nat :=
  ((q j).length - count) / 2

omit [DecidableEq N] in
theorem share_congr {q' : Fin num_scheds → List N} {count : Nat} {j : Fin num_scheds}
    (h : q' j = q j) : share q' count j = share q count j := by
  rw [share, share, h]

/-- The deques that are looked at after `i`. -/
def visits (p : Fin num_scheds) (i d : Nat) : List (Fin num_scheds) :=
  (List.range d).map fun x => index p (i + 1 + x)

omit [DecidableEq N] in
theorem visits_succ (p : Fin num_scheds) (i d : Nat) :
    visits p i (d + 1) = index p (i + 1) :: visits p (i + 1) d := by
  rw [visits, List.range_succ_eq_map, List.map_cons, List.map_map]
  refine congrArg (_ :: ·) (List.map_congr_left fun x _ => ?_)
  exact congrArg (index p) (by omega)

theorem mem_visits {i d : Nat} {j : Fin num_scheds} :
    j ∈ visits p i d ↔ ∃ x < d, index p (i + 1 + x) = j := by
  simp [visits]

/-- No deque is looked at twice, and the processor's own not at all. -/
theorem visits_nodup {i d : Nat} (hi : p ≤ i) (hd : i + d ≤ p + num_scheds - 1) :
    (visits p i d).Nodup ∧ p ∉ visits p i d := by
  constructor
  · refine (List.nodup_range).map_on fun x hx y hy heq => ?_
    rw [List.mem_range] at hx hy
    have hsame := eq_of_mod_eq (a := i + 1 + x) (b := i + 1 + y) (congrArg Fin.val heq) (by omega)
      (by omega)
    omega
  · intro hmem
    obtain ⟨x, hx, heq⟩ := mem_visits.mp hmem
    refine index_ne (p := p) (i := i + x) (by omega) (by omega) ?_
    exact (congrArg (index p) (Nat.add_right_comm i x 1)).trans heq

/-- Every other deque is looked at. -/
theorem visits_all {j : Fin num_scheds} (hj : j ≠ p) : j ∈ visits p p (num_scheds - 1) := by
  have hne : (j : Nat) ≠ p := fun heq => hj (Fin.ext heq)
  refine mem_visits.mpr ?_
  obtain hlt | hgt := Nat.lt_or_gt_of_ne hne
  · refine ⟨j + num_scheds - p - 1, by omega, Fin.ext ?_⟩
    have hsum : (p : Nat) + 1 + (j + num_scheds - p - 1) = j + num_scheds := by omega
    rw [index, hsum]
    exact (Nat.add_mod_right _ _).trans (Nat.mod_eq_of_lt j.isLt)
  · refine ⟨j - p - 1, by omega, Fin.ext ?_⟩
    have hsum : (p : Nat) + 1 + (j - p - 1) = j := by omega
    rw [index, hsum]
    exact Nat.mod_eq_of_lt j.isLt

theorem toNat_tdiv (a : Int) : (a.tdiv 2).toNat = a.toNat / 2 := by
  obtain hpos | hneg := Int.le_total 0 a
  · rw [Int.tdiv_eq_ediv_of_nonneg hpos]
    omega
  · obtain ⟨b, rfl⟩ : ∃ b, a = -b := ⟨-a, by omega⟩
    rw [Int.neg_tdiv, Int.tdiv_eq_ediv_of_nonneg (by omega)]
    omega

/-- A deque is looked at, and the number of tasks to take from it is computed. -/
theorem look_alone {count i : Nat} (hi : i < p + num_scheds - 1) (hne : index p (i + 1) ≠ p)
    (hrep : Rep s.mem q) (hpc : s.pc p = .loop count i) :
    ∃ s' num_steal, sched_load_balance p s = ([.visit p (index p (i + 1))], s') ∧
      Rep s'.mem q ∧ s'.pc p = .steal count (i + 1) num_steal ∧
      num_steal.toNat = share q count (index p (i + 1)) := by
  have hact : sched_load_balance p s = ([.visit p (index p (i + 1))], s.goto p (.steal count (i + 1)
      (((s.mem.deque (index p (i + 1))).count - count).tdiv 2))) := by
    rw [sched_load_balance, hpc]
    dsimp only
    rw [if_pos hi, if_neg hne]
  refine ⟨_, _, hact, hrep, pc_goto .., ?_⟩
  rw [hrep.count, share, toNat_tdiv]
  omega

/-- The outer loop takes its share from each of the deques that are left to visit. -/
theorem loop_alone {count i d : Nat} (hi : p ≤ i) (hd : i + d = p + num_scheds - 1)
    (hrep : Rep s.mem q) (hpc : s.pc p = .loop count i) :
    ∃ s' q', Leads p s ((visits p i d).map (.visit p)) s' ∧ s'.pc p = .idle ∧ Rep s'.mem q' ∧
      q' p = q p ++ (visits p i d).flatMap (fun j => (q j).take (share q count j)) ∧
      (∀ j ∈ visits p i d, q' j = (q j).drop (share q count j)) ∧
      ∀ j, j ≠ p → j ∉ visits p i d → q' j = q j := by
  induction d generalizing s q i with
  | zero =>
    have hact : sched_load_balance p s = ([], s.goto p .idle) := by
      rw [sched_load_balance, hpc]
      dsimp only
      rw [if_neg (by omega)]
    refine ⟨s.goto p .idle, q, Leads.act hact (Leads.refl p _), pc_goto .., hrep, ?_, ?_, ?_⟩
    · exact (List.append_nil _).symm
    · intro j hj
      cases hj
    · exact fun _ _ _ => rfl
  | succ d ih =>
    obtain ⟨hnodup, hself⟩ := visits_nodup (d := d + 1) hi (Nat.le_of_eq hd)
    rw [visits_succ] at hnodup hself ⊢
    obtain ⟨hfirst, _⟩ := List.nodup_cons.mp hnodup
    have hne : index p (i + 1) ≠ p := fun heq => hself (heq ▸ List.mem_cons_self)
    have hpnot : p ∉ visits p (i + 1) d := fun hmem => hself (List.mem_cons_of_mem _ hmem)
    have hshare : share q count (index p (i + 1)) ≤ (q (index p (i + 1))).length :=
      Nat.le_trans (Nat.div_le_self _ _) (Nat.sub_le _ _)
    obtain ⟨s₁, num_steal, hlook, hrep₁, hpc₁, hnum⟩ := look_alone (by omega) hne hrep hpc
    obtain ⟨s₂, hsteal, hpc₂, hrep₂⟩ := steal_alone hne hshare hnum hrep₁ hpc₁
    obtain ⟨s', q', hleads, hidle, hrep', hown, hvisited, hother⟩ :=
      ih (Nat.le_succ_of_le hi) (by omega) hrep₂ hpc₂
    have hkeep : ∀ r ∈ visits p (i + 1) d,
        moved q p (index p (i + 1)) (share q count (index p (i + 1))) r = q r := by
      intro r hr
      refine moved_other q ?_ ?_ _
      · exact fun heq => hpnot (heq ▸ hr)
      · exact fun heq => hfirst (heq ▸ hr)
    refine ⟨s', q', Leads.act hlook (hsteal.trans hleads), hidle, hrep', ?_, ?_, ?_⟩
    · rw [hown, moved_self, List.flatMap_cons, List.append_assoc]
      refine congrArg (q p ++ ·) (congrArg (_ ++ ·) (List.flatMap_congr fun r hr => ?_))
      rw [share_congr (hkeep r hr), hkeep r hr]
    · intro r hr
      obtain rfl | hr := List.mem_cons.mp hr
      · rw [hother _ hne hfirst, moved_from q hne]
      · rw [hvisited r hr, share_congr (hkeep r hr), hkeep r hr]
    · intro r hr hnot
      rw [List.mem_cons, not_or] at hnot
      rw [hother r hr hnot.2, moved_other q hr hnot.1]

end alone

/-- Processors balance their load and schedule and fetch tasks in any order, and a
task is only scheduled while it is in no deque and on no way to one. Then each
task is in one place at most, and it has come in as often as it has left or is
there; the counts are the lengths, and no assertion fails. A call that runs alone
looks at each other deque once, takes at most half of what it has more than the
caller had, and puts it behind the caller's own tasks. -/
theorem load_balance_conserves {s₀ : State num_scheds N} {q₀ : Fin num_scheds → List N}
    (hrep₀ : Rep s₀.mem q₀) (hidle : ∀ p, s₀.pc p = .idle) :
    (∀ events s, Run Free s₀ events s → (∀ p, s.pc p ≠ .failed) ∧
      ∃ q, Held s.mem q s.held ∧
        ∀ a, places (∃ i, a ∈ q₀ i) + (events.filterMap entered).count a =
          (events.filterMap handed).count a + places (Present q s.held a)) ∧
    ∀ (s : State num_scheds N) q p, Rep s.mem q → s.pc p = .start →
      ∃ s' q', ∃ visited : List (Fin num_scheds), Leads p s (visited.map (.visit p)) s' ∧
        s'.pc p = .idle ∧ Rep s'.mem q' ∧ visited.Nodup ∧ (∀ j, j ∈ visited ↔ j ≠ p) ∧
        q' p = q p ++ visited.flatMap (fun j => (q j).take (share q (q p).length j)) ∧
        ∀ j, j ≠ p → q' j = (q j).drop (share q (q p).length j) ∧
          2 * share q (q p).length j ≤ (q j).length - (q p).length := by
  constructor
  · intro events s hrun
    have hnone : s₀.held = fun _ => none := by
      funext p
      rw [State.held, hidle]
      rfl
    have hinv : Inv s₀ q₀ := by
      refine ⟨⟨hrep₀, ?_, ?_⟩, fun p => ?_⟩
      · simp [hnone]
      · simp [hnone]
      · rw [hidle]
        trivial
    obtain ⟨q, hinv', hcount⟩ := hinv.run hrun
    refine ⟨fun p hfailed => ?_, q, hinv'.held, fun a => ?_⟩
    · have hok := hinv'.ok p
      rw [hfailed] at hok
      exact hok
    · rw [← hcount, places_congr (Q := Present q₀ s₀.held a)]
      simp [Present, hnone]
  · intro s q p hrep hstart
    let s₁ := s.goto p (.loop (q p).length p)
    have hact : sched_load_balance p s = ([], s₁) := by
      rw [sched_load_balance, hstart]
      dsimp only
      rw [hrep.count]
    have hpos := p.pos
    obtain ⟨s', q', hleads, hdone, hrep', hown, hvisited, _⟩ := loop_alone (s := s₁) (q := q)
      (d := num_scheds - 1) (Nat.le_refl p) (by omega) hrep (pc_goto ..)
    obtain ⟨hnodup, hself⟩ := visits_nodup (d := num_scheds - 1) (Nat.le_refl p) (by omega)
    refine ⟨s', q', _, Leads.act hact hleads, hdone, hrep', hnodup, fun j => ⟨?_, visits_all⟩,
      hown, fun j hj => ⟨hvisited j (visits_all hj), Nat.mul_div_le _ _⟩⟩
    intro hmem heq
    exact hself (heq ▸ hmem)

/-- The schedulers as they are set up. -/
def initial (num_scheds : Nat) : State num_scheds N :=
  ⟨init_scheduler num_scheds fun i => ⟨0, .inl i, .inl i⟩, fun _ => .idle⟩

/-- One of three tasks moves to the processor that has none. -/
theorem load_balance_conserves_three :
    ∃ s' q', Leads 0 ((schedule (schedule (schedule (initial 2) 1 7) 1 8) 1 9).goto 0 .start)
        [.visit 0 1] s' ∧ Rep s'.mem q' ∧ q' 0 = [7] ∧ q' 1 = [8, 9] := by
  have hrep := ((((rep_init 2 fun i => ⟨0, .inl i, .inl i⟩).push 1 7 (by simp)).push 1 8
    (by simp [Fin.forall_fin_two])).push 1 9 (by simp [Fin.forall_fin_two]))
  obtain ⟨s', q', visited, hleads, _, hrep', hnodup, hmem, hown, hother⟩ :=
    (load_balance_conserves
      (show Rep (schedule (schedule (schedule (initial 2) 1 7) 1 8) 1 9).mem _ from hrep)
      (fun _ => rfl)).2 ((schedule (schedule (schedule (initial 2) 1 7) 1 8) 1 9).goto 0 .start) _ 0
      hrep rfl
  have hvisited : visited = [1] := by
    refine List.perm_singleton.mp ((List.perm_ext_iff_of_nodup hnodup (by simp)).mpr fun j => ?_)
    rw [hmem, List.mem_singleton]
    omega
  subst hvisited
  refine ⟨s', q', hleads, hrep', ?_, ?_⟩
  · simpa [share] using hown
  · simpa [share] using (hother 1 (by decide)).1

theorem Run.alone {may : State num_scheds N → N → Prop} {s₀ s : State num_scheds N}
    {events : List (Event num_scheds N)} (hrun : Run may s₀ events s) (p : Fin num_scheds) (k : Nat) :
    Run may s₀ (events ++ (s.alone p k).1) (s.alone p k).2 := by
  induction k generalizing s events with
  | zero => exact (List.append_nil events).symm ▸ hrun
  | succ k ih =>
    rw [State.alone]
    dsimp only
    rw [← List.append_assoc]
    exact ih (hrun.step (.act p))

/-- The first processor has taken a task out of the second deque. -/
def taken : State 2 Nat :=
  (((schedule (schedule (initial 2) 1 7) 1 8).goto 0 .start).alone 0 3).2

/-- A task that is on its way from one deque to another is in none. When it is
scheduled then, it comes into both. -/
theorem not_load_balance_conserves :
    ∃ events s, Run InNoDeque (initial 2 : State 2 Nat) events s ∧ s.InDeque 0 7 ∧
      s.InDeque 1 7 := by
  have hempty : ∀ i, ¬ (initial 2 : State 2 Nat).InDeque i 7 :=
    (inNoDeque_iff (rep_init 2 _) 7).mpr (by simp)
  have hfirst : Rep (schedule (initial 2) 1 7 : State 2 Nat).mem _ :=
    (rep_init 2 fun i => ⟨0, .inl i, .inl i⟩).push 1 7 (by simp)
  have hother : InNoDeque (schedule (initial 2) 1 7 : State 2 Nat) 8 :=
    (inNoDeque_iff hfirst 8).mpr (by simp [Fin.forall_fin_two])
  have hrun := ((((show Run InNoDeque (initial 2 : State 2 Nat) [] _ from .start).step (.schedule 1 7 hempty)).step
    (.schedule 1 8 hother)).step (.call 0 rfl)).alone 0 3
  have hleft : Path taken.mem.next (.inl 0) [] := rfl
  have hright : Path taken.mem.next (.inl 1) [8] := ⟨rfl, rfl⟩
  have hout : InNoDeque taken 7 := by
    refine Fin.forall_fin_two.mpr ⟨?_, ?_⟩
    · rintro ⟨l, hl, hmem⟩
      rw [← hleft.unique hl] at hmem
      cases hmem
    · rintro ⟨l, hl, hmem⟩
      rw [← hright.unique hl] at hmem
      simp at hmem
  refine ⟨_, _, (hrun.step (.schedule 1 7 hout)).step (.act 0), ?_, ?_⟩
  · exact ⟨[7], ⟨rfl, rfl⟩, by simp⟩
  · exact ⟨[8, 7], ⟨rfl, rfl, rfl⟩, by simp⟩

end koala.balance
