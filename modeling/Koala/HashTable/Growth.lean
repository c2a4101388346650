import Koala.HashTable.Map

set_option linter.style.nameCheck false

open intrusive koala.list

namespace koala.hashtable

theorem good_primes_length : good_primes.length = 28 := rfl

theorem loop_spec (nr_nodes left i : Nat) :
    let r := get_proper_prime_index.loop nr_nodes left i
    i ≤ r ∧ r ≤ i + left ∧ (∀ j, i ≤ j → j < r → belowLoad nr_nodes (get_prime j) = false) ∧
      (r < i + left → belowLoad nr_nodes (get_prime r) = true) := by
  induction left generalizing i with
  | zero =>
    refine ⟨Nat.le_refl i, Nat.le_refl i, fun j hij hji => ?_, fun hlt => ?_⟩
    · exact absurd (Nat.lt_of_le_of_lt hij hji) (Nat.lt_irrefl i)
    · exact absurd hlt (Nat.lt_irrefl i)
  | succ left ih =>
    dsimp only [get_proper_prime_index.loop]
    by_cases hload : belowLoad nr_nodes (get_prime i) = true
    · rw [if_pos hload]
      refine ⟨Nat.le_refl i, Nat.le_add_right i _, fun j hij hji => ?_, fun _ => hload⟩
      exact absurd (Nat.lt_of_le_of_lt hij hji) (Nat.lt_irrefl i)
    · rw [if_neg hload]
      obtain ⟨hle, hbound, hskipped, hfound⟩ := ih (i + 1)
      refine ⟨Nat.le_of_succ_le hle, by omega, fun j hij hjr => ?_, fun hlt => hfound (by omega)⟩
      obtain rfl | hne := eq_or_ne i j
      · exact Bool.eq_false_iff.mpr hload
      · exact hskipped j (by omega) hjr

/-- The smallest index that is not below `prime_index` and whose prime takes the
nodes, or the last index when there is none. -/
def Proper (prime_index nr_nodes i : Nat) : Prop :=
  prime_index ≤ i ∧ i < good_primes.length ∧
    (∀ j, prime_index ≤ j → j < i → ¬ 20 * nr_nodes < 13 * get_prime j) ∧
    (20 * nr_nodes < 13 * get_prime i ∨ i = good_primes.length - 1 ∧
      ∀ j, prime_index ≤ j → j < good_primes.length → ¬ 20 * nr_nodes < 13 * get_prime j)

theorem get_proper_prime_index_spec {prime_index : Nat} (hindex : prime_index < good_primes.length)
    (nr_nodes : Nat) :
    Proper prime_index nr_nodes (get_proper_prime_index prime_index nr_nodes) := by
  obtain ⟨hle, hbound, hskipped, hfound⟩ :=
    loop_spec nr_nodes (good_primes.length - prime_index) prime_index
  have hfull : ∀ j, prime_index ≤ j →
      j < get_proper_prime_index.loop nr_nodes (good_primes.length - prime_index) prime_index →
      ¬ 20 * nr_nodes < 13 * get_prime j := by
    intro j hij hj
    exact of_decide_eq_false (hskipped j hij hj)
  dsimp only [Proper, get_proper_prime_index]
  by_cases hend : get_proper_prime_index.loop nr_nodes (good_primes.length - prime_index)
      prime_index ≥ good_primes.length
  · rw [if_pos hend]
    refine ⟨by omega, by omega, fun j hij hj => hfull j hij (by omega), Or.inr ⟨rfl, ?_⟩⟩
    exact fun j hij hj => hfull j hij (Nat.lt_of_lt_of_le hj hend)
  · rw [if_neg hend]
    refine ⟨hle, by omega, hfull, Or.inl ?_⟩
    exact of_decide_eq_true (hfound (by omega))

section sized

variable {ν κ : Type} [DecidableEq ν]

/-- A table with the length of its array, which is the argument of the call of
`new_entries` that made it. -/
structure Sized (ν : Type) where
  table : HashTable ν
  nr_entries : Nat

def Sized.init : Sized ν := ⟨HashTable_Init, get_prime 0⟩

omit [DecidableEq ν] in
/-- The length of the array behind `htable_maybe_expand`. -/
def Sized.expanded (s : Sized ν) : Nat :=
  if s.table.prime_index ≥ good_primes.length then s.nr_entries
  else if belowLoad s.table.nr_nodes (get_entries_size s.table) then s.nr_entries
  else
    let new_prime_index := get_proper_prime_index s.table.prime_index s.table.nr_nodes
    if new_prime_index ≤ s.table.prime_index then s.nr_entries else get_prime new_prime_index

variable (key : ν → κ) (hash : κ → Nat) (equal : κ → κ → Bool)

def Sized.step (s : Sized ν) (op : Op ν κ) : Option (Sized ν × Answer ν) := do
  let (t, a) ← s.table.step key hash equal op
  match op, a with
  -- only an insertion that succeeds comes to `htable_maybe_expand`
  | .insert _, .code 0 => some (⟨t, s.expanded⟩, a)
  | _, _ => some (⟨t, s.nr_entries⟩, a)

def Sized.run (s : Sized ν) : List (Op ν κ) → Option (Sized ν × List (Answer ν))
  | [] => some (s, [])
  | op :: ops => do
    let (s, a) ← s.step key hash equal op
    let (s, as) ← s.run ops
    some (s, a :: as)

/-- The array has the length that the index says, and its heads start the chains of
the nodes. -/
structure Grown (s : Sized ν) (b : Buckets ν) : Prop where
  rep : Rep key hash s.table b
  size : s.nr_entries = get_prime s.table.prime_index

end sized

section step

variable {ν κ : Type} [DecidableEq ν] {key : ν → κ} {hash : κ → Nat} {equal : κ → κ → Bool}
  {s : Sized ν} {b : Buckets ν}

variable (key hash) in
omit [DecidableEq ν] in
/-- Behind `htable_maybe_expand` the nodes are below the load, or the last prime is in use. -/
theorem maybe_expand_load {b : Buckets ν} (hb : b.prime_index < good_primes.length) :
    let b' := b.maybe_expand key hash
    b.prime_index ≤ b'.prime_index ∧ b'.order = b.order ∧
      (20 * b.order.length < 13 * get_prime b'.prime_index ∨
        b'.prime_index = good_primes.length - 1) := by
  obtain ⟨hle, hlt, _, hload⟩ := get_proper_prime_index_spec hb b.order.length
  dsimp only [Buckets.maybe_expand]
  rw [if_neg (Nat.not_le.mpr hb)]
  by_cases hbelow : belowLoad b.order.length b.nr_entries = true
  · rw [if_pos hbelow]
    exact ⟨Nat.le_refl _, rfl, Or.inl (of_decide_eq_true hbelow)⟩
  · rw [if_neg hbelow]
    by_cases hsame : get_proper_prime_index b.prime_index b.order.length ≤ b.prime_index
    · rw [if_pos hsame]
      have heq := Nat.le_antisymm hsame hle
      rw [heq] at hload
      refine ⟨Nat.le_refl _, rfl, Or.inr (hload.resolve_left fun h => ?_).1⟩
      exact hbelow (decide_eq_true h)
    · rw [if_neg hsame]
      exact ⟨hle, rfl, hload.imp_right And.left⟩

omit [DecidableEq ν] in
theorem Grown.expanded (h : Grown key hash s b) :
    s.expanded = get_prime (b.maybe_expand key hash).prime_index := by
  rw [Sized.expanded, Buckets.maybe_expand, h.rep.prime_index, h.rep.nr_nodes, h.rep.size_eq, h.size,
    h.rep.prime_index]
  split
  · rfl
  split
  · rfl
  dsimp only
  split <;> rfl

variable (equal) in
/-- Whatever node is removed, the array stays. -/
theorem Rep.remove {t : HashTable ν} (h : Rep key hash t b) (n : ν) :
    ∃ r t' b', HashTable_Remove key equal t n = some (r, t') ∧ Rep key hash t' b' ∧
      b'.prime_index = b.prime_index := by
  by_cases hn : n ∈ b.order
  · have hlinked : hlist_unhashed t.hlink n = false := by
      simpa [hlist_unhashed] using (h.isLinked_iff n).mpr hn
    have hfind := h.find_eq equal (t.hash n) (key n)
    by_cases hsame : b.find key equal (t.hash n) (key n) = some n
    · refine ⟨0, _, _, ?_, h.unlink hn, rfl⟩
      simp [HashTable_Remove, hlinked, hfind, hsame]
    · refine ⟨-1, t, b, ?_, h, rfl⟩
      simp [HashTable_Remove, hlinked, hfind, hsame]
  · have hunlinked : hlist_unhashed t.hlink n = true := by
      simpa [hlist_unhashed] using mt (h.isLinked_iff n).mp hn
    exact ⟨-1, t, b, by simp [HashTable_Remove, hunlinked], h, rfl⟩

variable (equal) in
/-- A call keeps the array and its index in step, and the index does not fall.
After an insertion that succeeds the nodes without the new one are below the
load, or the last prime is in use. -/
theorem Grown.step (h : Grown key hash s b) (op : Op ν κ) :
    ∃ s' b' a, s.step key hash equal op = some (s', a) ∧ Grown key hash s' b' ∧
      s.table.prime_index ≤ s'.table.prime_index ∧
      ∀ n, op = .insert n → a = .code 0 →
        20 * s'.table.nr_nodes < 13 * s'.nr_entries + 20 ∨
          s'.table.prime_index = good_primes.length - 1 := by
  cases op with
  | find k =>
    have hfind := h.rep.find_eq equal (hash k) k
    refine ⟨s, b, .node (b.find key equal (hash k) k), ?_, h, Nat.le_refl _, by simp⟩
    rw [Sized.step, HashTable.step, HashTable_Find, hfind]
    rfl
  | remove n =>
    obtain ⟨r, t', b', hremove, hrep, hindex⟩ := Rep.remove equal h.rep n
    have hsame : t'.prime_index = s.table.prime_index := by
      rw [hrep.prime_index, hindex, h.rep.prime_index]
    refine ⟨⟨t', s.nr_entries⟩, b', .code r, ?_, ⟨hrep, ?_⟩, Nat.le_of_eq hsame.symm, by simp⟩
    · rw [Sized.step, HashTable.step, hremove]
      rfl
    · rw [h.size, ← hsame]
  | insert n =>
    by_cases hn : n ∈ b.order
    · have hinsert := @Rep.insert_linked _ _ key hash equal _ _ _ h.rep _ hn
      refine ⟨s, b, .code (-1), ?_, h, Nat.le_refl _, fun _ _ hcode => ?_⟩
      · rw [Sized.step, HashTable.step, hinsert]
        rfl
      · cases hcode
    · obtain ⟨r, t', hinsert, hcase⟩ := h.rep.insert_unlinked equal hn
      cases hb : b.insert key hash equal n with
      | none =>
        rw [hb] at hcase
        obtain ⟨rfl, hrep⟩ := hcase
        have hsame : t'.prime_index = s.table.prime_index := by
          rw [hrep.prime_index, h.rep.prime_index]
        refine ⟨⟨t', s.nr_entries⟩, b, .code (-1), ?_, ⟨hrep, ?_⟩, Nat.le_of_eq hsame.symm,
          fun _ _ hcode => ?_⟩
        · rw [Sized.step, HashTable.step, hinsert]
          rfl
        · rw [h.size, ← hsame]
        · cases hcode
      | some b' =>
        rw [hb] at hcase
        obtain ⟨rfl, hrep⟩ := hcase
        obtain ⟨hle, horder, hload⟩ := maybe_expand_load key hash
          h.rep.wf.prime_index_lt
        have hindex : b'.prime_index = (b.maybe_expand key hash).prime_index := by
          rw [Buckets.insert] at hb
          split at hb
          · cases hb
          · rw [← Option.some.inj hb]
        have hcount : b'.order.length = b.order.length + 1 := by
          rw [(h.rep.wf.insert hb).2.1, List.length_append, List.length_singleton]
        refine ⟨⟨t', s.expanded⟩, b', .code 0, ?_, ⟨hrep, ?_⟩, ?_, fun _ _ _ => ?_⟩
        · rw [Sized.step, HashTable.step, hinsert]
          rfl
        · rw [h.expanded, hrep.prime_index, hindex]
        · rw [hrep.prime_index, hindex, h.rep.prime_index]
          exact hle
        · dsimp only
          rw [h.expanded, hrep.prime_index, hindex, hrep.nr_nodes, hcount]
          exact hload.imp_left (by omega)

variable (equal) in
theorem Grown.run (h : Grown key hash s b) (ops : List (Op ν κ)) :
    ∃ s' b' as, s.run key hash equal ops = some (s', as) ∧ Grown key hash s' b' := by
  induction ops generalizing s b with
  | nil => exact ⟨s, b, [], rfl, h⟩
  | cons op ops ih =>
    obtain ⟨s₁, b₁, a, hstep, hgrown, _, _⟩ := h.step equal op
    obtain ⟨s', b', as, hrun, hgrown'⟩ := ih hgrown
    refine ⟨s', b', a :: as, ?_, hgrown'⟩
    rw [Sized.run, hstep]
    simp [hrun]

end step

/-- After any calls the index is one of a prime, the array has that prime as its
length, and the next call finds the proper index, does not lower it, and leaves
room below the load unless the last prime is in use. -/
theorem hash_table_growth {ν κ : Type} [DecidableEq ν] (key : ν → κ) (hash : κ → Nat)
    (equal : κ → κ → Bool) (ops : List (Op ν κ)) :
    ∃ s as, Sized.init.run key hash equal ops = some (s, as) ∧
      s.table.prime_index < good_primes.length ∧ s.nr_entries = get_prime s.table.prime_index ∧
      (∀ i < s.nr_entries, ∃ l, s.table.hlink.Chain (.inl (s.table.entries, i)) l) ∧
      Proper s.table.prime_index s.table.nr_nodes
        (get_proper_prime_index s.table.prime_index s.table.nr_nodes) ∧
      ∀ op, ∃ s' a, s.step key hash equal op = some (s', a) ∧
        s.table.prime_index ≤ s'.table.prime_index ∧
        ∀ n, op = .insert n → a = .code 0 →
          20 * s'.table.nr_nodes < 13 * s'.nr_entries + 20 ∨
            s'.table.prime_index = good_primes.length - 1 := by
  have hinit : Grown key hash Sized.init Buckets.init := ⟨rep_init, rfl⟩
  obtain ⟨s, b, as, hrun, hgrown⟩ := hinit.run equal ops
  have hindex : s.table.prime_index < good_primes.length := by
    rw [hgrown.rep.prime_index]
    exact hgrown.rep.wf.prime_index_lt
  refine ⟨s, as, hrun, hindex, hgrown.size, fun i hi => ?_,
    get_proper_prime_index_spec hindex s.table.nr_nodes, fun op => ?_⟩
  · rw [hgrown.size, hgrown.rep.prime_index] at hi
    exact ⟨b.chain i, hgrown.rep.chains.chain (s.table.entries, i) ⟨rfl, hi⟩⟩
  · obtain ⟨s', _, a, hstep, _, hle, hload⟩ := hgrown.step equal op
    exact ⟨s', a, hstep, hle, hload⟩

end koala.hashtable
