import Koala.HashTable.Model
import Mathlib.Data.List.Perm.Subperm

set_option linter.style.nameCheck false

open intrusive koala.list

namespace koala.hashtable

variable {ν κ : Type} {key : ν → κ} {hash : κ → Nat} {equal : κ → κ → Bool}

/-- The bucket heads in use. -/
def HashTable.InUse (entries nr_entries : Nat) (h : Nat × Nat) : Prop :=
  h.1 = entries ∧ h.2 < nr_entries

/-- The links of a table spell out bucket contents `b`: one chain for each
bucket, the order list around the table's head, and nothing else linked. -/
structure Rep (key : ν → κ) (hash : κ → Nat) (t : HashTable ν) (b : Buckets ν) : Prop where
  wf : b.WF key hash
  prime_index : t.prime_index = b.prime_index
  nr_nodes : t.nr_nodes = b.order.length
  ring : t.llink.Ring none (b.order.map some)
  chains : t.hlink.Chains (HashTable.InUse t.entries b.nr_entries) fun h => b.chain h.2
  hashed : ∀ n ∈ b.order, t.hash n = hash (key n)

theorem Rep.size_eq {t : HashTable ν} {b : Buckets ν} (h : Rep key hash t b) :
    get_entries_size t = b.nr_entries := by
  rw [get_entries_size, h.prime_index, Buckets.nr_entries]

theorem Rep.order_nodup {t : HashTable ν} {b : Buckets ν} (h : Rep key hash t b) :
    b.order.Nodup := List.Nodup.of_map some h.ring.members_nodup

theorem Rep.inUse {t : HashTable ν} {b : Buckets ν} (h : Rep key hash t b) (i : Nat) :
    HashTable.InUse t.entries b.nr_entries (t.entries, i % b.nr_entries) :=
  ⟨rfl, Nat.mod_lt i h.wf.nr_entries_pos⟩

/-- Linked nodes are the nodes of the table. -/
theorem Rep.isLinked_iff {t : HashTable ν} {b : Buckets ν} (h : Rep key hash t b) (n : ν) :
    (t.hlink.pprev n).isSome = true ↔ n ∈ b.order := by
  rw [h.chains.linked, h.wf.mem_order_iff]
  constructor
  · rintro ⟨c, _, hn⟩
    rwa [← h.wf.place c.2 n hn]
  · exact fun hn => ⟨_, h.inUse _, hn⟩

theorem Rep.chain_length_le {t : HashTable ν} {b : Buckets ν} (h : Rep key hash t b)
    {i : Nat} (hi : i < b.nr_entries) : (b.chain i).length ≤ t.nr_nodes := by
  rw [h.nr_nodes]
  refine (List.subperm_of_subset (h.chains.nodup (t.entries, i) ⟨rfl, hi⟩) ?_).length_le
  exact fun n hn => (h.wf.mem_order n).mpr ⟨i, hn⟩

theorem rep_init [DecidableEq ν] : Rep key hash (HashTable_Init : HashTable ν) Buckets.init where
  wf := Buckets.wf_init
  prime_index := rfl
  nr_nodes := rfl
  ring := init_list_head_ring _ _
  chains := by
    refine ⟨?_, ?_, ?_, ?_⟩
    · intro h hh
      simp [Buckets.init, HashTable_Init, new_entries]
    · simp [Buckets.init]
    · simp [Buckets.init]
    · simp [Buckets.init, HashTable_Init, new_entries]
  hashed := by simp [Buckets.init]

/-- Following the chain of a cell finds its first node with an equal key. -/
theorem find_loop_eq {m : Cells (Nat × Nat) ν} {k : κ} {c : (Nat × Nat) ⊕ ν} {l : List ν}
    (h : m.Chain c l) {fuel : Nat} (hfuel : l.length ≤ fuel) :
    __HashTable_Find.loop key equal m k fuel (m.read c) =
      some (l.find? fun x => equal (key x) k) := by
  induction l generalizing c fuel with
  | nil =>
    rw [Cells.chain_nil] at h
    rw [h, __HashTable_Find.loop]
    rfl
  | cons n l ih =>
    obtain ⟨hread, _, hrest⟩ := h
    cases fuel with
    | zero => simp at hfuel
    | succ fuel =>
      have hlength : l.length ≤ fuel := by simpa using hfuel
      have htail := ih hrest hlength
      rw [Cells.read_inr] at htail
      rw [hread, __HashTable_Find.loop]
      cases heq : equal (key n) k with
      | true => simp [heq]
      | false => simp [heq, htail]

variable (equal) in
theorem Rep.find_eq {t : HashTable ν} {b : Buckets ν} (h : Rep key hash t b) (hk : Nat) (k : κ) :
    __HashTable_Find key equal t hk k = some (b.find key equal hk k) := by
  have huse := h.inUse hk
  rw [__HashTable_Find, h.size_eq]
  exact find_loop_eq (h.chains.chain _ huse) (h.chain_length_le huse.2)

variable [DecidableEq ν]

variable (key hash) in
/-- Moving one bucket empties it and pushes its nodes, in chain order, to the
new array. -/
theorem moveChain_eq {m : Cells (Nat × Nat) ν} {hashes : ν → Nat} {S : Nat × Nat → Prop}
    {old fresh n i : Nat} {f g : Nat → List ν} (hn : 0 < n) (hne : old ≠ fresh)
    (hS : ∀ j, j < n → S (fresh, j)) (hi : S (old, i)) (hhash : ∀ x ∈ f i, hashes x = hash (key x))
    (h : m.Chains S fun c => if c.1 = old then f c.2 else g c.2)
    (hold : ∀ c, S c → c.1 = old ∨ c.1 = fresh)
    {fuel : Nat} (hfuel : (f i).length ≤ fuel) :
    ∃ m', htable_expand.moveChain hashes fresh n fuel m (m.first (old, i)) = some m' ∧
      m'.Chains S fun c => if c.1 = old then Function.update f i [] c.2
        else (f i).foldl (Buckets.push key hash n) g c.2 := by
  generalize hl : f i = l at hhash hfuel
  induction l generalizing m f g fuel with
  | nil =>
    have hread := (h.chain (old, i) hi).read_eq
    simp only [if_true, hl, Cells.read_inl, List.head?_nil] at hread
    refine ⟨m, by rw [hread, htable_expand.moveChain], ?_⟩
    have hsame : Function.update f i [] = f := by rw [← hl, Function.update_eq_self]
    simpa [hsame] using h
  | cons x l ih =>
    have hread := (h.chain (old, i) hi).read_eq
    simp only [if_true, hl, Cells.read_inl, List.head?_cons] at hread
    have hchain := h.chain (old, i) hi
    simp only [if_true, hl] at hchain
    have hnext : m.next x = l.head? := hchain.2.2.read_eq
    cases fuel with
    | zero => simp at hfuel
    | succ fuel =>
      have hx : hashes x = hash (key x) := hhash x (by simp)
      have hfresh : (fresh, hash (key x) % n) ≠ (old, i) := fun heq => hne (Prod.mk.inj heq).1.symm
      -- The node leaves the old bucket and then enters the new one.
      have hdel := hlist_del_chains h (n := x) (h := (old, i)) (l := []) (r := l) hi (by simp [hl])
      have hxout : ∀ c, S c → x ∉ Function.update
          (fun c : Nat × Nat => if c.1 = old then f c.2 else g c.2) (old, i) ([] ++ l) c := by
        intro c hc hmem
        have hnone : ((hlist_del m x).pprev x).isSome = true := (hdel.linked x).mpr ⟨c, hc, hmem⟩
        rw [hlist_del_pprev_self m hchain.2.1] at hnone
        cases hnone
      have hadd := hlist_add_chains hdel (hS _ (Nat.mod_lt (hash (key x)) hn)) hxout
      have hchains : (hlist_add (hlist_del m x) x (fresh, hash (key x) % n)).Chains S
          fun c => if c.1 = old then Function.update f i l c.2
            else Buckets.push key hash n g x c.2 := by
        refine hadd.congr ?_
        rintro ⟨a, j⟩ hc
        rcases hold (a, j) hc with rfl | rfl
        · rw [Function.update_of_ne (fun heq => hne (Prod.mk.inj heq).1)]
          by_cases hj : j = i
          · subst hj
            simp
          · simp [Function.update_of_ne, hj]
        · by_cases hj : j = hash (key x) % n
          · subst hj
            rw [Function.update_self, Function.update_of_ne hfresh]
            simp [Ne.symm hne, Buckets.push]
          · rw [Function.update_of_ne (fun heq => hj (Prod.mk.inj heq).2),
              Function.update_of_ne (fun heq => hne (Prod.mk.inj heq).1.symm)]
            simp [Ne.symm hne, Buckets.push, hj]
      have hheadNext : (hlist_add (hlist_del m x) x (fresh, hash (key x) % n)).first (old, i) =
          l.head? := by
        have hread' := (hchains.chain (old, i) hi).read_eq
        simpa using hread'
      have hlength : l.length ≤ fuel := by simpa using hfuel
      obtain ⟨m', hmove, hm'⟩ := ih hchains (f := Function.update f i l) (by simp)
        (fun y hy => hhash y (List.mem_cons_of_mem x hy)) hlength
      refine ⟨m', ?_, ?_⟩
      · rw [hread, htable_expand.moveChain, hx, hnext, ← hheadNext]
        exact hmove
      · simpa using hm'

variable (key hash) in
theorem moveAll_eq {t : HashTable ν} {m : Cells (Nat × Nat) ν} {S : Nat × Nat → Prop}
    {fresh n : Nat} {is : List Nat} {f g : Nat → List ν} (hn : 0 < n) (hne : t.entries ≠ fresh)
    (hS : ∀ j, j < n → S (fresh, j)) (hi : ∀ i ∈ is, S (t.entries, i))
    (hhash : ∀ i ∈ is, ∀ x ∈ f i, t.hash x = hash (key x)) (hnodup : is.Nodup)
    (h : m.Chains S fun c => if c.1 = t.entries then f c.2 else g c.2)
    (hold : ∀ c, S c → c.1 = t.entries ∨ c.1 = fresh)
    (hfuel : ∀ i ∈ is, (f i).length ≤ t.nr_nodes) :
    ∃ m', htable_expand.moveAll t fresh n is m = some m' ∧
      m'.Chains S fun c => if c.1 = t.entries then (if c.2 ∈ is then [] else f c.2)
        else (is.flatMap f).foldl (Buckets.push key hash n) g c.2 := by
  induction is generalizing m f g with
  | nil => exact ⟨m, rfl, by simpa using h⟩
  | cons i is ih =>
    obtain ⟨hnot, hnodup'⟩ := List.nodup_cons.mp hnodup
    obtain ⟨m₁, hmove, h₁⟩ := moveChain_eq key hash hn hne hS (hi i (by simp))
      (hhash i (by simp)) h hold (hfuel i (by simp))
    have hsame : ∀ j ∈ is, Function.update f i [] j = f j := by
      intro j hj
      have hji : j ≠ i := by
        rintro rfl
        exact hnot hj
      exact Function.update_of_ne hji _ _
    obtain ⟨m₂, hrest, h₂⟩ := ih (fun j hj => hi j (List.mem_cons_of_mem i hj))
      (fun j hj => by rw [hsame j hj]; exact hhash j (List.mem_cons_of_mem i hj)) hnodup' h₁
      (fun j hj => by rw [hsame j hj]; exact hfuel j (List.mem_cons_of_mem i hj))
    refine ⟨m₂, by simp [htable_expand.moveAll, hmove, hrest], h₂.congr ?_⟩
    intro c _
    have hflat : is.flatMap (Function.update f i []) = is.flatMap f :=
      List.flatMap_congr hsame
    rw [hflat, List.flatMap_cons, List.foldl_append]
    by_cases hc : c.2 = i
    · simp [hc]
    · simp [hc]

/-- Expanding moves every node to its bucket in the new array and leaves the
order list alone. -/
theorem Rep.expand {t : HashTable ν} {b : Buckets ν} (h : Rep key hash t b)
    {new_prime_index : Nat} (hnew : new_prime_index < good_primes.length) :
    ∃ t', htable_expand t new_prime_index = some t' ∧
      Rep key hash t' (b.expand key hash new_prime_index) ∧ t'.hash = t.hash := by
  have hn := get_prime_pos hnew
  let S : Nat × Nat → Prop := fun c => HashTable.InUse t.entries b.nr_entries c ∨
    HashTable.InUse (t.entries + 1) (get_prime new_prime_index) c
  have hstart : (new_entries t.hlink (t.entries + 1) (get_prime new_prime_index)).Chains S
      fun c => if c.1 = t.entries then b.chain c.2 else [] := by
    refine ⟨?_, ?_, ?_, ?_⟩
    · rintro c (hc | hc)
      · rw [if_pos hc.1]
        refine (h.chains.chain c hc).frame ?_ (fun _ _ => rfl) (fun _ _ => rfl)
        simp [new_entries, hc.1]
      · have hne : c.1 ≠ t.entries := by rw [hc.1]; omega
        rw [if_neg hne, Cells.chain_nil, Cells.read_inl]
        simp [new_entries, hc.1, hc.2]
    · rintro c (hc | hc)
      · simpa [hc.1] using h.chains.nodup c hc
      · simp [hc.1]
    · rintro c d (hc | hc) (hd | hd) hne n hnc hnd
      · rw [if_pos hc.1] at hnc
        rw [if_pos hd.1] at hnd
        exact h.chains.disjoint c d hc hd hne n hnc hnd
      · simp [hd.1] at hnd
      · simp [hc.1] at hnc
      · simp [hc.1] at hnc
    · intro n
      refine (h.chains.linked n).trans ⟨?_, ?_⟩
      · rintro ⟨c, hc, hnc⟩
        exact ⟨c, Or.inl hc, by simpa [hc.1] using hnc⟩
      · rintro ⟨c, hc | hc, hnc⟩
        · exact ⟨c, hc, by simpa [hc.1] using hnc⟩
        · simp [hc.1] at hnc
  have hwalk : ∀ i ∈ List.range b.nr_entries, i < b.nr_entries := fun i hi => List.mem_range.mp hi
  have hne : t.entries ≠ t.entries + 1 := by omega
  have hnodup : (List.range b.nr_entries).Nodup := List.nodup_range
  obtain ⟨m, hmove, hm⟩ := moveAll_eq key hash (t := t) (S := S) (g := fun _ => []) hn hne
    (fun j hj => Or.inr ⟨rfl, hj⟩) (fun i hi => Or.inl ⟨rfl, hwalk i hi⟩)
    (fun i _ x hx => h.hashed x ((h.wf.mem_order x).mpr ⟨i, hx⟩)) hnodup hstart
    (fun c hc => hc.imp And.left And.left) (fun i hi => h.chain_length_le (hwalk i hi))
  refine ⟨{ t with prime_index := new_prime_index, entries := t.entries + 1, hlink := m },
    ?_, ⟨h.wf.expand hnew, rfl, h.nr_nodes, h.ring, ?_, h.hashed⟩, rfl⟩
  · simp only [htable_expand, h.size_eq, hmove]
    rfl
  · refine (hm.restrict (T := HashTable.InUse (t.entries + 1) (get_prime new_prime_index))
      (fun c hc => Or.inr hc) ?_).congr ?_
    · rintro c (hc | hc) hnot
      · simp [hc.1, hc.2]
      · exact absurd hc hnot
    · intro c hc
      have hne : c.1 ≠ t.entries := by rw [hc.1]; omega
      rw [if_neg hne]
      rfl

theorem Rep.maybe_expand {t : HashTable ν} {b : Buckets ν} (h : Rep key hash t b) :
    ∃ t', htable_maybe_expand t = some t' ∧ Rep key hash t' (b.maybe_expand key hash) ∧
      t'.hash = t.hash := by
  unfold htable_maybe_expand Buckets.maybe_expand
  rw [h.prime_index, h.size_eq, h.nr_nodes]
  split
  · exact ⟨t, rfl, h, rfl⟩
  split
  · exact ⟨t, rfl, h, rfl⟩
  dsimp only
  split
  · exact ⟨t, rfl, h, rfl⟩
  · exact h.expand (get_proper_prime_index_lt _ _)

/-- Storing the hash of a node outside the table changes nothing. -/
theorem Rep.set_hash {t : HashTable ν} {b : Buckets ν} (h : Rep key hash t b) {n : ν}
    (hn : n ∉ b.order) (v : Nat) :
    Rep key hash { t with hash := Function.update t.hash n v } b where
  wf := h.wf
  prime_index := h.prime_index
  nr_nodes := h.nr_nodes
  ring := h.ring
  chains := h.chains
  hashed x hx := by
    have hne : x ≠ n := fun heq => hn (heq ▸ hx)
    simpa [Function.update_of_ne hne] using h.hashed x hx

/-- Inserting a linked node is refused. -/
theorem Rep.insert_linked {t : HashTable ν} {b : Buckets ν} (h : Rep key hash t b) {n : ν}
    (hn : n ∈ b.order) : HashTable_Insert key hash equal t n = some (-1, t) := by
  have hlinked : hlist_unhashed t.hlink n = false := by
    simpa [hlist_unhashed] using (h.isLinked_iff n).mpr hn
  simp [HashTable_Insert, hlinked]

variable (equal) in
/-- Inserting an unlinked node does what `Buckets.insert` does. -/
theorem Rep.insert_unlinked {t : HashTable ν} {b : Buckets ν} (h : Rep key hash t b) {n : ν}
    (hn : n ∉ b.order) :
    ∃ r t', HashTable_Insert key hash equal t n = some (r, t') ∧
      match b.insert key hash equal n with
      | none => r = -1 ∧ Rep key hash t' b
      | some b' => r = 0 ∧ Rep key hash t' b' := by
  have hunlinked : hlist_unhashed t.hlink n = true := by
    have hnot := mt (h.isLinked_iff n).mp hn
    simpa [hlist_unhashed] using hnot
  let t₁ : HashTable ν := { t with hash := Function.update t.hash n (hash (key n)) }
  have h₁ : Rep key hash t₁ b := h.set_hash hn _
  have hfind := h₁.find_eq equal (hash (key n)) (key n)
  cases hcase : b.find key equal (hash (key n)) (key n) with
  | some x =>
    rw [hcase] at hfind
    refine ⟨-1, t₁, ?_, ?_⟩
    · simp only [HashTable_Insert, hunlinked]
      simp [t₁, hfind]
    · simpa [Buckets.insert, hcase] using h₁
  | none =>
    rw [hcase] at hfind
    obtain ⟨t₂, hexpand, h₂, hhash₂⟩ := h₁.maybe_expand
    let index := hash (key n) % get_entries_size t₂
    have hindex : index = hash (key n) % (b.maybe_expand key hash).nr_entries := by
      simp only [index, h₂.size_eq]
    let t₃ : HashTable ν := { t₂ with
      hlink := hlist_add t₂.hlink n (t₂.entries, index)
      llink := list_add_tail t₂.llink (some n) none
      nr_nodes := t₂.nr_nodes + 1 }
    have hb' : b.insert key hash equal n = some { b.maybe_expand key hash with
        chain := Buckets.push key hash (b.maybe_expand key hash).nr_entries
          (b.maybe_expand key hash).chain n,
        order := (b.maybe_expand key hash).order ++ [n] } := by
      simp [Buckets.insert, hcase]
    have hwf := (h.wf.insert hb').2.2
    have hout : n ∉ (b.maybe_expand key hash).order := by simpa using hn
    refine ⟨0, t₃, ?_, ?_⟩
    · simp only [HashTable_Insert, hunlinked]
      simp [t₁, hfind, hexpand, t₃, index]
    · rw [hb']
      refine ⟨rfl, hwf, h₂.prime_index, ?_, ?_, ?_, ?_⟩
      · simp [t₃, h₂.nr_nodes]
      · have hfresh : some n ∉ none :: (b.maybe_expand key hash).order.map some := by
          simpa using hn
        have hring := list_add_tail_ring h₂.ring hfresh
        simpa [t₃] using hring
      · have hadd := hlist_add_chains h₂.chains (n := n)
          (h := (t₂.entries, index)) ⟨rfl, by
            rw [hindex]
            exact Nat.mod_lt _ h₂.wf.nr_entries_pos⟩
          (fun c hc hmem => hout ((h₂.wf.mem_order n).mpr ⟨c.2, hmem⟩))
        refine hadd.congr ?_
        intro c hc
        by_cases hidx : c = (t₂.entries, index)
        · subst hidx
          rw [Function.update_self]
          simp [Buckets.push, hindex]
        · rw [Function.update_of_ne hidx]
          have hne : c.2 ≠ index := fun heq => hidx (Prod.ext hc.1 heq)
          rw [hindex] at hne
          simp [Buckets.push, hne]
      · intro x hx
        rcases List.mem_append.mp hx with hx | hx
        · exact h₂.hashed x hx
        · rw [List.mem_singleton.mp hx]
          simp [t₃, hhash₂, t₁]

end koala.hashtable
