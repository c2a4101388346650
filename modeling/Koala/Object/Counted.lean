import Koala.Object.Klass
import Koala.Object.Resolution

open koala.typedesc Relation

namespace koala.object

set_option linter.style.nameCheck false

section nodes

variable {size : KlassPtr → Nat}

/-- A node lies behind the fields of the classes in front of its own. -/
theorem mem_nodes {offset : Nat} {l : List KlassPtr} {node : LRONode}
    (h : node ∈ nodes size offset l) :
    ∃ a b, l = a ++ node.klazz :: b ∧ node.offset = offset + (a.map size).sum := by
  induction l generalizing offset with
  | nil => cases h
  | cons klazz l ih =>
    cases h with
    | head => exact ⟨[], l, rfl, rfl⟩
    | tail _ h =>
      obtain ⟨a, b, hl, hoffset⟩ := ih h
      refine ⟨klazz :: a, b, by rw [hl, List.cons_append], ?_⟩
      rw [hoffset, List.map_cons, List.sum_cons, Nat.add_assoc]

/-- Two classes of an order stand one in front of the other. -/
theorem split_lt {l a b a' b' : List KlassPtr} {c c' : KlassPtr} (hl : l = a ++ c :: b)
    (hl' : l = a' ++ c' :: b') (hne : c ≠ c') : a ++ [c] <+: a' ∨ a' ++ [c'] <+: a := by
  rw [hl] at hl'
  rcases List.append_eq_append_iff.mp hl' with ⟨d, rfl, hd⟩ | ⟨d, rfl, hd⟩
  · left
    cases d with
    | nil => exact absurd (List.cons.inj hd).1 hne
    | cons e d =>
      rw [(List.cons.inj hd).1]
      exact ⟨d, by simp⟩
  · right
    cases d with
    | nil => exact absurd (List.cons.inj hd).1.symm hne
    | cons e d =>
      rw [(List.cons.inj hd).1]
      exact ⟨d, by simp⟩

theorem sum_prefix_le {a c : List KlassPtr} (h : a <+: c) : (a.map size).sum ≤ (c.map size).sum := by
  obtain ⟨d, rfl⟩ := h
  rw [List.map_append, List.sum_append]
  omega

/-- The fields of different classes of an order do not overlap. -/
theorem nodes_disjoint {offset : Nat} {l : List KlassPtr} {node node' : LRONode} {i j : Nat}
    (h : node ∈ nodes size offset l) (h' : node' ∈ nodes size offset l)
    (hne : node.klazz ≠ node'.klazz) (hi : i < size node.klazz) (hj : j < size node'.klazz) :
    node.offset + i ≠ node'.offset + j := by
  obtain ⟨a, b, hl, hoffset⟩ := mem_nodes h
  obtain ⟨a', b', hl', hoffset'⟩ := mem_nodes h'
  rcases split_lt hl hl' hne with hbefore | hbefore
  · have hle : ((a ++ [node.klazz]).map size).sum ≤ (a'.map size).sum := sum_prefix_le hbefore
    rw [List.map_append, List.sum_append, List.map_singleton, List.sum_singleton] at hle
    omega
  · have hle : ((a' ++ [node'.klazz]).map size).sum ≤ (a.map size).sum := sum_prefix_le hbefore
    rw [List.map_append, List.sum_append, List.map_singleton, List.sum_singleton] at hle
    omega

theorem nodes_lt {offset : Nat} {l : List KlassPtr} {node : LRONode} {i : Nat}
    (h : node ∈ nodes size offset l) (hi : i < size node.klazz) :
    node.offset + i < offset + (l.map size).sum := by
  obtain ⟨a, b, hl, hoffset⟩ := mem_nodes h
  rw [hl, List.map_append, List.sum_append, List.map_cons, List.sum_cons]
  omega

/-- A class has one node in an order. -/
theorem nodes_unique {offset : Nat} {l : List KlassPtr} (hl : l.Nodup) {node node' : LRONode}
    (h : node ∈ nodes size offset l) (h' : node' ∈ nodes size offset l)
    (heq : node.klazz = node'.klazz) : node = node' := by
  induction l generalizing offset with
  | nil => cases h
  | cons klazz l ih =>
    obtain ⟨hnot, htail⟩ := List.nodup_cons.mp hl
    have hmem : ∀ {m : LRONode}, m ∈ nodes size (offset + size klazz) l → m.klazz ∈ l := by
      intro m hm
      have hmap : m.klazz ∈ order (nodes size (offset + size klazz) l) := List.mem_map_of_mem hm
      rwa [order_nodes] at hmap
    cases h with
    | head =>
      cases h' with
      | head => rfl
      | tail _ h' =>
        have hk : klazz = node'.klazz := heq
        exact absurd (hk ▸ hmem h') hnot
    | tail _ h =>
      cases h' with
      | head =>
        have hk : node.klazz = klazz := heq
        exact absurd (hk ▸ hmem h) hnot
      | tail _ h' => exact ih htail h h'

end nodes

/-- The members of a class have names and offsets of their own, and the offsets
count the fields. -/
structure Klass.Fielded (k : Klass) : Prop where
  lt : ∀ m ∈ k.mtbl, m.offset < k.nrvars
  distinct : ∀ m ∈ k.mtbl, ∀ m' ∈ k.mtbl, m.name = m'.name ∨ m.offset = m'.offset → m = m'

theorem fielded_empty (name : CString) (totalvars : Nat) (lro : List LRONode) :
    (Klass.mk name [] 0 totalvars lro).Fielded where
  lt _ hm := absurd hm List.not_mem_nil
  distinct _ hm := absurd hm List.not_mem_nil

/-- A member with a name that is not there yet and the next offset. -/
theorem Klass.Fielded.insert {k : Klass} (h : k.Fielded) (name : CString) (desc : TypeDesc) :
    ({ k with
      mtbl := koala.object.insert k.mtbl ⟨name, desc, k.nrvars⟩
      nrvars := k.nrvars + 1
      totalvars := k.totalvars + 1 } : Klass).Fielded := by
  rw [koala.object.insert]
  split
  · exact ⟨fun m hm => Nat.lt_succ_of_lt (h.lt m hm), h.distinct⟩
  · next hnone =>
    have hfresh : ∀ m ∈ k.mtbl, m.name ≠ name := by
      intro m hm heq
      apply hnone
      rw [Find_MNode, List.find?_isSome]
      exact ⟨m, hm, by simpa using heq⟩
    refine ⟨?_, ?_⟩
    · intro m hm
      rcases List.mem_append.mp hm with hm | hm
      · exact Nat.lt_succ_of_lt (h.lt m hm)
      · rw [List.mem_singleton.mp hm]
        exact Nat.lt_succ_self _
    · intro m hm m' hm' heq
      rcases List.mem_append.mp hm with hm | hm
      · rcases List.mem_append.mp hm' with hm' | hm'
        · exact h.distinct m hm m' hm' heq
        · rw [List.mem_singleton.mp hm'] at heq
          have hlt := h.lt m hm
          rcases heq with heq | heq
          · exact absurd heq (hfresh m hm)
          · exact absurd heq (Nat.ne_of_lt hlt)
      · rcases List.mem_append.mp hm' with hm' | hm'
        · rw [List.mem_singleton.mp hm] at heq
          have hlt := h.lt m' hm'
          rcases heq with heq | heq
          · exact absurd heq.symm (hfresh m' hm')
          · exact absurd heq.symm (Nat.ne_of_lt hlt)
        · rw [List.mem_singleton.mp hm, List.mem_singleton.mp hm']

/-- The variables of an object are the fields of the classes in the order of its
class. -/
def Totals (ks : Klasses) : Prop :=
  ∀ (n : Nat) k, ks[n]? = some k → k.totalvars = ((order k.lro).map (nrvars ks)).sum

def AllFielded (ks : Klasses) : Prop := ∀ (n : Nat) k, ks[n]? = some k → k.Fielded

section step

variable {hist : List (List Nat)} {ks ks' : Klasses}

/-- The class itself stands at the end of its order, behind its ancestors. -/
theorem LineOrder.split {n : Nat} {l : List KlassPtr} (h : LineOrder hist n l) :
    ∃ pre, l = pre ++ [.new n] ∧ ∀ c ∈ pre, Ancestor hist c (.new n) := by
  obtain ⟨pre, rfl⟩ := List.getLast?_eq_some_iff.mp h.last
  refine ⟨pre, rfl, fun c hc => ?_⟩
  rcases (h.mem_iff c).mp (List.mem_append_left _ hc) with rfl | hanc
  · have hnot := List.nodup_append.mp h.nodup |>.2.2 _ hc _ (List.mem_singleton_self _)
    exact absurd rfl hnot
  · exact hanc

theorem AllFielded.Klass_New (h : AllFielded ks) {name : CString} {bases : List Nat}
    (hnew : koala.object.Klass_New ks name bases = .ok ks') : AllFielded ks' := by
  obtain ⟨orders, _, hnew⟩ := bind_eq_ok_iff.mp hnew
  cases hnew
  intro n k hget
  rcases getElem?_concat_cases hget with ⟨_, hold⟩ | ⟨_, rfl⟩
  · exact h n k hold
  · exact fielded_empty _ _ _

theorem AllFielded.Klass_Add_Field (h : AllFielded ks) {c : Nat} {name : CString}
    {desc : TypeDesc} (hadd : koala.object.Klass_Add_Field ks c name desc = .ok ks') :
    AllFielded ks' := by
  rw [koala.object.Klass_Add_Field] at hadd
  split at hadd
  · cases hadd
  · next k hk =>
    cases hadd
    intro n k' hget
    by_cases hn : n = c
    · subst hn
      rw [List.getElem?_set_self (List.getElem?_eq_some_iff.mp hk).1] at hget
      cases hget
      exact (h n k hk).insert name desc
    · rw [List.getElem?_set_ne (Ne.symm hn)] at hget
      exact h n k' hget

theorem Totals.Klass_New (htotals : Totals ks) (h : Ordering hist (lines ks)) {name : CString}
    {bases : List Nat} (hnew : koala.object.Klass_New ks name bases = .ok ks') : Totals ks' := by
  have h' := h.Klass_New hnew
  obtain ⟨orders, _, hnew⟩ := bind_eq_ok_iff.mp hnew
  cases hnew
  have hks : ks.length = hist.length := by rw [← h.length, lines, List.length_map]
  intro n k hget
  obtain ⟨pre, hpre, hanc⟩ := (h'.line n _ (lines_get hget)).split
  rcases getElem?_concat_cases hget with ⟨hlt, hold⟩ | ⟨rfl, rfl⟩
  · rw [htotals n k hold]
    congr 1
    apply List.map_congr_left
    intro c hc
    symm
    rw [hpre] at hc
    rcases List.mem_append.mp hc with hc | hc
    · refine h.nrvars_append _ hlt ?_
      exact (ancestor_append_iff h.closed bases (hks ▸ hlt) c).mp (hanc c hc)
    · rw [List.mem_singleton.mp hc]
      exact nrvars_append _ hlt
  · have hany : (Line.append ks ⟨0, []⟩ .Any_Klass).Laid ks :=
      Line.Laid.append ⟨rfl, rfl⟩ .Any_Klass
    have hline := (hany.foldl orders).2
    have hsplit : order (lro_build ks (.new ks.length) orders).lro =
        order (orders.foldl (fun line base => base.foldl (Line.add ks) line)
          (Line.append ks ⟨0, []⟩ .Any_Klass)).lro ++ [.new ks.length] := by
      rw [order, order, lro_build, List.map_append]
      rfl
    have hself : nrvars (ks ++ [⟨name, [], 0, (lro_build ks (.new ks.length) orders).offset,
        (lro_build ks (.new ks.length) orders).lro⟩]) (.new ks.length) = 0 := by
      rw [nrvars, hget]
      rfl
    rw [hsplit] at hpre
    have hpre_eq := (List.append_inj' hpre rfl).1
    simp only [hsplit, List.map_append, List.map_singleton, List.sum_append, List.sum_singleton,
      hself, Nat.add_zero]
    refine hline.trans (congrArg List.sum (List.map_congr_left ?_))
    intro c hc
    rw [hpre_eq] at hc
    cases c with
    | Any_Klass => rfl
    | new m =>
      have hlt := ancestor_lt h'.closed (by simp [hks]) (hanc _ hc)
      exact (nrvars_append _ hlt).symm

theorem nrvars_set_ne (k : Klass) {c : Nat} {d : KlassPtr} (hne : d ≠ .new c) :
    nrvars (ks.set c k) d = nrvars ks d := by
  cases d with
  | Any_Klass => rfl
  | new m =>
    have hm : c ≠ m := fun heq => hne (by rw [heq])
    rw [nrvars, nrvars, List.getElem?_set_ne hm]

theorem Totals.Klass_Add_Field (htotals : Totals ks) (h : Ordering hist (lines ks)) {c : Nat}
    {name : CString} {desc : TypeDesc} (hbase : ∀ bases ∈ hist, c ∉ bases)
    (hadd : koala.object.Klass_Add_Field ks c name desc = .ok ks') : Totals ks' := by
  rw [koala.object.Klass_Add_Field] at hadd
  split at hadd
  · cases hadd
  · next k hk =>
    cases hadd
    have hlt := (List.getElem?_eq_some_iff.mp hk).1
    intro n k' hget
    by_cases hn : n = c
    · subst hn
      obtain ⟨pre, hpre, hanc⟩ := (h.line n _ (lines_get hk)).split
      rw [List.getElem?_set_self hlt] at hget
      cases hget
      have hsum := htotals n k hk
      have hself : nrvars ks (.new n) = k.nrvars := by
        rw [nrvars, hk]
        rfl
      simp only [hpre, List.map_append, List.sum_append, List.map_singleton,
        List.sum_singleton, hself] at hsum ⊢
      rw [hsum, nrvars, List.getElem?_set_self hlt, Option.elim_some, Nat.add_assoc]
      congr 2
      apply List.map_congr_left
      intro d hd
      refine (nrvars_set_ne _ ?_).symm
      rintro rfl
      exact not_ancestor_of_not_base hbase _ (hanc _ hd)
    · rw [List.getElem?_set_ne (Ne.symm hn)] at hget
      obtain ⟨pre, hpre, hanc⟩ := (h.line n _ (lines_get hget)).split
      rw [htotals n k' hget]
      congr 1
      apply List.map_congr_left
      intro d hd
      refine (nrvars_set_ne _ ?_).symm
      rintro rfl
      rw [hpre] at hd
      rcases List.mem_append.mp hd with hd | hd
      · exact not_ancestor_of_not_base hbase _ (hanc _ hd)
      · exact hn (KlassPtr.new.inj (List.mem_singleton.mp hd)).symm

end step

/-- What holds of the members and their counts after some calls. -/
structure Counted (calls : List Call) (ks : Klasses) : Prop where
  resolved : Resolved calls ks
  fielded : AllFielded ks
  totals : Settled calls → Totals ks

section run

variable {calls : List Call} {ks ks' : Klasses}

theorem Counted.step {call : Call} (h : Counted calls ks) (hcall : call.run ks = .ok ks') :
    Counted (calls ++ [call]) ks' := by
  refine ⟨h.resolved.step hcall, ?_, fun hsettled => ?_⟩
  · cases call with
    | Klass_New name bases => exact h.fielded.Klass_New hcall
    | Klass_Add_Field klazz name desc => exact h.fielded.Klass_Add_Field hcall
  · have htotals := h.totals hsettled.of_append
    cases call with
    | Klass_New name bases => exact htotals.Klass_New h.resolved.ordering hcall
    | Klass_Add_Field klazz name desc =>
      have hbase := hsettled calls klazz name desc [] rfl
      exact htotals.Klass_Add_Field h.resolved.ordering hbase hcall

theorem Counted.run {rest : List Call} (h : Counted calls ks)
    (hrun : koala.object.run ks rest = .ok ks') : Counted (calls ++ rest) ks' := by
  induction rest generalizing calls ks with
  | nil =>
    cases hrun
    rwa [List.append_nil]
  | cons call rest ih =>
    obtain ⟨mid, hcall, hrun⟩ := bind_eq_ok_iff.mp hrun
    have hall := ih (h.step hcall) hrun
    rwa [List.append_assoc] at hall

theorem counted_nil : Counted [] [] := by
  refine ⟨resolved_nil, ?_, fun _ => ?_⟩
  · intro n k hget
    simp at hget
  · intro n k hget
    simp at hget

end run

end koala.object
