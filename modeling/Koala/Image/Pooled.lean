import Koala.Image.Pool

open koala.atomtable

namespace koala.image

set_option linter.style.nameCheck false

/-- Two calls return one index exactly when they are the same, and the constant
at each index is, at the end, the one that was added. -/
structure Pooled (calls : List Add) (indices : List (Option Int)) (T : Table) : Prop where
  same : ∀ {i j : Nat} {a b : Add}, calls[i]? = some a → calls[j]? = some b →
    (indices[i]? = indices[j]? ↔ a = b)
  kept : ∀ {i : Nat} {a : Add}, calls[i]? = some a → ∃ (k : Nat) (c : ConstItem),
    indices[i]? = some (some (k : Int)) ∧ Get T .ITEM_CONST k = some c ∧ AddsValue T a c.val

/-- The calls fail no assertion and pool their constants, wherever the allocator
puts them. -/
def PoolsConstants (calls : List Add) : Prop :=
  ∀ (mem : Memory) (name : Option CString), ∃ final,
    (KImage.trace mem 0 (KImage_New name) calls).2 = .ok final ∧
    Pooled calls (KImage.trace mem 0 (KImage_New name) calls).1 final.table

/-- Two calls whose constants are not compared, or not hashed, by their value. -/
def misses : Add → Add → Bool
  | .Bool b, .Bool c => b = c
  | .Float f, .Float g => float_eq f g
  | _, _ => false

variable {mem : Memory} {calls : List Add} {n : Nat} {indices : List (Option Int)} {T : Table}
  {a b : Add} {image : KImage} {name : Option CString}

theorem newFloat_of_pairwise (hpair : calls.Pairwise fun a b => misses a b = false) (n : Nat) :
    NewFloat calls n := by
  intro f hf m hm g hg
  obtain ⟨hn, hfn⟩ := List.getElem?_eq_some_iff.mp hf
  obtain ⟨hm', hgm⟩ := List.getElem?_eq_some_iff.mp hg
  have hmiss := List.pairwise_iff_getElem.mp hpair m n hm' hn hm
  rw [hfn, hgm] at hmiss
  exact hmiss

section pairwise

theorem misses_self (h : shares_const a = false) (hnan : ∀ f, a = .Float f → isNaN f = false) :
    misses a a = true := by
  cases a with
  | Bool b => exact decide_eq_true rfl
  | Float f => exact float_eq_iff.mpr ⟨hnan f rfl, hnan f rfl, .inl rfl⟩
  | _ => cases h

/-- A call in order succeeds. -/
theorem Pool.total (h : Pool mem calls n indices image.table) (ha : calls[n]? = some a)
    (hconst : stores_const a = true) (hnew : NewFloat calls n) :
    ∃ r, image.add mem n a = .ok r := by
  obtain ⟨T₁, v, hT₁, hext, hval, hitems, hcall⟩ := add_constant h.sound hconst
  have hlater := h.later hT₁ hext hitems
  suffices hset : ∃ r, constitem_set (mem.key n) (mem.item n) T₁ v = .ok r by
    obtain ⟨⟨index, T₂⟩, hset⟩ := hset
    rw [hcall, hset, ok_bind]
    exact ⟨_, rfl⟩
  have happend : (∀ c ∈ T₁.items .ITEM_CONST, ∀ addr, (∀ m, addr ≠ mem.item m ∨ n ≤ m) →
      constitem_equal c ⟨addr, v⟩ = false) →
      ∃ r, constitem_set (mem.key n) (mem.item n) T₁ v = .ok r := by
    intro habsent
    obtain ⟨T₂, hset, -⟩ := constitem_set_new hT₁.wf
      (fun c hc => habsent c hc _ fun m => .inl (mem.key_ne_item n m))
      (fun c hc => habsent c hc _ fun m => by
        by_cases hm : m < n
        · exact .inl fun heq => Nat.ne_of_gt hm (mem.item_injective heq)
        · exact .inr (by omega))
    exact ⟨_, hset⟩
  by_cases hfound : ∃ c ∈ T₁.items .ITEM_CONST, ∃ addr, constitem_equal c ⟨addr, v⟩ = true ∧
      v.plain = true
  · obtain ⟨c, hc, addr, hequal, hplain⟩ := hfound
    obtain ⟨i, hi⟩ := List.getElem?_of_mem hc
    have hcv := (constitem_equal_plain hplain c addr).mp hequal
    exact ⟨_, constitem_set_plain hT₁.wf hplain hi hcv⟩
  · refine happend fun c hc addr haddr => ?_
    by_contra hne
    have hequal : constitem_equal c ⟨addr, v⟩ = true := by simpa using hne
    have hnot : v.plain = false := by
      by_contra hplain
      exact hfound ⟨c, hc, addr, hequal, by simpa using hplain⟩
    obtain ⟨k, hk⟩ := List.getElem?_of_mem hc
    obtain ⟨m, hm, b, hb, hbval, hitem, -⟩ := hlater.origin k c hk
    rw [hval.plain] at hnot
    cases a with
    | Float f =>
      obtain rfl : v = .CONST_FLOAT f := hval
      obtain ⟨g, hg, hgf⟩ := constitem_equal_float hequal
      rw [hg] at hbval
      obtain rfl : b = .Float g := hbval.injective rfl
      rw [hnew f ha m hm g hb] at hgf
      cases hgf
    | Bool b =>
      obtain rfl : v = .CONST_BOOL b := hval
      have hsame := constitem_equal_bool hequal
      obtain hdiffer | hle := haddr m
      · exact hdiffer (hsame.symm.trans hitem)
      · omega
    | _ => cases hnot

theorem Pool.run_total (hconst : ∀ a ∈ calls, stores_const a = true)
    (hnew : ∀ n, NewFloat calls n) {rest : List Add} (h : Pool mem calls n indices image.table)
    (hrest : calls.drop n = rest) : ∃ final, (KImage.trace mem n image rest).2 = .ok final := by
  induction rest generalizing n indices image with
  | nil => exact ⟨image, rfl⟩
  | cons a rest ih =>
    have ha : calls[n]? = some a := by
      rw [← Nat.add_zero n, ← List.getElem?_drop, hrest]
      rfl
    have hmem := hconst a (List.mem_of_getElem? ha)
    obtain ⟨⟨r, image₁⟩, hadd⟩ := h.total ha hmem (hnew n)
    have hnext : calls.drop (n + 1) = rest := by
      rw [← List.drop_drop, hrest]
      rfl
    rw [KImage.trace, hadd]
    exact ih (h.step ha hmem hadd) hnext

/-- Calls that miss nothing find all that is the same. -/
theorem Pool.pooled (h : Pool mem calls calls.length indices T)
    (hnan : ∀ f, Add.Float f ∈ calls → isNaN f = false)
    (hpair : calls.Pairwise fun a b => misses a b = false) : Pooled calls indices T := by
  have hlt : ∀ {i : Nat} {a : Add}, calls[i]? = some a → i < calls.length :=
    fun ha => (List.getElem?_eq_some_iff.mp ha).1
  have hexact : ∀ {i : Nat} {a : Add}, calls[i]? = some a → ∃ (k : Nat) (c : ConstItem),
      indices[i]? = some (some (k : Int)) ∧ (T.items .ITEM_CONST)[k]? = some c ∧
      AddsValue T a c.val := by
    intro i a ha
    obtain ⟨k, c, hk, hc, hval | ⟨f, g, rfl, hg, hgf⟩⟩ := h.placed i a (hlt ha) ha
    · exact ⟨k, c, hk, hc, hval⟩
    · -- the float at the index is the one that the call added itself
      obtain ⟨m, hm, b, hb, hbval, -⟩ := h.origin k c hc
      rw [hg] at hbval
      obtain rfl : b = .Float g := hbval.injective rfl
      rcases Nat.lt_trichotomy m i with hmi | rfl | him
      · rw [newFloat_of_pairwise hpair i f ha m hmi g hb] at hgf
        cases hgf
      · rw [ha] at hb
        cases hb
        exact ⟨k, c, hk, hc, hg⟩
      · have hfalse := newFloat_of_pairwise hpair m g hb i him f ha
        rw [float_eq_comm, hgf] at hfalse
        cases hfalse
  refine ⟨fun {i j a b} ha hb => ⟨fun hij => ?_, fun hab => ?_⟩, fun {i a} ha => ?_⟩
  · obtain ⟨k, c, hk, hc, hval⟩ := hexact ha
    obtain ⟨l, d, hl, hd, hval'⟩ := hexact hb
    have hkl : (k : Int) = l := Option.some.inj (Option.some.inj (hk.symm.trans (hij.trans hl)))
    obtain rfl : k = l := by omega
    rw [hc, Option.some.injEq] at hd
    exact hval.injective (hd ▸ hval')
  · subst hab
    obtain ⟨k, c, hk, hc, hval⟩ := hexact ha
    obtain ⟨l, d, hl, hd, hval'⟩ := hexact hb
    cases hshares : shares_const a with
    | true =>
      have hplain : c.val.plain = true := hval.plain.trans hshares
      rw [hk, hl, plain_injective h.sound.wf hplain hc hd rfl (hval'.functional h.sound hval)]
    | false =>
      have hmisses : misses a a = true := misses_self hshares fun f hf =>
        hnan f (hf ▸ List.mem_of_getElem? ha)
      obtain ⟨hi, hia⟩ := List.getElem?_eq_some_iff.mp ha
      obtain ⟨hj, hja⟩ := List.getElem?_eq_some_iff.mp hb
      rcases Nat.lt_trichotomy i j with hij | rfl | hji
      · have hfalse := List.pairwise_iff_getElem.mp hpair i j hi hj hij
        rw [hia, hja, hmisses] at hfalse
        cases hfalse
      · rfl
      · have hfalse := List.pairwise_iff_getElem.mp hpair j i hj hi hji
        rw [hia, hja, hmisses] at hfalse
        cases hfalse
  · obtain ⟨k, c, hk, hc, hval⟩ := hexact ha
    exact ⟨k, c, hk, by rwa [Get, AtomTable_Get_of_nonneg], hval⟩

theorem poolsConstants_of_pairwise (hconst : ∀ a ∈ calls, stores_const a = true)
    (hnan : ∀ f, Add.Float f ∈ calls → isNaN f = false)
    (hpair : calls.Pairwise fun a b => misses a b = false) : PoolsConstants calls := by
  intro mem name
  have hstart := Pool.nil mem calls name
  obtain ⟨final, hfinal⟩ := hstart.run_total hconst (newFloat_of_pairwise hpair) List.drop_zero
  have hend := hstart.trace hconst List.drop_zero hfinal
  rw [Nat.zero_add, List.nil_append] at hend
  exact ⟨final, hfinal, hend.pooled hnan hpair⟩

end pairwise

section missed

/-- What the calls of a prefix return does not depend on the rest. -/
theorem KImage.trace_append {first : List Add} (rest : List Add) {image' : KImage}
    (h : KImage.run mem n image first = .ok image') :
    (KImage.trace mem n image (first ++ rest)).1 =
      (KImage.trace mem n image first).1 ++ (KImage.trace mem (n + first.length) image' rest).1 := by
  induction first generalizing n image with
  | nil =>
    cases h
    rfl
  | cons a first ih =>
    obtain ⟨⟨r, image₁⟩, hadd, h⟩ := bind_eq_ok_iff.mp h
    rw [List.cons_append, KImage.trace, KImage.trace, hadd]
    dsimp only
    rw [ih h, List.length_cons, Nat.add_comm first.length, ← Nat.add_assoc, List.cons_append]

variable {f g : BitVec 64} {i j : Nat}

/-- The constants behind a whole run, and behind its first calls. -/
theorem PoolsConstants.pools (h : PoolsConstants calls)
    (hconst : ∀ a ∈ calls, stores_const a = true) (mem : Memory) (name : Option CString)
    (j : Nat) (hj : j ≤ calls.length) :
    ∃ final image indices rest, Pooled calls (indices ++ rest) final.table ∧
      Pool mem calls calls.length (indices ++ rest) final.table ∧
      Pool mem calls j indices image.table ∧ Extends image.table final.table ∧
      KImage.run mem 0 (KImage_New name) (calls.take j) = .ok image ∧
      rest = (KImage.trace mem j image (calls.drop j)).1 ∧
      KImage.run mem j image (calls.drop j) = .ok final := by
  obtain ⟨final, hfinal, hpooled⟩ := h mem name
  have hstart := Pool.nil mem calls name
  have hend := hstart.trace hconst List.drop_zero hfinal
  rw [Nat.zero_add, List.nil_append] at hend
  have hrun := hfinal
  rw [KImage.trace_snd, ← List.take_append_drop j calls] at hrun
  obtain ⟨image, himage⟩ := KImage.run_prefix hrun
  have hlength : (calls.take j).length = j := by rw [List.length_take, Nat.min_eq_left hj]
  have hindices := KImage.trace_append (calls.drop j) himage
  rw [List.take_append_drop, hlength, Nat.zero_add] at hindices
  rw [hindices] at hpooled hend
  rw [KImage.run_append himage, hlength, Nat.zero_add] at hrun
  have hfirst : Pool mem (calls.take j) 0 [] (KImage_New name).table := Pool.nil mem _ name
  have htake : (KImage.trace mem 0 (KImage_New name) (calls.take j)).2 = .ok image := by
    rw [KImage.trace_snd, himage]
  have hfirsts := hfirst.trace (fun a ha => hconst a (List.mem_of_mem_take ha)) List.drop_zero htake
  rw [Nat.zero_add, List.nil_append, hlength] at hfirsts
  obtain ⟨_, _, _, hplaces⟩ := KImage.run_ok hfirsts.sound hrun
  have hget : ∀ m < j, (calls.take j)[m]? = calls[m]? := fun m hm => by
    rw [List.getElem?_take, if_pos hm]
  refine ⟨final, image, _, _, hpooled, hend, ⟨hfirsts.sound, hfirsts.length, ?_, ?_, ?_⟩,
    hplaces.ext, himage, rfl, hrun⟩
  · intro k c hc
    obtain ⟨m, hm, a, ha, hrest⟩ := hfirsts.origin k c hc
    exact ⟨m, hm, a, hget m hm ▸ ha, hrest⟩
  · exact fun m a hm ha => hfirsts.placed m a hm ((hget m hm).trans ha)
  · exact fun m b k c hm hb => hfirsts.own m b k c hm ((hget m hm).trans hb)

/-- The item of a bool is compared with the key by its address. -/
theorem PoolsConstants.bool_once (h : PoolsConstants calls)
    (hconst : ∀ a ∈ calls, stores_const a = true) {b : BitVec 32} (hi : calls[i]? = some (.Bool b))
    (hj : calls[j]? = some (.Bool b)) : i = j := by
  obtain ⟨final, _, indices, rest, hpooled, hend, -⟩ :=
    h.pools hconst .level none calls.length le_rfl
  have hsame := (hpooled.same hi hj).mpr rfl
  have hlt : ∀ {m : Nat}, calls[m]? = some (.Bool b) → m < calls.length :=
    fun hm => (List.getElem?_eq_some_iff.mp hm).1
  obtain ⟨k, c, hk, hc, -⟩ := hend.placed i _ (hlt hi) hi
  have hiaddr := hend.own i b k c (hlt hi) hi hk hc
  have hjaddr := hend.own j b k c (hlt hj) hj (hsame ▸ hk) hc
  exact Memory.level.item_injective (hiaddr.symm.trans hjaddr)

/-- A float equal to an earlier one is found or not, as the addresses are. -/
theorem PoolsConstants.newFloat (h : PoolsConstants calls)
    (hconst : ∀ a ∈ calls, stores_const a = true) (j : Nat) : NewFloat calls j := by
  induction j using Nat.strongRecOn with
  | _ j ih =>
    intro f hf i hi g hg
    by_contra hne
    have hgf : float_eq g f = true := by simpa using hne
    have hj : j < calls.length := (List.getElem?_eq_some_iff.mp hf).1
    have hget : ∀ m < j, (calls.take j)[m]? = calls[m]? := fun m hm => by
      rw [List.getElem?_take, if_pos hm]
    have hfirsts : NoEqualFloats (calls.take j) := by
      intro k _
      rcases Nat.lt_or_ge k j with hlt | hge
      · exact newFloat_take (ih k hlt)
      · intro x hx
        rw [List.getElem?_take, if_neg (by omega)] at hx
        cases hx
    have hcompletes : Completes (calls.take j) := by
      obtain ⟨_, image, _, _, _, _, _, _, hrun, _⟩ := h.pools hconst .level none j hj.le
      exact ⟨.level, none, image, hrun⟩
    obtain ⟨name, image, image', hrun, hrun', htwin⟩ := level_twin hcompletes hfirsts (.apart i)
    have hlength : (calls.take j).length = j := by rw [List.length_take, Nat.min_eq_left hj.le]
    rw [hlength] at htwin
    have hdrop : calls.drop j = .Float f :: calls.drop (j + 1) := by
      obtain ⟨_, hval⟩ := List.getElem?_eq_some_iff.mp hf
      rw [List.drop_eq_getElem_cons hj, hval]
    -- where all constants have one hash, the float is found at the index of an equal one
    obtain ⟨final, first, indices, rest, hpooled, -, hpool, hext, hfirst, hrest, hlast⟩ :=
      h.pools hconst .level name j hj.le
    rw [hrun] at hfirst
    cases hfirst
    obtain ⟨k, hk, hfound⟩ := level_found htwin hi ((hget i hi).trans hg) hgf
    have hindex : (indices ++ rest)[j]? = some (some (k : Int)) := by
      have hadd : image.add .level j (.Float f) = .ok (some (k : Int), image) := by
        rw [KImage.add, KImage_Add_Float, hfound]
        rfl
      rw [List.getElem?_append_right (by rw [hpool.length]), hpool.length, Nat.sub_self, hrest,
        hdrop, KImage.trace, hadd]
      rfl
    obtain ⟨l, c, hl, hc, hval⟩ := hpooled.kept hf
    obtain rfl : l = k := by
      have heq : (l : Int) = k := Option.some.inj (Option.some.inj (hl.symm.trans hindex))
      omega
    have hearly : ∃ d, (image.table.items .ITEM_CONST)[l]? = some d :=
      ⟨_, List.getElem?_eq_getElem hk⟩
    obtain ⟨d, hd⟩ := hearly
    have hsame : d = c := by
      have hearly : AtomTable_Get image.table .ITEM_CONST (l : Int) = some d := by
        rwa [AtomTable_Get_of_nonneg]
      have hlater := hext.get hearly
      rw [Get, hlater, Option.some.injEq] at hc
      exact hc
    obtain ⟨m, hm, b, hb, hbval, -⟩ := hpool.origin l d hd
    rw [hsame] at hbval
    obtain rfl : b = .Float f := hbval.injective (hval : AddsValue image.table (.Float f) c.val)
    have hmi : m = i := by
      refine only_equal ih hi hm hg hb hgf ?_
      rw [float_eq_comm] at hgf
      exact float_eq_trans (float_eq_trans hgf (float_eq_comm f g ▸ hgf)) (by
        obtain ⟨hff, _, _⟩ := float_eq_iff.mp hgf
        exact float_eq_iff.mpr ⟨hff, hff, .inl rfl⟩)
    subst hmi
    -- where it lies in another bucket, it is stored once more
    obtain ⟨final', first', indices', rest', hpooled', -, hpool', -, hfirst', hrest', hlast'⟩ :=
      h.pools hconst (.apart m) name j hj.le
    rw [hrun'] at hfirst'
    cases hfirst'
    have hequal := (hpooled'.same hb hf).mpr rfl
    obtain ⟨k', c', hk', hc', -⟩ := hpool'.placed m _ hm hb
    rw [List.getElem?_append_left (by rw [hpool'.length]; exact hm), hk',
      List.getElem?_append_right (by rw [hpool'.length]), hpool'.length, Nat.sub_self, hrest',
      hdrop, KImage.trace] at hequal
    rw [hdrop, KImage.run] at hlast'
    obtain ⟨⟨r, image₁⟩, hadd, -⟩ := bind_eq_ok_iff.mp hlast'
    rw [hadd] at hequal
    have hr : r = some (k' : Int) := (Option.some.inj hequal).symm
    subst hr
    rw [KImage.add, KImage_Add_Float, withindex_eq_ok_iff] at hadd
    obtain ⟨index, hadd, hindexed⟩ := hadd
    obtain ⟨⟨_, T₁⟩, hset, hadd⟩ := bind_eq_ok_iff.mp hadd
    cases hadd
    have hsize := apart_missed htwin
      (fun m' hm' x hx hxf => only_equal ih hm hm' hb (hget m' hm' ▸ hx) (by
        obtain ⟨hff, _, _⟩ := float_eq_iff.mp ((float_eq_comm f g) ▸ hgf)
        exact float_eq_iff.mpr ⟨hff, hff, .inl rfl⟩) hxf) hset
    have hlt := (List.getElem?_eq_some_iff.mp hc').1
    have hk'size : (k' : Int) = AtomTable_Size image'.table .ITEM_CONST := by
      rw [Option.some.inj hindexed, hsize]
    rw [AtomTable_Size] at hk'size
    omega

/-- For every sequence of calls that add constants: they pool their constants
wherever the allocator puts them if and only if no bool is added twice and no
float equals an earlier one. -/
theorem poolsConstants_iff (hconst : ∀ a ∈ calls, stores_const a = true)
    (hnan : ∀ f, Add.Float f ∈ calls → isNaN f = false) :
    PoolsConstants calls ↔ calls.Pairwise fun a b => misses a b = false := by
  refine ⟨fun h => ?_, poolsConstants_of_pairwise hconst hnan⟩
  refine List.pairwise_iff_getElem.mpr fun i j hi hj hij => ?_
  have ha : calls[i]? = some calls[i] := List.getElem?_eq_getElem hi
  have hb : calls[j]? = some calls[j] := List.getElem?_eq_getElem hj
  by_contra hne
  have hmisses : misses calls[i] calls[j] = true := by simpa using hne
  cases hx : calls[i] with
  | Bool b =>
    cases hy : calls[j] with
    | Bool c =>
      rw [hx, hy] at hmisses
      obtain rfl : b = c := of_decide_eq_true hmisses
      rw [hx] at ha
      rw [hy] at hb
      exact Nat.ne_of_lt hij (h.bool_once hconst ha hb)
    | _ => rw [hx, hy] at hmisses; cases hmisses
  | Float f =>
    cases hy : calls[j] with
    | Float g =>
      rw [hx, hy] at hmisses
      rw [hx] at ha
      rw [hy] at hb
      have hfalse := h.newFloat hconst j g hb i hij f ha
      rw [show float_eq f g = true from hmisses] at hfalse
      cases hfalse
    | _ => rw [hx, hy] at hmisses; cases hmisses
  | _ => rw [hx] at hmisses; cases hmisses

/-- Constants of all kinds, some of them added again. -/
theorem poolsConstants_iff_kinds :
    PoolsConstants [.Integer 1, .Bool 1, .UChar 1, .String nameF, .Float 0, .Integer 1,
      .String nameF] := by
  refine (poolsConstants_iff (by decide) ?_).mpr (by decide)
  intro f hf
  have hzero : f = 0 := by simpa using hf
  subst hzero
  decide

/-- `true` added twice. -/
theorem not_pools_bool :
    ¬ ∀ calls : List Add, (∀ a ∈ calls, stores_const a = true) →
      (∀ f, Add.Float f ∈ calls → isNaN f = false) → PoolsConstants calls := by
  intro h
  have hpools := h [.Bool 1, .Bool 1] (by decide) (fun f hf => by simp at hf)
  exact absurd (hpools.bool_once (i := 0) (j := 1) (by decide) rfl rfl) (by decide)

end missed

end koala.image
