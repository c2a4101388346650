import Koala.Image.Supplied
import Koala.Image.Reproducible

open koala.atomtable

namespace koala.image

set_option linter.style.nameCheck false

/-- The constant that a call adds. -/
def AddsValue (T : Table) : Add → ConstVal → Prop
  | .Integer val, v => v = .CONST_INT val
  | .Float val, v => v = .CONST_FLOAT val
  | .Bool val, v => v = .CONST_BOOL val
  | .String val, v => ∃ idx, HoldsString T idx val ∧ v = .CONST_STRING idx
  | .UChar val, v => v = .CONST_UCHAR val
  | _, _ => False

variable {T T₁ : Table} {a b : Add} {v w : ConstVal} {image image' : KImage}

theorem AddsValue.extends (hext : Extends T T₁) (h : AddsValue T a v) : AddsValue T₁ a v := by
  cases a with
  | String val =>
    obtain ⟨idx, hidx, hv⟩ := h
    exact ⟨idx, hidx.extends hext, hv⟩
  | _ => exact h

theorem AddsValue.injective (ha : AddsValue T a v) (hb : AddsValue T b v) : a = b := by
  cases a with
  | String s =>
    obtain ⟨idx, hidx, rfl⟩ := ha
    cases b with
    | String s' =>
      obtain ⟨idx', hidx', heq⟩ := hb
      cases heq
      rw [hidx.functional hidx']
    | Integer | Float | Bool | UChar => cases hb
    | _ => exact hb.elim
  | Integer | Float | Bool | UChar =>
    cases ha
    cases b with
    | String s' =>
      obtain ⟨idx', hidx', heq⟩ := hb
      cases heq
    | Integer | Float | Bool | UChar => first | (cases hb; rfl) | cases hb
    | _ => exact hb.elim
  | _ => exact ha.elim

theorem AddsValue.functional (hT : Sound T) (hv : AddsValue T a v) (hw : AddsValue T a w) :
    v = w := by
  cases a with
  | String val =>
    obtain ⟨idx, hidx, rfl⟩ := hv
    obtain ⟨idx', hidx', rfl⟩ := hw
    rw [hT.string_injective hidx hidx']
  | Integer | Float | Bool | UChar => exact hv.trans hw.symm
  | _ => exact hv.elim

/-- The calls whose constants are found again by their value. -/
def shares_const : Add → Bool
  | .Float _ | .Bool _ => false
  | _ => true

theorem AddsValue.plain (h : AddsValue T a v) : v.plain = shares_const a := by
  cases a with
  | String val =>
    obtain ⟨_, _, rfl⟩ := h
    rfl
  | Integer | Float | Bool | UChar =>
    cases h
    rfl
  | _ => exact h.elim

/-- Adding a constant is storing its value, in a table that may have got one
more string. -/
theorem add_constant (hT : Sound image.table) (ha : stores_const a = true) :
    ∃ T₁ v, Sound T₁ ∧ Extends image.table T₁ ∧ AddsValue T₁ a v ∧
      T₁.items .ITEM_CONST = image.table.items .ITEM_CONST ∧
      ∀ mem n, image.add mem n a = withindex (do
        let (index, table) ← constitem_set (mem.key n) (mem.item n) T₁ v
        .ok (index, { image with table })) := by
  cases a with
  | Integer val => exact ⟨_, _, hT, Extends.refl _, rfl, rfl, fun _ _ => rfl⟩
  | Float val => exact ⟨_, _, hT, Extends.refl _, rfl, rfl, fun _ _ => rfl⟩
  | Bool val => exact ⟨_, _, hT, Extends.refl _, rfl, rfl, fun _ _ => rfl⟩
  | UChar val => exact ⟨_, _, hT, Extends.refl _, rfl, rfl, fun _ _ => rfl⟩
  | String val =>
    obtain ⟨⟨idx, T₁⟩, hset⟩ := hT.StringItem_Set_total val
    obtain ⟨hgrows, hidx⟩ := hT.StringItem_Set_ok hset
    have hpos : 0 ≤ idx := get_nonneg hidx
    refine ⟨T₁, .CONST_STRING idx, hgrows.sound, hgrows.ext, ⟨idx, hidx, rfl⟩,
      hgrows.frame .ITEM_CONST rfl, fun mem n => ?_⟩
    rw [KImage.add, KImage_Add_String, hset, ok_bind]
    dsimp only
    rw [if_pos hpos]
  | _ => cases ha

/-- The constants behind the first `n` calls. Every one was stored by one of the
calls, and every call has one, with its value or an equal float. -/
structure Pool (mem : Memory) (calls : List Add) (n : Nat) (indices : List (Option Int))
    (T : Table) : Prop where
  sound : Sound T
  length : indices.length = n
  origin : ∀ (k : Nat) (c : ConstItem), (T.items .ITEM_CONST)[k]? = some c →
    ∃ m < n, ∃ a, calls[m]? = some a ∧ AddsValue T a c.val ∧ c.addr = mem.item m ∧
      indices[m]? = some (some (k : Int))
  placed : ∀ (m : Nat) (a : Add), m < n → calls[m]? = some a →
    ∃ (k : Nat) (c : ConstItem), indices[m]? = some (some (k : Int)) ∧
      (T.items .ITEM_CONST)[k]? = some c ∧
      (AddsValue T a c.val ∨ ∃ f g, a = .Float f ∧ c.val = .CONST_FLOAT g ∧ float_eq g f = true)
  own : ∀ (m : Nat) (b : BitVec 32) (k : Nat) (c : ConstItem), m < n → calls[m]? = some (.Bool b) →
    indices[m]? = some (some (k : Int)) → (T.items .ITEM_CONST)[k]? = some c → c.addr = mem.item m

namespace Pool

variable {mem : Memory} {calls : List Add} {n : Nat} {indices : List (Option Int)}

theorem nil (mem : Memory) (calls : List Add) (name : Option CString) :
    Pool mem calls 0 [] (KImage_New name).table where
  sound := sound_new
  length := rfl
  origin k c hc := by simp [KImage_New, AtomTable_New] at hc
  placed m a hm := by omega
  own m b k c hm := by omega

/-- The constants stay where they are when nothing but strings is added. -/
theorem later (h : Pool mem calls n indices T) (hT₁ : Sound T₁) (hext : Extends T T₁)
    (hconst : T₁.items .ITEM_CONST = T.items .ITEM_CONST) : Pool mem calls n indices T₁ where
  sound := hT₁
  length := h.length
  origin k c hc := by
    rw [hconst] at hc
    obtain ⟨m, hm, a, ha, hval, hrest⟩ := h.origin k c hc
    exact ⟨m, hm, a, ha, hval.extends hext, hrest⟩
  placed m a hm ha := by
    obtain ⟨k, c, hk, hc, hval⟩ := h.placed m a hm ha
    refine ⟨k, c, hk, hconst ▸ hc, hval.imp (·.extends hext) id⟩
  own m b k c hm hb hk hc := h.own m b k c hm hb hk (hconst ▸ hc)

/-- A call whose constant is found. -/
theorem found (h : Pool mem calls n indices T) {k : Nat} {c : ConstItem}
    (ha : calls[n]? = some a) (hbool : ∀ b, a ≠ .Bool b) (hc : (T.items .ITEM_CONST)[k]? = some c)
    (hval : AddsValue T a c.val ∨ ∃ f g, a = .Float f ∧ c.val = .CONST_FLOAT g ∧
      float_eq g f = true) : Pool mem calls (n + 1) (indices ++ [some (k : Int)]) T where
  sound := h.sound
  length := by rw [List.length_append, h.length, List.length_singleton]
  origin j d hd := by
    obtain ⟨m, hm, b, hb, hbval, haddr, hindex⟩ := h.origin j d hd
    refine ⟨m, by omega, b, hb, hbval, haddr, ?_⟩
    rw [List.getElem?_append_left (by rw [h.length]; exact hm), hindex]
  placed m b hm hb := by
    by_cases heq : m = n
    · subst heq
      rw [ha, Option.some.injEq] at hb
      subst hb
      refine ⟨k, c, ?_, hc, hval⟩
      rw [List.getElem?_append_right (by rw [h.length]), h.length, Nat.sub_self]
      rfl
    · obtain ⟨j, d, hj, hd, hbval⟩ := h.placed m b (by omega) hb
      refine ⟨j, d, ?_, hd, hbval⟩
      rw [List.getElem?_append_left (by rw [h.length]; omega), hj]
  own m b j d hm hb hj hd := by
    by_cases heq : m = n
    · subst heq
      rw [ha, Option.some.injEq] at hb
      exact absurd hb (hbool b)
    · rw [List.getElem?_append_left (by rw [h.length]; omega)] at hj
      exact h.own m b j d (by omega) hb hj hd

/-- A call whose constant is stored. -/
theorem stored (h : Pool mem calls n indices T) (ha : calls[n]? = some a) (hT₁ : Sound T₁)
    (hext : Extends T T₁) (hval : AddsValue T₁ a v)
    (hitems : T₁.items .ITEM_CONST = T.items .ITEM_CONST ++ [⟨mem.item n, v⟩]) :
    Pool mem calls (n + 1) (indices ++ [some (AtomTable_Size T .ITEM_CONST : Int)]) T₁ where
  sound := hT₁
  length := by rw [List.length_append, h.length, List.length_singleton]
  origin j d hd := by
    have hlast : (indices ++ [some (AtomTable_Size T .ITEM_CONST : Int)])[n]? =
        some (some (AtomTable_Size T .ITEM_CONST : Int)) := by
      rw [List.getElem?_append_right (by rw [h.length]), h.length, Nat.sub_self]
      rfl
    rw [hitems] at hd
    by_cases hj : j < (T.items .ITEM_CONST).length
    · rw [List.getElem?_append_left hj] at hd
      obtain ⟨m, hm, b, hb, hbval, haddr, hindex⟩ := h.origin j d hd
      refine ⟨m, by omega, b, hb, hbval.extends hext, haddr, ?_⟩
      rw [List.getElem?_append_left (by rw [h.length]; exact hm), hindex]
    · rw [List.getElem?_append_right (by omega)] at hd
      have hzero : j - (T.items .ITEM_CONST).length = 0 := by
        by_contra hne
        obtain ⟨l, hl⟩ := Nat.exists_eq_succ_of_ne_zero hne
        rw [hl] at hd
        simp at hd
      rw [hzero] at hd
      cases hd
      have hjsize : j = AtomTable_Size T .ITEM_CONST := by
        rw [AtomTable_Size]
        omega
      exact ⟨n, by omega, a, ha, hval, rfl, by rw [hlast, hjsize]⟩
  placed m b hm hb := by
    by_cases heq : m = n
    · subst heq
      rw [ha, Option.some.injEq] at hb
      subst hb
      refine ⟨AtomTable_Size T .ITEM_CONST, ⟨mem.item m, v⟩, ?_, ?_, .inl hval⟩
      · rw [List.getElem?_append_right (by rw [h.length]), h.length, Nat.sub_self]
        rfl
      · rw [hitems, AtomTable_Size, List.getElem?_append_right le_rfl, Nat.sub_self]
        rfl
    · obtain ⟨j, d, hj, hd, hbval⟩ := h.placed m b (by omega) hb
      refine ⟨j, d, ?_, ?_, hbval.imp (·.extends hext) id⟩
      · rw [List.getElem?_append_left (by rw [h.length]; omega), hj]
      · rw [hitems, List.getElem?_append_left (List.getElem?_eq_some_iff.mp hd).1, hd]
  own m b j d hm hb hj hd := by
    by_cases heq : m = n
    · subst heq
      rw [List.getElem?_append_right (by rw [h.length]), h.length, Nat.sub_self] at hj
      have hsize : j = (T.items .ITEM_CONST).length := by
        have hint : (AtomTable_Size T .ITEM_CONST : Int) = j :=
          Option.some.inj (Option.some.inj hj)
        rw [AtomTable_Size] at hint
        omega
      rw [hitems, hsize, List.getElem?_append_right le_rfl, Nat.sub_self] at hd
      cases hd
      rfl
    · rw [List.getElem?_append_left (by rw [h.length]; omega)] at hj
      obtain ⟨k, c, hk, hc, -⟩ := h.placed m _ (by omega) hb
      have hkj : (k : Int) = j := Option.some.inj (Option.some.inj (hk.symm.trans hj))
      obtain rfl : k = j := by omega
      rw [hitems, List.getElem?_append_left (List.getElem?_eq_some_iff.mp hc).1] at hd
      exact h.own m b k d (by omega) hb hj hd

/-- What a call does to the constants. -/
theorem step (h : Pool mem calls n indices image.table) (ha : calls[n]? = some a)
    (hconst : stores_const a = true) {r : Option Int} (hadd : image.add mem n a = .ok (r, image')) :
    Pool mem calls (n + 1) (indices ++ [r]) image'.table := by
  obtain ⟨T₁, v, hT₁, hext, hval, hitems, hcall⟩ := add_constant h.sound hconst
  have hlater := h.later hT₁ hext hitems
  obtain ⟨_, _, _, _, hplaces⟩ := KImage.add_ok h.sound hadd
  rw [hcall, withindex_eq_ok_iff] at hadd
  obtain ⟨index, hadd, rfl⟩ := hadd
  obtain ⟨⟨_, T₂⟩, hset, hadd⟩ := bind_eq_ok_iff.mp hadd
  cases hadd
  have hsound : Sound T₂ := hplaces.sound
  rcases ConstItem_Get_cases hT₁.wf ⟨mem.key n, v⟩ with hneg | ⟨k, d, hk, hd, hequal⟩
  · rw [constitem_set, hneg] at hset
    have happend : Append T₁ .ITEM_CONST ⟨mem.item n, v⟩ = .ok (index, T₂) := hset
    obtain ⟨hindex, hitems₂, -⟩ := AtomTable_Append_ok happend
    rw [hindex]
    have hext₂ : Extends T₁ T₂ := extends_of_items hitems₂
    exact hlater.stored ha hsound hext₂ (hval.extends hext₂) (by rw [hitems₂, appended_self])
  · rw [constitem_set, hk] at hset
    have hpos : ¬ (k : Int) < 0 := by omega
    rw [if_neg hpos] at hset
    cases hset
    have hnobool : ∀ b, a ≠ .Bool b := by
      rintro b rfl
      obtain rfl : v = .CONST_BOOL b := hval
      -- the item of a call is never the key of another one
      obtain ⟨m, _, _, _, _, haddr, _⟩ := hlater.origin k d hd
      exact mem.key_ne_item n m ((constitem_equal_bool hequal).symm.trans haddr)
    refine hlater.found ha hnobool hd ?_
    cases hplain : v.plain with
    | true => exact .inl ((constitem_equal_plain hplain d _).mp hequal ▸ hval)
    | false =>
      rw [hval.plain] at hplain
      cases a with
      | Float f =>
        obtain rfl : v = .CONST_FLOAT f := hval
        obtain ⟨g, hg, hgf⟩ := constitem_equal_float hequal
        exact .inr ⟨f, g, rfl, hg, hgf⟩
      | Bool b => exact absurd rfl (hnobool b)
      | _ => cases hplain

/-- What a run of calls does to them. -/
theorem trace (hconst : ∀ a ∈ calls, stores_const a = true) {rest : List Add}
    (h : Pool mem calls n indices image.table) (hrest : calls.drop n = rest) {final : KImage}
    (hok : (KImage.trace mem n image rest).2 = .ok final) :
    Pool mem calls (n + rest.length) (indices ++ (KImage.trace mem n image rest).1) final.table := by
  induction rest generalizing n indices image with
  | nil =>
    cases hok
    rw [KImage.trace, List.append_nil]
    exact h
  | cons a rest ih =>
    have ha : calls[n]? = some a := by
      rw [← Nat.add_zero n, ← List.getElem?_drop, hrest]
      rfl
    rw [KImage.trace] at hok ⊢
    cases hadd : image.add mem n a with
    | error e =>
      rw [hadd] at hok
      cases hok
    | ok s =>
      obtain ⟨r, image₁⟩ := s
      rw [hadd] at hok
      have hstep := h.step ha (hconst a (List.mem_of_getElem? ha)) hadd
      have hnext : calls.drop (n + 1) = rest := by
        rw [← List.drop_drop, hrest]
        rfl
      have hrun := ih hstep hnext hok
      rw [List.append_assoc] at hrun
      rw [List.length_cons, Nat.add_comm rest.length, ← Nat.add_assoc]
      exact hrun

end Pool

end koala.image
