import Koala.Image.TwinRun

open koala.atomtable koala.hashtable

namespace koala.image

set_option linter.style.nameCheck false

/-- A memory in which all addresses have one hash. -/
def Memory.level : Memory where
  key _ := 2 ^ 32
  item n := 2 ^ 32 * (n + 2)
  item_injective m n h := by
    have heq : 2 ^ 32 * (m + 2) = 2 ^ 32 * (n + 2) := h
    omega
  key_ne_item m n := by omega

/-- The same memory, except that the `i`th call gets an item with another
hash. -/
def Memory.apart (i : Nat) : Memory where
  key _ := 2 ^ 32
  item n := if n = i then 479199248 else 2 ^ 32 * (n + 2)
  item_injective m n h := by
    dsimp only at h
    split at h <;> split at h <;> omega
  key_ne_item m n := by
    split <;> omega

theorem hash_level (n : Nat) : hash_uint32 (Memory.level.item n % 2 ^ 32) = 0 := by
  have hzero : Memory.level.item n % 2 ^ 32 = 0 := Nat.mul_mod_right _ _
  rw [hzero]
  rfl

theorem hash_level_key (n : Nat) : hash_uint32 (Memory.level.key n % 2 ^ 32) = 0 := by
  have hzero : Memory.level.key n % 2 ^ 32 = 0 := Nat.mod_self _
  rw [hzero]
  rfl

theorem hash_apart (i : Nat) : hash_uint32 ((Memory.apart i).item i % 2 ^ 32) = 16 := by
  have hitem : (Memory.apart i).item i = 479199248 := if_pos rfl
  rw [hitem]
  rfl

theorem good_primes_sixteen : ∀ p ∈ good_primes, 16 % p ≠ 0 := by decide

theorem get_prime_mem {idx : Nat} (h : idx < good_primes.length) : get_prime idx ∈ good_primes := by
  have heq : get_prime idx = good_primes[idx] := by
    simp [get_prime, List.getD_eq_getElem?_getD, h]
  rw [heq]
  exact List.getElem_mem h

section search

variable {T T₁ : Table} {c : ConstItem} {key item : Nat} {val : ConstVal} {index : Int}

/-- An equal constant with the same hash is found. -/
theorem ConstItem_Get_found (hwf : WF T) {d : ConstItem} (hd : d ∈ T.items .ITEM_CONST)
    (hequal : constitem_equal d c = true) (hhash : constitem_hash d = constitem_hash c) :
    ∃ i : Nat, ConstItem_Get T c = i ∧ i < AtomTable_Size T .ITEM_CONST := by
  rcases ConstItem_Get_cases hwf c with hneg | ⟨i, e, hi, he, _⟩
  · obtain ⟨k, hk⟩ := List.getElem?_of_mem hd
    rw [← AtomTable_Get_of_nonneg T .ITEM_CONST] at hk
    have hfalse := hwf.index_not_found rfl hneg hk hhash
    rw [Item_Equal, hequal] at hfalse
    cases hfalse
  · exact ⟨i, hi, (List.getElem?_eq_some_iff.mp he).1⟩

/-- A constant is missed when all that equal it lie in other buckets. -/
theorem ConstItem_Get_missed (hwf : WF T) (h : ∀ d ∈ T.items .ITEM_CONST,
    constitem_equal d c = true → ∀ p ∈ good_primes, constitem_hash c % p ≠ constitem_hash d % p) :
    ConstItem_Get T c = -1 := by
  unfold ConstItem_Get Index AtomTable_Index
  dsimp only
  split
  · rfl
  · next e hfind =>
    obtain ⟨hmem, hequal⟩ := hwf.buckets.find_some hfind
    obtain ⟨i, d, rfl, hd, hdc⟩ := const_of_equal hwf hmem hequal
    have hplace := hwf.buckets.place _ _ (List.mem_of_find?_eq_some hfind)
    have hprime := get_prime_mem hwf.buckets.prime_index_lt
    exact absurd hplace (h d (List.mem_of_getElem? hd) hdc _ hprime)

/-- Where all constants have the hash of the key, storing a constant fails no
assertion. -/
theorem constitem_set_total (hwf : WF T)
    (hhash : ∀ d ∈ T.items .ITEM_CONST, constitem_equal d ⟨item, val⟩ = true →
      constitem_equal d ⟨key, val⟩ = true ∧ constitem_hash d = constitem_hash ⟨key, val⟩) :
    ∃ r, constitem_set key item T val = .ok r := by
  rcases ConstItem_Get_cases hwf ⟨key, val⟩ with hneg | ⟨i, _, hi, _⟩
  · have habsent : ∀ d ∈ T.items .ITEM_CONST, constitem_equal d ⟨item, val⟩ = false := by
      intro d hd
      by_contra hne
      obtain ⟨hequal, hsame⟩ := hhash d hd (by simpa using hne)
      obtain ⟨i, hi, _⟩ := ConstItem_Get_found hwf hd hequal hsame
      omega
    obtain ⟨T₁, hset, _⟩ := constitem_set_append hwf hneg habsent
    exact ⟨_, hset⟩
  · unfold constitem_set
    rw [hi]
    exact ⟨_, if_neg (by omega)⟩

end search

/-- A run in some memory and the same run in the level one: only the constants
may differ. -/
structure Levelled (calls : List Add) (n : Nat) (image image' : KImage) : Prop where
  header : image.header = image'.header
  alike : Alike (image.table.items .ITEM_CONST) (image'.table.items .ITEM_CONST) image.table
    image'.table
  origin : Origin .level calls n (image'.table.items .ITEM_CONST)

section level

variable {mem : Memory} {calls : List Add} {n : Nat} {K K' : List ConstItem}
  {image image₁ image' : KImage}

theorem level_total {T : Table} {val : ConstVal} (hwf : WF T)
    (h : Origin .level calls n (T.items .ITEM_CONST)) :
    ∃ r, constitem_set (Memory.level.key n) (Memory.level.item n) T val = .ok r := by
  refine constitem_set_total hwf fun d hd hequal => ?_
  obtain ⟨m, hm, haddr, _⟩ := h d hd
  obtain ⟨addr, v⟩ := d
  cases val with
  | CONST_FLOAT f =>
    obtain ⟨g, hg, hgf⟩ := constitem_equal_float hequal
    obtain rfl : v = .CONST_FLOAT g := hg
    obtain rfl : addr = Memory.level.item m := haddr
    exact ⟨hgf, (hash_level m).trans (hash_level_key n).symm⟩
  | CONST_BOOL b =>
    have hsame := constitem_equal_bool hequal
    have hmn := Memory.level.item_injective (haddr.symm.trans hsame)
    omega
  | CONST_INT | CONST_STRING | CONST_UCHAR =>
    have hv := (constitem_equal_plain rfl _ _).mp hequal
    refine ⟨(constitem_equal_plain rfl _ _).mpr hv, ?_⟩
    rw [show v = _ from hv]
    rfl

theorem withindex_constant_level {T T' : Table} {val : ConstVal} {key item : Nat}
    {r : Option Int} (hheader : image.header = image'.header) (h : Alike K K' T T')
    (horigin : Origin .level calls n K') (hval : StoredBy calls n val)
    (hadd : withindex (do
      let (index, table) ← constitem_set key item T val
      .ok (index, { image with table })) = .ok (r, image₁)) :
    ∃ r' image₁', withindex (do
        let (index, table) ← constitem_set (Memory.level.key n) (Memory.level.item n) T' val
        .ok (index, { image' with table })) = .ok (r', image₁') ∧
      Levelled calls (n + 1) image₁ image₁' := by
  rw [← h.consts'] at horigin
  obtain ⟨⟨index', T₁'⟩, hset'⟩ : ∃ r, constitem_set (Memory.level.key n) (Memory.level.item n)
      T' val = .ok r := level_total h.wf' horigin
  rw [hset', ok_bind]
  cases hset : constitem_set key item T val with
  | error e =>
    rw [hset] at hadd
    cases hadd
  | ok s =>
    obtain ⟨index, T₁⟩ := s
    rw [hset] at hadd
    cases hadd
    exact ⟨_, _, rfl, hheader, h.constants hset hset', horigin.constitem_set h.wf' hval hset'⟩

/-- A call that succeeds in some memory succeeds in the level one. -/
theorem KImage.add_level {a : Add} {r : Option Int} (h : Levelled calls n image image')
    (hcall : calls[n]? = some a) (hadd : image.add mem n a = .ok (r, image₁)) :
    ∃ r' image₁', image'.add .level n a = .ok (r', image₁') ∧
      Levelled calls (n + 1) image₁ image₁' := by
  cases ha : stores_const a with
  | false =>
    have hagree := KImage.add_agree h.header h.alike ha mem .level n
    rw [hadd] at hagree
    obtain ⟨⟨r', image₁'⟩, hadd', _, hheader, halike⟩ := hagree.exists_ok
    dsimp only at hheader halike
    refine ⟨r', image₁', hadd', hheader, ?_, ?_⟩
    · rw [halike.consts, halike.consts']
      exact halike
    · rw [halike.consts']
      exact h.origin.succ
  | true =>
    cases a with
    | Integer val =>
      exact withindex_constant_level h.header h.alike h.origin
        (storedBy_of_ne hcall (by simp) (by simp)) hadd
    | Float val =>
      refine withindex_constant_level h.header h.alike h.origin (fun f => ?_) hadd
      rw [hcall, Option.some.injEq, Add.Float.injEq, ConstVal.CONST_FLOAT.injEq]
    | Bool val =>
      exact withindex_constant_level h.header h.alike h.origin
        (storedBy_of_ne hcall (by simp) (by simp)) hadd
    | UChar val =>
      exact withindex_constant_level h.header h.alike h.origin
        (storedBy_of_ne hcall (by simp) (by simp)) hadd
    | String val =>
      have hstring := h.alike.StringItem_Set_agree val
      rw [KImage.add, KImage_Add_String] at hadd ⊢
      generalize StringItem_Set image.table val = x at hstring hadd
      generalize StringItem_Set image'.table val = y at hstring ⊢
      cases hstring with
      | error e => cases hadd
      | @ok s s' hss =>
        obtain ⟨idx, T⟩ := s
        obtain ⟨idx', T'⟩ := s'
        obtain ⟨rfl, hT⟩ : idx = idx' ∧ _ := hss
        rw [ok_bind] at hadd ⊢
        dsimp only at hadd ⊢
        split at hadd
        · next hpos =>
          rw [if_pos hpos]
          exact withindex_constant_level h.header hT h.origin
            (storedBy_of_ne hcall (by simp) (by simp)) hadd
        · cases hadd
    | _ => cases ha

/-- Calls that fail no assertion in some memory fail none in the level one. -/
theorem KImage.run_level {adds : List Add} {n : Nat} {image image' final : KImage}
    (h : Levelled calls n image image') (hcalls : ∀ i, adds[i]? = calls[n + i]?)
    (hrun : KImage.run mem n image adds = .ok final) :
    ∃ final', KImage.run .level n image' adds = .ok final' := by
  induction adds generalizing n image image' with
  | nil => exact ⟨image', rfl⟩
  | cons a adds ih =>
    obtain ⟨⟨r, image₁⟩, hadd, hrun⟩ := bind_eq_ok_iff.mp hrun
    have hcall : calls[n]? = some a := (hcalls 0).symm
    obtain ⟨r', image₁', hadd', h₁⟩ := KImage.add_level h hcall hadd
    rw [KImage.run, hadd', ok_bind]
    refine ih h₁ (fun i => ?_) hrun
    have hnext := hcalls (i + 1)
    rwa [List.getElem?_cons_succ, ← Nat.add_assoc, Nat.add_right_comm] at hnext

end level

theorem KImage.run_prefix {mem : Memory} {first rest : List Add} {n : Nat}
    {image final : KImage} (h : KImage.run mem n image (first ++ rest) = .ok final) :
    ∃ image', KImage.run mem n image first = .ok image' := by
  induction first generalizing n image with
  | nil => exact ⟨image, rfl⟩
  | cons a first ih =>
    obtain ⟨⟨r, image₁⟩, hadd, h⟩ := bind_eq_ok_iff.mp h
    rw [KImage.run, hadd, ok_bind]
    exact ih h

theorem completes_take {calls : List Add} (h : Completes calls) (n : Nat) :
    Completes (calls.take n) := by
  obtain ⟨mem, name, final, hrun⟩ := h
  rw [← List.take_append_drop n calls] at hrun
  obtain ⟨image, himage⟩ := KImage.run_prefix hrun
  exact ⟨mem, name, image, himage⟩

theorem newFloat_take {calls : List Add} {j m : Nat} (h : NewFloat calls m) :
    NewFloat (calls.take j) m := by
  have hget : ∀ {k : Nat} {a : Add}, (calls.take j)[k]? = some a → calls[k]? = some a := by
    intro k a hk
    rw [List.getElem?_take] at hk
    split at hk
    · exact hk
    · cases hk
  exact fun f hf k hk g hg => h f (hget hf) k hk g (hget hg)

/-- Without equal floats, calls that complete in some memory do the same in the
level one and in any other. -/
theorem level_twin {calls : List Add} (hcompletes : Completes calls)
    (hnew : NoEqualFloats calls) (mem : Memory) :
    ∃ name image image', KImage.run .level 0 (KImage_New name) calls = .ok image ∧
      KImage.run mem 0 (KImage_New name) calls = .ok image' ∧
      Twin .level mem calls calls.length image.table image'.table := by
  obtain ⟨memory, name, final, hrun⟩ := hcompletes
  have hstart := twin_new memory .level calls
  have hlevelled : Levelled calls 0 (KImage_New name) (KImage_New name) :=
    ⟨rfl, hstart.alike, hstart.origin'⟩
  obtain ⟨image, himage⟩ := KImage.run_level hlevelled (fun i => by rw [Nat.zero_add]) hrun
  obtain ⟨_, hend⟩ := KImage.run_twin hnew .level mem name
  rw [KImage.trace_snd, KImage.trace_snd, himage] at hend
  obtain ⟨image', himage', _, htwin⟩ := hend.exists_ok
  exact ⟨name, image, image', himage, himage', htwin⟩

section equal

variable {calls : List Add} {n i : Nat} {T T' : Table} {f g : BitVec 64}

/-- In the level memory an equal float is found. -/
theorem level_found (htwin : Twin .level (.apart i) calls n T T') (hi : i < n)
    (hg : calls[i]? = some (.Float g)) (hgf : float_eq g f = true) :
    ∃ k : Nat, k < AtomTable_Size T .ITEM_CONST ∧
      constitem_set (Memory.level.key n) (Memory.level.item n) T (.CONST_FLOAT f) =
        .ok ((k : Int), T) := by
  obtain ⟨c, hc, hval⟩ := htwin.stored i hi g hg
  obtain ⟨m, _, haddr, _⟩ := htwin.origin c hc
  obtain ⟨addr, v⟩ := c
  obtain rfl : v = .CONST_FLOAT g := hval
  obtain rfl : addr = Memory.level.item m := haddr
  obtain ⟨k, hk, hlt⟩ := ConstItem_Get_found htwin.alike.wf hc
    (c := ⟨Memory.level.key n, .CONST_FLOAT f⟩) hgf ((hash_level m).trans (hash_level_key n).symm)
  refine ⟨k, hlt, ?_⟩
  unfold constitem_set
  rw [hk]
  exact if_neg (by omega)

/-- In the other memory it is missed when only the `i`th call stored an equal
one. -/
theorem apart_missed (htwin : Twin .level (.apart i) calls n T T')
    (honly : ∀ m < n, ∀ h, calls[m]? = some (.Float h) → float_eq h f = true → m = i)
    {index : Int} {T₁ : Table}
    (hset : constitem_set ((Memory.apart i).key n) ((Memory.apart i).item n) T' (.CONST_FLOAT f) =
      .ok (index, T₁)) : index = AtomTable_Size T' .ITEM_CONST := by
  have hmissed : ConstItem_Get T' ⟨(Memory.apart i).key n, .CONST_FLOAT f⟩ = -1 := by
    refine ConstItem_Get_missed htwin.alike.wf' fun d hd hequal p hp => ?_
    obtain ⟨m, hm, haddr, hfloat⟩ := htwin.origin' d hd
    obtain ⟨h, hh, hhf⟩ := constitem_equal_float hequal
    obtain rfl := honly m hm h (hfloat h hh) hhf
    obtain ⟨addr, v⟩ := d
    obtain rfl : v = .CONST_FLOAT h := hh
    obtain rfl : addr = (Memory.apart m).item m := haddr
    have hkey : constitem_hash ⟨(Memory.apart m).key n, .CONST_FLOAT f⟩ = 0 := hash_level_key n
    have hitem : constitem_hash ⟨(Memory.apart m).item m, .CONST_FLOAT h⟩ = 16 := hash_apart m
    rw [hkey, hitem, Nat.zero_mod]
    exact (good_primes_sixteen p hp).symm
  unfold constitem_set at hset
  rw [hmissed, if_pos (by decide)] at hset
  exact (AtomTable_Append_ok hset).1

end equal

/-- Only one of the earlier floats equals the first float that equals an
earlier one. -/
theorem only_equal {calls : List Add} {n i m : Nat} {f g h : BitVec 64}
    (hnew : ∀ j < n, NewFloat calls j) (hi : i < n) (hm : m < n)
    (hg : calls[i]? = some (.Float g)) (hh : calls[m]? = some (.Float h))
    (hgf : float_eq g f = true) (hhf : float_eq h f = true) : m = i := by
  have hfg : float_eq f g = true := by rw [float_eq_comm, hgf]
  have hhg : float_eq h g = true := float_eq_trans hhf hfg
  rcases Nat.lt_trichotomy m i with hlt | heq | hlt
  · have hfalse := hnew i hi g hg m hlt h hh
    rw [hhg] at hfalse
    cases hfalse
  · exact heq
  · have hfalse := hnew m hm h hh i hlt g hg
    rw [float_eq_comm, hhg] at hfalse
    cases hfalse

/-- A float that equals an earlier one gets an index that depends on where the
earlier one was put. -/
theorem newFloat_of_reproducible {adds : List Add} (hsame : Reproducible adds) {j : Nat}
    (hcompletes : Completes (adds.take j)) (hnew : ∀ k < j, NewFloat adds k) :
    NewFloat adds j := by
  intro f hf i hi g hg
  by_contra hne
  have hgf : float_eq g f = true := by simpa using hne
  have hlength : (adds.take j).length = j := by
    rw [List.length_take]
    have hlt := (List.getElem?_eq_some_iff.mp hf).1
    omega
  have hget : ∀ k < j, (adds.take j)[k]? = adds[k]? := by
    intro k hk
    rw [List.getElem?_take, if_pos hk]
  have hprefix : NoEqualFloats (adds.take j) := by
    intro k _
    rcases Nat.lt_or_ge k j with hlt | hge
    · exact newFloat_take (hnew k hlt)
    · intro h hh
      rw [List.getElem?_take, if_neg (by omega)] at hh
      cases hh
  obtain ⟨name, image, image', hrun, hrun', htwin⟩ := level_twin hcompletes hprefix (.apart i)
  rw [hlength] at htwin
  have hsplit : adds.take j ++ .Float f :: adds.drop (j + 1) = adds := by
    obtain ⟨hlt, hval⟩ := List.getElem?_eq_some_iff.mp hf
    rw [← hval, ← List.drop_eq_getElem_cons hlt, List.take_append_drop]
  have hindex : ∀ {memory : Memory} {reached : KImage},
      KImage.run memory 0 (KImage_New name) (adds.take j) = .ok reached →
      (outcome memory name adds).indices[j]? =
        ((reached.add memory j (.Float f)).map Prod.fst).toOption := by
    intro memory reached hreached
    have htrace : (KImage.trace _ 0 _ (adds.take j ++ .Float f :: adds.drop (j + 1))).1[_]? = _ :=
      KImage.trace_index hreached
    rw [hsplit, hlength, Nat.zero_add] at htrace
    exact htrace
  have hindices := congrArg (fun o => o.indices[j]?) (hsame name .level (.apart i) rfl)
  rw [hindex hrun, hindex hrun'] at hindices
  obtain ⟨k, hk, hfound⟩ := level_found htwin hi ((hget i hi).trans hg) hgf
  rw [KImage.add, KImage.add, KImage_Add_Float, KImage_Add_Float, hfound] at hindices
  have honly : ∀ m < j, ∀ h, (adds.take j)[m]? = some (.Float h) → float_eq h f = true →
      m = i := by
    intro m hm h hh hhf
    rw [hget m hm] at hh
    exact only_equal hnew hi hm hg hh hgf hhf
  cases hset : constitem_set ((Memory.apart i).key j) ((Memory.apart i).item j) image'.table
      (.CONST_FLOAT f) with
  | error e =>
    rw [hset] at hindices
    cases hindices
  | ok r =>
    obtain ⟨index, T₁⟩ := r
    have hsize := apart_missed htwin honly hset
    rw [hset] at hindices
    have hsome : some (some (k : Int)) = some (some index) := hindices
    have heq : (k : Int) = index := Option.some.inj (Option.some.inj hsome)
    rw [← htwin.size_eq] at hsize
    omega

/-- For every sequence of `KImage_Add_*` calls: what they return, the items and
the file are the same wherever the allocator puts the constants, exactly when
no call that is reached adds a float equal to that of an earlier call. Such a
float is looked up in the bucket of the address of the key, but lies in the
bucket of the address it was stored at. -/
theorem KImage.reproducible_iff (adds : List Add) : Reproducible adds ↔ NoEqualFloats adds := by
  constructor
  · intro hsame j
    induction j using Nat.strong_induction_on with
    | _ j ih =>
      intro hcompletes
      refine newFloat_of_reproducible hsame hcompletes fun k hk => ih k hk ?_
      have htake := completes_take hcompletes k
      rwa [List.take_take, Nat.min_eq_left (by omega)] at htake
  · intro hnew name mem mem' _
    exact outcome_eq hnew name mem mem'

/-- The double 1.0, added twice. -/
def two_ones : List Add := [.Float 0x3ff0000000000000, .Float 0x3ff0000000000000]

/-- One memory shares the constant, the other stores it twice. -/
theorem KImage.not_reproducible : ¬ ∀ adds, Reproducible adds := by
  intro h
  have hsame := congrArg Outcome.indices (h two_ones none .level (.apart 0) rfl)
  have hlevel : (outcome .level none two_ones).indices = [some 0, some 0] := by decide +kernel
  have hapart : (outcome (.apart 0) none two_ones).indices = [some 0, some 1] := by
    decide +kernel
  rw [hlevel, hapart] at hsame
  exact absurd hsame (by decide)

end koala.image
