import Koala.TypeDesc.Parsed

open koala.stringbuf

namespace koala.typedesc

set_option linter.style.nameCheck false

open TypeDesc

section reads

variable {fuel dims varg : Nat} {stop : UInt8} {s : List UInt8} {t : TypeDesc}

/-- Where a descriptor may stand: brackets and dots only outside of an array or a
variable argument. -/
def Allowed (dims varg : Nat) (s : List UInt8) : Prop :=
  (dims = 0 ∨ varg = 0) ∧ (dims = 0 ∧ varg = 0 ∨ Plain s)

theorem allowed_zero (s : List UInt8) : Allowed 0 0 s := ⟨.inl rfl, .inl ⟨rfl, rfl⟩⟩

/-- The parser reads the descriptor that a text starts with. -/
def Reads (t : TypeDesc) : Prop :=
  ∀ (fuel : Nat) (s : List UInt8) (dims varg : Nat), Allowed dims varg t.spelling →
    2 * (t.spelling ++ s).length + 1 ≤ fuel →
    String_To_TypeDesc fuel (t.spelling ++ s) dims varg = .ok (t, s)

/-- The loop over a list that starts with some descriptors goes on behind them. -/
theorem types_until_append {l : List TypeDesc} (hl : ∀ t ∈ l, t.Grammatical)
    (hreads : ∀ t ∈ l, Reads t) (hstop : stop = ':'.toUInt8 ∨ stop = ';'.toUInt8)
    (hfuel : 2 * (spellings l ++ s).length + 2 ≤ fuel) :
    ∃ fuel', 2 * s.length + 2 ≤ fuel' ∧ types_until fuel stop (spellings l ++ s) =
      (types_until fuel' stop s).map fun p => (l ++ p.1, p.2) := by
  induction l generalizing fuel with
  | nil =>
    refine ⟨fuel, hfuel, ?_⟩
    cases heq : types_until fuel stop s <;> exact heq
  | cons t l ih =>
    obtain ⟨ht, hl⟩ := List.forall_mem_cons.mp hl
    obtain ⟨hread, hreads⟩ := List.forall_mem_cons.mp hreads
    rw [spellings, List.append_assoc] at hfuel ⊢
    obtain ⟨c, x, hcons, hcolon, hsemi⟩ := ht.spelling_cons
    have hpos := List.length_pos_iff.mpr ht.spelling_ne_nil
    rw [List.length_append] at hfuel
    obtain ⟨fuel, rfl⟩ : ∃ f, fuel = f + 1 := ⟨fuel - 1, by omega⟩
    obtain ⟨fuel', hle, heq⟩ := @ih fuel hl hreads (by omega)
    refine ⟨fuel', hle, ?_⟩
    have hne : (t.spelling ++ (spellings l ++ s)).head? ≠ some stop := by
      rw [hcons, List.cons_append, List.head?_cons]
      rcases hstop with rfl | rfl
      · exact fun h => hcolon (Option.some.inj h)
      · exact fun h => hsemi (Option.some.inj h)
    rw [types_until, if_neg hne, hread fuel _ 0 0 (allowed_zero _)
      (by rw [List.length_append]; omega), ok_bind]
    dsimp only
    rw [heq]
    cases types_until fuel' stop s <;> rfl

theorem types_until_reads {l : List TypeDesc} (hl : ∀ t ∈ l, t.Grammatical)
    (hreads : ∀ t ∈ l, Reads t) (hstop : stop = ':'.toUInt8 ∨ stop = ';'.toUInt8)
    (hfuel : 2 * (spellings l ++ stop :: s).length + 2 ≤ fuel) :
    types_until fuel stop (spellings l ++ stop :: s) = .ok (l, s) := by
  obtain ⟨fuel', hle, heq⟩ := types_until_append hl hreads hstop hfuel
  obtain ⟨fuel', rfl⟩ : ∃ f, fuel' = f + 1 := ⟨fuel' - 1, by omega⟩
  rw [heq, types_until, if_pos (List.head?_cons), Except.map, List.append_nil, List.tail_cons]

theorem reads_base (b : BaseType) : Reads (.base b) := by
  intro fuel s dims varg hallowed hfuel
  obtain ⟨fuel, rfl⟩ : ∃ f, fuel = f + 1 := ⟨fuel - 1, by omega⟩
  rw [spelling, List.singleton_append, String_To_TypeDesc_letter (letter_mem b).1,
    get_basic_letter]
  have hnot : ¬ (dims > 0 ∧ varg > 0) := by
    have hone := hallowed.1
    omega
  exact if_neg hnot

theorem reads_klass {path type : CString} (h : Named path.bytes type.bytes) :
    Reads (.klass (some path) type) := by
  intro fuel s dims varg hallowed hfuel
  obtain ⟨fuel, rfl⟩ : ∃ f, fuel = f + 1 := ⟨fuel - 1, by omega⟩
  have hread := @klass_of_named fuel dims varg path.bytes type.bytes s h
  rw [CString.ofData_bytes, CString.ofData_bytes] at hread
  rw [spelling, Str.bytes_some, ← hread]
  simp only [List.cons_append, List.append_assoc, List.nil_append]

theorem reads_proto {arg ret : List TypeDesc} (harg : ∀ t ∈ arg, t.Grammatical)
    (hret : ∀ t ∈ ret, t.Grammatical) (hargs : ∀ t ∈ arg, Reads t)
    (hrets : ∀ t ∈ ret, Reads t) : Reads (.proto arg ret) := by
  intro fuel s dims varg hallowed hfuel
  obtain ⟨fuel, rfl⟩ : ∃ f, fuel = f + 1 := ⟨fuel - 1, by omega⟩
  have heq : (TypeDesc.proto arg ret).spelling ++ s =
      'P'.toUInt8 :: (spellings arg ++ ':'.toUInt8 :: (spellings ret ++ ';'.toUInt8 :: s)) := by
    rw [spelling]
    simp only [List.cons_append, List.append_assoc, List.nil_append]
  rw [heq] at hfuel ⊢
  rw [List.length_cons] at hfuel
  have hlen : (spellings ret ++ ';'.toUInt8 :: s).length <
      (spellings arg ++ ':'.toUInt8 :: (spellings ret ++ ';'.toUInt8 :: s)).length :=
    length_lt_append_cons _ _ _
  rw [String_To_TypeDesc_P, types_until_reads harg hargs (.inl rfl) (by omega), ok_bind]
  dsimp only
  rw [types_until_reads hret hrets (.inr rfl) (by omega)]
  rfl

theorem reads_array {dims : BitVec 32} {t : TypeDesc} (hdims : 0 < dims.toInt)
    (hplain : Plain t.spelling) (ht : t.Grammatical) (hread : Reads t) :
    Reads (.array dims t) := by
  intro fuel s d v hallowed hfuel
  obtain ⟨fuel, rfl⟩ : ∃ f, fuel = f + 1 := ⟨fuel - 1, by omega⟩
  have hzero : d = 0 ∧ v = 0 := by
    refine hallowed.2.resolve_right fun h => h.1 ?_
    rw [spelling, brackets_cons (by omega)]
    rfl
  have hhead : (t.spelling ++ s).head? ≠ some '['.toUInt8 :=
    ((Plain.append ht.spelling_ne_nil).mpr hplain).1
  have hle : dims.toInt.toNat ≤ INT_MAX := by
    have hlt := BitVec.toInt_lt (x := dims)
    rw [INT_MAX]
    omega
  have hback : BitVec.ofNat 32 dims.toInt.toNat = dims := by
    apply BitVec.eq_of_toInt_eq
    rw [dims_toInt hle]
    omega
  rw [spelling, List.append_assoc] at hfuel ⊢
  rw [List.length_append, List.length_replicate] at hfuel
  rw [String_To_TypeDesc_bracket (by omega) hhead, if_pos hzero, if_pos hle,
    hread fuel s _ 0 ⟨.inr rfl, .inr hplain⟩ (by omega), ok_bind]
  dsimp only
  rw [hback]

theorem reads_map {key val : TypeDesc} (hkey : Reads key) (hval : Reads val) :
    Reads (.map key val) := by
  intro fuel s dims varg hallowed hfuel
  obtain ⟨fuel, rfl⟩ : ∃ f, fuel = f + 1 := ⟨fuel - 1, by omega⟩
  rw [spelling, List.cons_append, List.append_assoc] at hfuel ⊢
  rw [List.length_cons, List.length_append] at hfuel
  rw [String_To_TypeDesc_M, hkey fuel _ 0 0 (allowed_zero _)
    (by rw [List.length_append]; omega), ok_bind]
  dsimp only
  rw [hval fuel s 0 0 (allowed_zero _) (by omega)]
  rfl

theorem reads_set (hread : Reads t) : Reads (.set t) := by
  intro fuel s dims varg hallowed hfuel
  obtain ⟨fuel, rfl⟩ : ∃ f, fuel = f + 1 := ⟨fuel - 1, by omega⟩
  rw [spelling, List.cons_append] at hfuel ⊢
  rw [List.length_cons] at hfuel
  rw [String_To_TypeDesc_S, hread fuel s 0 0 (allowed_zero _) (by omega)]
  rfl

/-- The letter of the type any, which is looked for first, is read the same way. -/
theorem reads_varg (ht : t.Grammatical) (hplain : Plain t.spelling) (hread : Reads t) :
    Reads (.varg t) := by
  intro fuel s dims varg hallowed hfuel
  obtain ⟨fuel, rfl⟩ : ∃ f, fuel = f + 1 := ⟨fuel - 1, by omega⟩
  have hzero : dims = 0 ∧ varg = 0 := by
    refine hallowed.2.resolve_right fun h => h.2 ?_
    rw [spelling]
    rfl
  rw [spelling, List.cons_append, List.cons_append, List.cons_append] at hfuel ⊢
  rw [List.length_cons, List.length_cons, List.length_cons] at hfuel
  have htake : ('.'.toUInt8 :: '.'.toUInt8 :: (t.spelling ++ s)).take 2 =
      ['.'.toUInt8, '.'.toUInt8] := rfl
  have hdrop : ('.'.toUInt8 :: '.'.toUInt8 :: (t.spelling ++ s)).drop 2 = t.spelling ++ s := rfl
  rw [String_To_TypeDesc_dots, if_pos hzero, if_pos htake, hdrop]
  have hinner := hread fuel s 0 1 ⟨.inl rfl, .inr hplain⟩ (by omega)
  split
  · next hany =>
    obtain ⟨r, hr⟩ := List.head?_eq_some_iff.mp hany
    have hletter : get_basic 'A'.toUInt8 = some .BASE_ANY := by decide
    obtain ⟨fuel, rfl⟩ : ∃ f, fuel = f + 1 := ⟨fuel - 1, by omega⟩
    rw [hr, String_To_TypeDesc_letter (by decide), hletter] at hinner
    rw [hr]
    cases hinner
    rfl
  · rw [hinner]
    rfl

/-- The parser reads every descriptor of the grammar as it is spelled. -/
theorem TypeDesc.Grammatical.reads (ht : t.Grammatical) : Reads t := by
  induction ht with
  | base b => exact reads_base b
  | klass h => exact reads_klass h
  | proto harg hret iharg ihret => exact reads_proto harg hret iharg ihret
  | array hdims ht hplain ih => exact reads_array hdims hplain ht ih
  | map hkey hval ihkey ihval => exact reads_map ihkey ihval
  | set ht ih => exact reads_set ih
  | varg ht hplain ih => exact reads_varg ht hplain ih

end reads

section fails

variable {fuel dims varg n : Nat} {stop : UInt8} {s : List UInt8}

/-- The parser goes wrong without an assertion. -/
def Fails (s : List UInt8) : Prop :=
  ∀ fuel dims varg : Nat, Allowed dims varg s → 2 * s.length + 1 ≤ fuel →
    ∃ e, e ≠ .assertion ∧ String_To_TypeDesc fuel s dims varg = .error e

theorem fails_array {r : List UInt8} (hn : 0 < n) (hle : n ≤ INT_MAX) (hplain : Plain r)
    (h : Fails r) : Fails (List.replicate n '['.toUInt8 ++ r) := by
  intro fuel dims varg hallowed hfuel
  obtain ⟨fuel, rfl⟩ : ∃ f, fuel = f + 1 := ⟨fuel - 1, by omega⟩
  have hzero : dims = 0 ∧ varg = 0 := by
    refine hallowed.2.resolve_right fun h => h.1 ?_
    rw [brackets_cons hn]
    rfl
  rw [List.length_append, List.length_replicate] at hfuel
  obtain ⟨e, hne, he⟩ := h fuel n 0 ⟨.inr rfl, .inr hplain⟩ (by omega)
  refine ⟨e, hne, ?_⟩
  rw [String_To_TypeDesc_bracket hn hplain.1, if_pos hzero, if_pos hle, he]
  rfl

theorem fails_dims {r : List UInt8} (hn : INT_MAX < n) (hr : r.head? ≠ some '['.toUInt8) :
    Fails (List.replicate n '['.toUInt8 ++ r) := by
  intro fuel dims varg hallowed hfuel
  obtain ⟨fuel, rfl⟩ : ∃ f, fuel = f + 1 := ⟨fuel - 1, by omega⟩
  have hzero : dims = 0 ∧ varg = 0 := by
    refine hallowed.2.resolve_right fun h => h.1 ?_
    rw [brackets_cons (by omega)]
    rfl
  refine ⟨.overflow, by decide, ?_⟩
  rw [String_To_TypeDesc_bracket (by omega) hr, if_pos hzero, if_neg (by omega)]

theorem fails_varg (hplain : Plain s) (h : Fails s) (hbreaks : Breaks s) :
    Fails ('.'.toUInt8 :: '.'.toUInt8 :: '.'.toUInt8 :: s) := by
  intro fuel dims varg hallowed hfuel
  obtain ⟨fuel, rfl⟩ : ∃ f, fuel = f + 1 := ⟨fuel - 1, by omega⟩
  have hzero : dims = 0 ∧ varg = 0 := hallowed.2.resolve_right fun h => h.2 rfl
  have htake : ('.'.toUInt8 :: '.'.toUInt8 :: s).take 2 = ['.'.toUInt8, '.'.toUInt8] := rfl
  have hdrop : ('.'.toUInt8 :: '.'.toUInt8 :: s).drop 2 = s := rfl
  have hany : s.head? ≠ some 'A'.toUInt8 := hbreaks.head_ne (by decide)
  rw [List.length_cons, List.length_cons, List.length_cons] at hfuel
  obtain ⟨e, hne, he⟩ := h fuel 0 1 ⟨.inl rfl, .inr hplain⟩ (by omega)
  refine ⟨e, hne, ?_⟩
  rw [String_To_TypeDesc_dots, if_pos hzero, if_pos htake, hdrop, if_neg hany, he]
  rfl

/-- A loop over a list goes wrong where a descriptor of it does. -/
theorem types_until_fails {l : List TypeDesc} (hl : ∀ t ∈ l, t.Grammatical)
    (hstop : stop = ':'.toUInt8 ∨ stop = ';'.toUInt8) (hbreaks : Breaks s) (h : Fails s)
    (hfuel : 2 * (spellings l ++ s).length + 2 ≤ fuel) :
    ∃ e, e ≠ .assertion ∧ types_until fuel stop (spellings l ++ s) = .error e := by
  obtain ⟨fuel', hle, heq⟩ := types_until_append hl (fun t ht => (hl t ht).reads) hstop hfuel
  obtain ⟨fuel', rfl⟩ : ∃ f, fuel' = f + 1 := ⟨fuel' - 1, by omega⟩
  obtain ⟨e, hne, he⟩ := h fuel' 0 0 (allowed_zero s) (by omega)
  refine ⟨e, hne, ?_⟩
  have hhead : s.head? ≠ some stop := by
    rcases hstop with rfl | rfl <;> exact hbreaks.head_ne (by decide)
  rw [heq, types_until, if_neg hhead, he]
  rfl

theorem Breaks.fails (h : Breaks s) : Fails s := by
  induction h with
  | klass h =>
    intro fuel dims varg _ hfuel
    obtain ⟨fuel, rfl⟩ : ∃ f, fuel = f + 1 := ⟨fuel - 1, by omega⟩
    obtain ⟨e, hne, -, he⟩ := klass_of_not_named h
    exact ⟨e, hne, he⟩
  | dims hn hs => exact fails_dims hn hs
  | array hzero hn hplain h ih => exact fails_array hzero hn hplain ih
  | key h ih =>
    intro fuel dims varg _ hfuel
    obtain ⟨fuel, rfl⟩ : ∃ f, fuel = f + 1 := ⟨fuel - 1, by omega⟩
    rw [List.length_cons] at hfuel
    obtain ⟨e, hne, he⟩ := ih fuel 0 0 (allowed_zero _) (by omega)
    exact ⟨e, hne, by rw [String_To_TypeDesc_M, he]; rfl⟩
  | val hkey h ih =>
    intro fuel dims varg _ hfuel
    obtain ⟨fuel, rfl⟩ : ∃ f, fuel = f + 1 := ⟨fuel - 1, by omega⟩
    rw [List.length_cons, List.length_append] at hfuel
    obtain ⟨e, hne, he⟩ := ih fuel 0 0 (allowed_zero _) (by omega)
    refine ⟨e, hne, ?_⟩
    rw [String_To_TypeDesc_M, hkey.reads fuel _ 0 0 (allowed_zero _)
      (by rw [List.length_append]; omega), ok_bind]
    dsimp only
    rw [he]
    rfl
  | set h ih =>
    intro fuel dims varg _ hfuel
    obtain ⟨fuel, rfl⟩ : ∃ f, fuel = f + 1 := ⟨fuel - 1, by omega⟩
    rw [List.length_cons] at hfuel
    obtain ⟨e, hne, he⟩ := ih fuel 0 0 (allowed_zero _) (by omega)
    exact ⟨e, hne, by rw [String_To_TypeDesc_S, he]; rfl⟩
  | arg hargs h ih =>
    intro fuel dims varg _ hfuel
    obtain ⟨fuel, rfl⟩ : ∃ f, fuel = f + 1 := ⟨fuel - 1, by omega⟩
    rw [List.length_cons] at hfuel
    obtain ⟨e, hne, he⟩ :=
      @types_until_fails fuel _ _ _ hargs (.inl rfl) h ih (by omega)
    exact ⟨e, hne, by rw [String_To_TypeDesc_P, he]; rfl⟩
  | @ret s args rets hargs hrets h ih =>
    intro fuel dims varg _ hfuel
    obtain ⟨fuel, rfl⟩ : ∃ f, fuel = f + 1 := ⟨fuel - 1, by omega⟩
    have hlen : (spellings rets ++ s).length <
        (spellings args ++ ':'.toUInt8 :: (spellings rets ++ s)).length :=
      length_lt_append_cons _ _ _
    rw [List.length_cons] at hfuel
    obtain ⟨e, hne, he⟩ :=
      @types_until_fails fuel _ _ _ hrets (.inr rfl) h ih (by omega)
    refine ⟨e, hne, ?_⟩
    rw [String_To_TypeDesc_P, types_until_reads hargs (fun t ht => (hargs t ht).reads)
      (.inl rfl) (by omega), ok_bind]
    dsimp only
    rw [he]
    rfl
  | varg hplain h ih => exact fails_varg hplain ih h

end fails

section typelist

variable {fuel : Nat} {s : List UInt8}

theorem typelist_outcome (hs : 0 ∉ s) (hfuel : 2 * s.length + 2 ≤ fuel) :
    Outcome (fun vec => spellings vec = s) (BreaksList s) (typelist fuel s) := by
  induction fuel generalizing s with
  | zero => omega
  | succ fuel ih =>
    cases s with
    | nil => rfl
    | cons c s =>
      rw [typelist]
      refine ((parse_outcome fuel).1 (c :: s) 0 0 hs (by omega)).bind Breaks.list ?_
      rintro ⟨t, r⟩ ht
      have hlt : r.length < (c :: s).length := ht.length_lt
      refine (ih (s := r) (ht.nonul hs) (by omega)).bind ?_ ?_
      · intro hb
        rw [ht.2]
        exact hb.cons ht.1
      · intro vec hvec
        change spellings (t :: vec) = c :: s
        rw [spellings, hvec, ht.2]

theorem typelist_fails (h : BreaksList s) (hfuel : 2 * s.length + 2 ≤ fuel) :
    ∃ e, e ≠ .assertion ∧ typelist fuel s = .error e := by
  obtain ⟨vec, rest, hvec, hbreaks, rfl⟩ := h
  induction vec generalizing fuel with
  | nil =>
    obtain ⟨fuel, rfl⟩ : ∃ f, fuel = f + 1 := ⟨fuel - 1, by omega⟩
    rw [spellings, List.nil_append] at hfuel ⊢
    obtain ⟨e, hne, he⟩ := hbreaks.fails fuel 0 0 (allowed_zero rest) (by omega)
    obtain ⟨c, x, rfl, -⟩ := hbreaks.cons
    exact ⟨e, hne, by rw [typelist, he]; rfl⟩
  | cons t vec ih =>
    obtain ⟨ht, hvec⟩ := List.forall_mem_cons.mp hvec
    obtain ⟨fuel, rfl⟩ : ∃ f, fuel = f + 1 := ⟨fuel - 1, by omega⟩
    have hpos := List.length_pos_iff.mpr ht.spelling_ne_nil
    rw [spellings, List.append_assoc] at hfuel ⊢
    have hread := ht.reads fuel (spellings vec ++ rest) 0 0 (allowed_zero _) (by omega)
    rw [List.length_append] at hfuel
    obtain ⟨e, hne, he⟩ := @ih fuel hvec (by omega)
    obtain ⟨c, x, hcons, -, -⟩ := ht.spelling_cons
    refine ⟨e, hne, ?_⟩
    rw [hcons, List.cons_append] at hread ⊢
    rw [typelist, hread, ok_bind]
    dsimp only
    rw [he]
    rfl

end typelist

end koala.typedesc
