import Koala.TypeDesc.Parse

open koala.stringbuf

namespace koala.typedesc

set_option linter.style.nameCheck false

section equations

variable {fuel dims varg n : Nat} {s : List UInt8}

example : String_To_TypeDesc (fuel + 1) [] dims varg = .error .assertion := by
  rw [String_To_TypeDesc]

theorem String_To_TypeDesc_L : String_To_TypeDesc (fuel + 1) ('L'.toUInt8 :: s) dims varg =
    match s.idxOf? ';'.toUInt8 with
    | none => .error .bounds
    | some len =>
      if len ≤ INT_MAX then do
        let desc ← string_to_klass s len
        .ok (desc, s.drop (len + 1))
      else .error .overflow := by
  rw [String_To_TypeDesc]
  exact if_pos rfl

theorem takeWhile_brackets (hs : s.head? ≠ some '['.toUInt8) :
    (List.replicate n '['.toUInt8 ++ s).takeWhile (· = '['.toUInt8) =
      List.replicate n '['.toUInt8 := by
  induction n with
  | zero =>
    cases s with
    | nil => rfl
    | cons c s => exact List.takeWhile_cons_of_neg (by simpa using hs)
  | succ n ih =>
    rw [List.replicate_succ, List.cons_append, List.takeWhile_cons_of_pos (by simp), ih]

theorem dropWhile_brackets (hs : s.head? ≠ some '['.toUInt8) :
    (List.replicate n '['.toUInt8 ++ s).dropWhile (· = '['.toUInt8) = s := by
  induction n with
  | zero =>
    cases s with
    | nil => rfl
    | cons c s => exact List.dropWhile_cons_of_neg (by simpa using hs)
  | succ n ih =>
    rw [List.replicate_succ, List.cons_append, List.dropWhile_cons_of_pos (by simp), ih]

theorem String_To_TypeDesc_bracket (hn : 0 < n) (hs : s.head? ≠ some '['.toUInt8) :
    String_To_TypeDesc (fuel + 1) (List.replicate n '['.toUInt8 ++ s) dims varg =
      if dims = 0 ∧ varg = 0 then
        if n ≤ INT_MAX then do
          let (base, s) ← String_To_TypeDesc fuel s n 0
          .ok (.array (BitVec.ofNat 32 n) base, s)
        else .error .overflow
      else .error .assertion := by
  have htake := takeWhile_brackets (n := n) hs
  have hdrop := dropWhile_brackets (n := n) hs
  obtain ⟨m, rfl⟩ := Nat.exists_eq_add_of_lt hn
  rw [Nat.zero_add, List.replicate_succ, List.cons_append] at htake hdrop ⊢
  rw [String_To_TypeDesc, if_neg (by decide), if_pos rfl, htake, hdrop, List.length_cons,
    List.length_replicate]

theorem String_To_TypeDesc_M : String_To_TypeDesc (fuel + 1) ('M'.toUInt8 :: s) dims varg =
    (do
      let (key, s) ← String_To_TypeDesc fuel s 0 0
      let (val, s) ← String_To_TypeDesc fuel s 0 0
      .ok (.map key val, s)) := by
  rw [String_To_TypeDesc, if_neg (by decide), if_neg (by decide), if_pos rfl]

theorem String_To_TypeDesc_S : String_To_TypeDesc (fuel + 1) ('S'.toUInt8 :: s) dims varg =
    (do
      let (base, s) ← String_To_TypeDesc fuel s 0 0
      .ok (.set base, s)) := by
  rw [String_To_TypeDesc, if_neg (by decide), if_neg (by decide), if_neg (by decide),
    if_pos rfl]

theorem String_To_TypeDesc_P : String_To_TypeDesc (fuel + 1) ('P'.toUInt8 :: s) dims varg =
    (do
      let (args, s) ← types_until fuel ':'.toUInt8 s
      let (rets, s) ← types_until fuel ';'.toUInt8 s
      .ok (.proto args rets, s)) := by
  rw [String_To_TypeDesc, if_neg (by decide), if_neg (by decide), if_neg (by decide),
    if_neg (by decide), if_pos rfl]

theorem String_To_TypeDesc_dots :
    String_To_TypeDesc (fuel + 1) ('.'.toUInt8 :: s) dims varg =
      if dims = 0 ∧ varg = 0 then
        if s.take 2 = ['.'.toUInt8, '.'.toUInt8] then
          if (s.drop 2).head? = some 'A'.toUInt8 then
            .ok (.varg (.base .BASE_ANY), (s.drop 2).tail)
          else do
            let (base, s) ← String_To_TypeDesc fuel (s.drop 2) 0 1
            .ok (.varg base, s)
        else .error .assertion
      else .error .assertion := by
  rw [String_To_TypeDesc, if_neg (by decide), if_neg (by decide), if_neg (by decide),
    if_neg (by decide), if_neg (by decide), if_pos rfl]

/-- Any other character is the letter of a primitive type or stops the parser. -/
theorem String_To_TypeDesc_letter {ch : UInt8} (hch : ch ∉ marks) :
    String_To_TypeDesc (fuel + 1) (ch :: s) dims varg =
      match get_basic ch with
      | none => .error .assertion
      | some p => if dims > 0 ∧ varg > 0 then .error .assertion else .ok (.base p, s) := by
  simp only [marks, List.mem_cons, List.not_mem_nil, or_false, not_or] at hch
  obtain ⟨hL, hbracket, hM, hS, hP, hdot⟩ := hch
  rw [String_To_TypeDesc, if_neg hL, if_neg hbracket, if_neg hM, if_neg hS, if_neg hP]
  exact if_neg hdot

/-- Within an array or a variable argument, brackets and dots stop the parser. -/
theorem String_To_TypeDesc_not_plain (hs : ¬ Plain s) (hin : ¬ (dims = 0 ∧ varg = 0)) :
    String_To_TypeDesc (fuel + 1) s dims varg = .error .assertion := by
  cases s with
  | nil => exact absurd ⟨by simp, by simp⟩ hs
  | cons ch s =>
    by_cases hbracket : ch = '['.toUInt8
    · rw [hbracket, String_To_TypeDesc, if_neg (by decide), if_pos rfl, if_neg hin]
    · have hdot : ch = '.'.toUInt8 := by
        by_contra hdot
        exact hs ⟨by simpa using hbracket, by simpa using hdot⟩
      rw [hdot, String_To_TypeDesc_dots, if_neg hin]

end equations

section klass

variable {a : UInt8} {s x y : List UInt8} {i : Nat}

theorem idxOf?_append_cons (hx : a ∉ x) : (x ++ a :: y).idxOf? a = some x.length := by
  induction x with
  | nil => simp [List.idxOf?_cons]
  | cons b x ih =>
    rw [List.mem_cons, not_or] at hx
    rw [List.cons_append, List.idxOf?_cons, if_neg (by simpa using Ne.symm hx.1), ih hx.2]
    rfl

theorem of_idxOf? (h : s.idxOf? a = some i) :
    ∃ x y, s = x ++ a :: y ∧ a ∉ x ∧ x.length = i := by
  induction s generalizing i with
  | nil => cases h
  | cons b s ih =>
    rw [List.idxOf?_cons] at h
    split at h
    · next heq =>
      exact ⟨[], s, by simpa using heq, List.not_mem_nil, Option.some.inj h⟩
    · next hne =>
      obtain ⟨j, hj, rfl⟩ := Option.map_eq_some_iff.mp h
      obtain ⟨x, y, rfl, hx, hlen⟩ := ih hj
      refine ⟨b :: x, y, rfl, ?_, congrArg (· + 1) hlen⟩
      exact List.not_mem_cons_of_ne_of_not_mem (fun heq => hne (beq_iff_eq.mpr heq.symm)) hx

variable {fuel dims varg : Nat} {path type rest : List UInt8}

theorem klass_of_named (h : Named path type) :
    String_To_TypeDesc (fuel + 1)
        ('L'.toUInt8 :: (path ++ '.'.toUInt8 :: (type ++ ';'.toUInt8 :: rest))) dims varg =
      .ok (.klass (some (CString.ofData path)) (CString.ofData type), rest) := by
  have hsemi : (path ++ '.'.toUInt8 :: (type ++ ';'.toUInt8 :: rest)).idxOf? ';'.toUInt8 =
      some (path.length + 1 + type.length) := by
    have hnotMem : ';'.toUInt8 ∉ path ++ '.'.toUInt8 :: type := by
      rw [List.mem_append, List.mem_cons, not_or, not_or]
      exact ⟨h.notMem_path, by decide, h.notMem_type⟩
    have hidx := idxOf?_append_cons (y := rest) hnotMem
    rw [List.append_assoc, List.cons_append, List.length_append, List.length_cons] at hidx
    rw [hidx]
    congr 1
    omega
  have hdot := idxOf?_append_cons (y := type ++ ';'.toUInt8 :: rest) h.dot_notMem
  rw [String_To_TypeDesc_L, hsemi]
  dsimp only
  rw [if_pos h.length_le, string_to_klass, hdot]
  dsimp only
  have htype : (path ++ '.'.toUInt8 :: (type ++ ';'.toUInt8 :: rest)).drop (path.length + 1) =
      type ++ ';'.toUInt8 :: rest := by
    rw [← List.drop_drop, List.drop_left]
    rfl
  have hrest : (path ++ '.'.toUInt8 :: (type ++ ';'.toUInt8 :: rest)).drop
      (path.length + 1 + type.length + 1) = rest := by
    rw [Nat.add_assoc, ← List.drop_drop, htype, ← List.drop_drop, List.drop_left]
    rfl
  have hlen : path.length + 1 + type.length - path.length - 1 = type.length := by omega
  rw [if_pos (by omega), AtomString_New_NStr, AtomString_New_NStr, htype, hlen, hrest,
    List.take_left, List.take_left]
  rfl

theorem klass_of_not_named (h : ¬ ∃ path type rest : List UInt8, Named path type ∧
      s = path ++ '.'.toUInt8 :: (type ++ ';'.toUInt8 :: rest)) :
    ∃ e, e ≠ .assertion ∧ e ≠ .fuel ∧
      String_To_TypeDesc (fuel + 1) ('L'.toUInt8 :: s) dims varg = .error e := by
  rw [String_To_TypeDesc_L]
  cases hsemi : s.idxOf? ';'.toUInt8 with
  | none => exact ⟨.bounds, by decide, by decide, rfl⟩
  | some len =>
    dsimp only
    by_cases hlen : len ≤ INT_MAX
    · rw [if_pos hlen, string_to_klass]
      cases hdot : s.idxOf? '.'.toUInt8 with
      | none => exact ⟨.null, by decide, by decide, rfl⟩
      | some dot =>
        dsimp only
        by_cases hlt : dot < len
        · obtain ⟨x, rest, hx, hxmem, rfl⟩ := of_idxOf? hsemi
          obtain ⟨path, z, hpath, hpathmem, rfl⟩ := of_idxOf? hdot
          obtain ⟨w, rfl⟩ : ∃ w, x = path ++ '.'.toUInt8 :: w := by
            have hprefix : path ++ ['.'.toUInt8] <+: x := by
              refine List.prefix_of_prefix_length_le ?_
                (List.prefix_append x (';'.toUInt8 :: rest)) ?_
              swap
              · rw [List.length_append, List.length_singleton]
                exact hlt
              rw [← hx, hpath]
              exact ⟨z, by simp⟩
            obtain ⟨w, hw⟩ := hprefix
            exact ⟨w, by simp [← hw]⟩
          refine absurd ⟨path, w, rest, ⟨hpathmem, ?_, ?_, ?_⟩, ?_⟩ h
          · exact fun hmem => hxmem (List.mem_append_left _ hmem)
          · exact fun hmem => hxmem (List.mem_append_right _ (List.mem_cons_of_mem _ hmem))
          · rw [List.length_append, List.length_cons] at hlen
            omega
          · rw [hx, List.append_assoc, List.cons_append]
        · rw [if_neg hlt]
          exact ⟨.bounds, by decide, by decide, rfl⟩
    · rw [if_neg hlen]
      exact ⟨.overflow, by decide, by decide, rfl⟩

end klass

end koala.typedesc

open koala.stringbuf

namespace koala.typedesc

set_option linter.style.nameCheck false

/-- A result as the grammar has it, and no fault but an assertion unless the text
breaks. -/
def Outcome {α : Type} (P : α → Prop) (B : Prop) : Res α → Prop
  | .ok a => P a
  | .error e => e ≠ .fuel ∧ (e = .assertion ∨ B)

theorem Outcome.bind {α β : Type} {P : α → Prop} {Q : β → Prop} {B B' : Prop} {x : Res α}
    {f : α → Res β} (h : Outcome P B x) (hB : B → B')
    (hf : ∀ a, P a → Outcome Q B' (f a)) : Outcome Q B' (x >>= f) := by
  cases x with
  | ok a => exact hf a h
  | error e => exact ⟨h.1, h.2.imp_right hB⟩



section outcome

open TypeDesc

/-- What is read of a text that starts with a descriptor. -/
def ReadsType (s : List UInt8) (p : TypeDesc × List UInt8) : Prop :=
  p.1.Grammatical ∧ s = p.1.spelling ++ p.2

/-- What is read of a text that starts with a list and the character that ends it. -/
def ReadsTypes (stop : UInt8) (s : List UInt8) (p : List TypeDesc × List UInt8) : Prop :=
  (∀ t ∈ p.1, t.Grammatical) ∧ s = spellings p.1 ++ stop :: p.2

variable {fuel dims varg n : Nat} {s : List UInt8}

theorem ReadsType.length_lt {p : TypeDesc × List UInt8} (h : ReadsType s p) :
    p.2.length < s.length := by
  have hpos := List.length_pos_iff.mpr h.1.spelling_ne_nil
  rw [h.2, List.length_append]
  omega

theorem ReadsType.nonul {p : TypeDesc × List UInt8} (h : ReadsType s p) (hs : 0 ∉ s) :
    0 ∉ p.2 := by
  rw [h.2, List.mem_append, not_or] at hs
  exact hs.2

/-- What is read after `x` of a text is a list of descriptors that breaks off, or the
rest does. -/
theorem BreaksList.cons {t : TypeDesc} (ht : t.Grammatical) (h : BreaksList s) :
    BreaksList (t.spelling ++ s) := by
  obtain ⟨vec, rest, hvec, hrest, rfl⟩ := h
  refine ⟨t :: vec, rest, ?_, hrest, ?_⟩
  · intro u hu
    rcases List.mem_cons.mp hu with rfl | hu
    · exact ht
    · exact hvec u hu
  · rw [spellings, List.append_assoc]

theorem Breaks.list (h : Breaks s) : BreaksList s :=
  ⟨[], s, fun _ ht => absurd ht List.not_mem_nil, h, rfl⟩

/-- The parser on a class. -/
theorem outcome_klass (hs : 0 ∉ s) :
    Outcome (ReadsType ('L'.toUInt8 :: s)) (Breaks ('L'.toUInt8 :: s))
      (String_To_TypeDesc (fuel + 1) ('L'.toUInt8 :: s) dims varg) := by
  by_cases h : ∃ path type rest : List UInt8, Named path type ∧
      s = path ++ '.'.toUInt8 :: (type ++ ';'.toUInt8 :: rest)
  · obtain ⟨path, type, rest, hnamed, rfl⟩ := h
    simp only [List.mem_append, List.mem_cons, not_or] at hs
    obtain ⟨hpath, -, htype, -, -⟩ := hs
    have hpathEq := CString.bytes_ofData hpath
    have htypeEq := CString.bytes_ofData htype
    rw [klass_of_named hnamed]
    refine ⟨.klass ?_, ?_⟩
    · rw [hpathEq, htypeEq]
      exact hnamed
    · rw [spelling, Str.bytes_some, hpathEq, htypeEq]
      simp only [List.cons_append, List.append_assoc, List.nil_append]
  · obtain ⟨e, -, hfuel, he⟩ := @klass_of_not_named s fuel dims varg h
    rw [he]
    exact ⟨hfuel, .inr (.klass h)⟩

theorem exists_brackets (s : List UInt8) : ∃ n r, 0 < n ∧ r.head? ≠ some '['.toUInt8 ∧
    '['.toUInt8 :: s = List.replicate n '['.toUInt8 ++ r := by
  induction s with
  | nil => exact ⟨1, [], by decide, by simp, rfl⟩
  | cons c s ih =>
    by_cases hc : c = '['.toUInt8
    · obtain ⟨n, r, hn, hr, heq⟩ := ih
      exact ⟨n + 1, r, by omega, hr, by rw [hc, heq, List.replicate_succ, List.cons_append]⟩
    · exact ⟨1, c :: s, by decide, by simpa using hc, rfl⟩

/-- What stands for the dimensions of an array is their number. -/
theorem dims_toInt (hn : n ≤ INT_MAX) : (BitVec.ofNat 32 n).toInt = n := by
  have hlt : n < 2 ^ 31 := by
    rw [INT_MAX] at hn
    omega
  rw [BitVec.toInt_eq_toNat_of_lt] <;> rw [BitVec.toNat_ofNat, Nat.mod_eq_of_lt (by omega)]
  omega

theorem Outcome.mono {α : Type} {P Q : α → Prop} {B B' : Prop} {x : Res α}
    (h : Outcome P B x) (hP : ∀ a, P a → Q a) (hB : B → B') : Outcome Q B' x := by
  cases x with
  | ok a => exact hP a h
  | error e => exact ⟨h.1, h.2.imp_right hB⟩

/-- An array or a variable argument has a plain text. -/
theorem outcome_inner (hzero : ¬ (dims = 0 ∧ varg = 0))
    (h : Outcome (ReadsType s) (Breaks s) (String_To_TypeDesc (fuel + 1) s dims varg)) :
    Outcome (fun p => ReadsType s p ∧ Plain p.1.spelling) (Plain s ∧ Breaks s)
      (String_To_TypeDesc (fuel + 1) s dims varg) := by
  by_cases hplain : Plain s
  · refine h.mono (fun p hp => ⟨hp, ?_⟩) fun hb => ⟨hplain, hb⟩
    rw [hp.2] at hplain
    exact (Plain.append hp.1.spelling_ne_nil).mp hplain
  · rw [String_To_TypeDesc_not_plain hplain hzero]
    exact ⟨by decide, .inl rfl⟩

theorem outcome_array {r : List UInt8} (hn : 0 < n) (hr : r.head? ≠ some '['.toUInt8)
    (h : Outcome (ReadsType r) (Breaks r) (String_To_TypeDesc (fuel + 1) r n 0)) :
    Outcome (ReadsType (List.replicate n '['.toUInt8 ++ r))
      (Breaks (List.replicate n '['.toUInt8 ++ r))
      (String_To_TypeDesc (fuel + 2) (List.replicate n '['.toUInt8 ++ r) dims varg) := by
  rw [String_To_TypeDesc_bracket hn hr]
  split
  · by_cases hle : n ≤ INT_MAX
    · rw [if_pos hle]
      refine (outcome_inner (by omega) h).bind (fun hb => .array hn hle hb.1 hb.2) ?_
      rintro ⟨t, rest⟩ ⟨hread, hplain⟩
      refine ⟨.array ?_ hread.1 hplain, ?_⟩
      · rw [dims_toInt hle]
        omega
      · rw [spelling, dims_toInt hle, Int.toNat_natCast, List.append_assoc, hread.2]
    · rw [if_neg hle]
      exact ⟨by decide, .inr (.dims (by omega) hr)⟩
  · exact ⟨by decide, .inl rfl⟩

theorem outcome_dots
    (h : ∀ r, r <:+ s → r.length < s.length →
      Outcome (ReadsType r) (Breaks r) (String_To_TypeDesc (fuel + 1) r 0 1)) :
    Outcome (ReadsType ('.'.toUInt8 :: s)) (Breaks ('.'.toUInt8 :: s))
      (String_To_TypeDesc (fuel + 2) ('.'.toUInt8 :: s) dims varg) := by
  rw [String_To_TypeDesc_dots]
  split
  · split
    · next htake =>
      obtain ⟨r, rfl⟩ : ∃ r, s = '.'.toUInt8 :: '.'.toUInt8 :: r :=
        ⟨s.drop 2, by rw [← List.take_append_drop 2 s, htake]; rfl⟩
      rw [show ('.'.toUInt8 :: '.'.toUInt8 :: r).drop 2 = r from rfl]
      split
      · next hany =>
        obtain ⟨r, rfl⟩ := List.head?_eq_some_iff.mp hany
        refine ⟨.varg (.base .BASE_ANY) ⟨by decide, by decide⟩, ?_⟩
        rw [spelling, spelling]
        rfl
      · refine (outcome_inner (by omega) (h r ⟨[_, _], rfl⟩ ?_)).bind
          (fun hb => .varg hb.1 hb.2) ?_
        · rw [List.length_cons, List.length_cons]
          omega
        · rintro ⟨t, rest⟩ ⟨hread, hplain⟩
          refine ⟨.varg hread.1 hplain, ?_⟩
          rw [spelling, hread.2]
          rfl
    · exact ⟨by decide, .inl rfl⟩
  · exact ⟨by decide, .inl rfl⟩

theorem outcome_letter {ch : UInt8} (hch : ch ∉ marks) :
    Outcome (ReadsType (ch :: s)) (Breaks (ch :: s))
      (String_To_TypeDesc (fuel + 1) (ch :: s) dims varg) := by
  rw [String_To_TypeDesc_letter hch]
  cases hbasic : get_basic ch with
  | none => exact ⟨by decide, .inl rfl⟩
  | some p =>
    dsimp only
    split
    · exact ⟨by decide, .inl rfl⟩
    · refine ⟨.base p, ?_⟩
      rw [spelling, letter_of_get_basic hbasic]
      rfl

/-- What the parser makes of any text, with enough fuel. -/
theorem parse_outcome (fuel : Nat) :
    (∀ (s : List UInt8) (dims varg : Nat), 0 ∉ s → 2 * s.length + 1 ≤ fuel →
      Outcome (ReadsType s) (Breaks s) (String_To_TypeDesc fuel s dims varg)) ∧
    ∀ (stop : UInt8) (s : List UInt8), 0 ∉ s → 2 * s.length + 2 ≤ fuel →
      Outcome (ReadsTypes stop s) (BreaksList s) (types_until fuel stop s) := by
  induction fuel with
  | zero => exact ⟨fun s _ _ _ hfuel => by omega, fun _ s _ hfuel => by omega⟩
  | succ fuel ih =>
    obtain ⟨ihtype, ihtypes⟩ := ih
    refine ⟨fun s dims varg hs hfuel => ?_, fun stop s hs hfuel => ?_⟩
    · cases s with
      | nil => exact ⟨by decide, .inl rfl⟩
      | cons ch s =>
        have hzero : 0 ∉ s := fun hmem => hs (List.mem_cons_of_mem _ hmem)
        rw [List.length_cons] at hfuel
        obtain ⟨fuel, rfl⟩ : ∃ f, fuel = f + 1 := ⟨fuel - 1, by omega⟩
        by_cases hmark : ch ∈ marks
        · simp only [marks, List.mem_cons, List.not_mem_nil, or_false] at hmark
          rcases hmark with rfl | rfl | rfl | rfl | rfl | rfl
          · exact outcome_klass hzero
          · obtain ⟨n, r, hn, hr, heq⟩ := exists_brackets s
            have hlen := congrArg List.length heq
            rw [List.length_cons, List.length_append, List.length_replicate] at hlen
            rw [heq, List.mem_append, not_or] at hs
            rw [heq]
            exact outcome_array hn hr (ihtype r n 0 hs.2 (by omega))
          · rw [String_To_TypeDesc_M]
            refine (ihtype s 0 0 hzero (by omega)).bind Breaks.key ?_
            rintro ⟨key, r⟩ hkey
            have hlt : r.length < s.length := hkey.length_lt
            refine (ihtype r 0 0 (hkey.nonul hzero) (by omega)).bind ?_ ?_
            · intro hb
              rw [hkey.2]
              exact .val hkey.1 hb
            · rintro ⟨val, rest⟩ hval
              refine ⟨.map hkey.1 hval.1, ?_⟩
              rw [spelling, hkey.2, hval.2, List.cons_append, List.append_assoc]
          · rw [String_To_TypeDesc_S]
            refine (ihtype s 0 0 hzero (by omega)).bind Breaks.set ?_
            rintro ⟨t, r⟩ ht
            exact ⟨.set ht.1, by rw [spelling, ht.2, List.cons_append]⟩
          · rw [String_To_TypeDesc_P]
            refine (ihtypes ':'.toUInt8 s hzero (by omega)).bind ?_ ?_
            · rintro ⟨vec, rest, hvec, hb, rfl⟩
              exact .arg hvec hb
            rintro ⟨args, r⟩ hargs
            have hr : 0 ∉ r ∧ r.length < s.length := by
              rw [hargs.2] at hzero ⊢
              simp only [List.mem_append, List.mem_cons, not_or] at hzero
              exact ⟨hzero.2.2, length_lt_append_cons _ _ _⟩
            refine (ihtypes ';'.toUInt8 r hr.1 (by omega)).bind ?_ ?_
            · rintro ⟨vec, rest, hvec, hb, rfl⟩
              rw [hargs.2]
              exact .ret hargs.1 hvec hb
            · rintro ⟨rets, rest⟩ hrets
              refine ⟨.proto hargs.1 hrets.1, ?_⟩
              rw [spelling, hargs.2, hrets.2]
              simp only [List.cons_append, List.append_assoc, List.nil_append]
          · exact outcome_dots fun r hr hlt =>
              ihtype r 0 1 (fun hmem => hzero (hr.mem hmem)) (by omega)
        · exact outcome_letter hmark
    · rw [types_until]
      split
      · next hstop =>
        obtain ⟨r, rfl⟩ := List.head?_eq_some_iff.mp hstop
        exact ⟨fun t ht => absurd ht List.not_mem_nil, rfl⟩
      · refine (ihtype s 0 0 hs (by omega)).bind Breaks.list ?_
        rintro ⟨t, r⟩ ht
        have hlt : r.length < s.length := ht.length_lt
        refine (ihtypes stop r (ht.nonul hs) (by omega)).bind ?_ ?_
        · intro hb
          rw [ht.2]
          exact hb.cons ht.1
        · rintro ⟨vec, rest⟩ hvec
          refine ⟨List.forall_mem_cons.mpr ⟨ht.1, hvec.1⟩, ?_⟩
          rw [spellings, ht.2, hvec.2, List.append_assoc]

end outcome

end koala.typedesc
