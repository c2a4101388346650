import Koala.Lexer.Comments

open scanner

namespace koala.lexer

set_option linter.style.nameCheck false

def quote : UInt8 := 0x22

def backslash : UInt8 := 0x5c

/-- What the rule of strings allows before the last character. -/
def string_part : RegularExpression UInt8 :=
  (oneOf (bytes_but (text "\"")) + lit (text "\\\"")).star

def string_rule : Rule UInt8 Action :=
  ⟨lit (text "\"") * (opt (string_part * oneOf (bytes_but (text "\\"))) * lit (text "\"")), .string⟩

theorem string_rule_mem : string_rule ∈ rules := by
  refine List.mem_append_left _ (List.mem_cons_of_mem _ (List.mem_append_right _ ?_))
  exact List.mem_of_getElem? (i := 5) rfl

/-- Each quote comes directly after a backslash; `p` is the character before. -/
def Escaped : UInt8 → List UInt8 → Prop
  | _, [] => True
  | p, c :: u => (c = quote → p = backslash) ∧ Escaped c u

/-- Where the first quote is that does not come directly after a backslash. -/
def bare_quote : UInt8 → List UInt8 → Option Nat
  | _, [] => none
  | p, c :: t => if c = quote ∧ p ≠ backslash then some 0 else (bare_quote c t).map (· + 1)

/-- Where the first quote is with an even number of backslashes before it, of which
`k` come before the text. -/
def closing_quote : Nat → List UInt8 → Option Nat
  | _, [] => none
  | k, c :: t =>
    if c = quote ∧ k % 2 = 0 then some 0
    else (closing_quote (if c = backslash then k + 1 else 0) t).map (· + 1)

section part

variable {p : UInt8} {s t u v : List UInt8}

theorem Escaped.append (hs : Escaped p s) (ht : ∀ p, Escaped p t) : Escaped p (s ++ t) := by
  induction s generalizing p with
  | nil => exact ht p
  | cons c s ih => exact ⟨hs.1, ih hs.2⟩

theorem Escaped.left (h : Escaped p (s ++ t)) : Escaped p s := by
  induction s generalizing p with
  | nil => trivial
  | cons c s ih => exact ⟨h.1, ih h.2⟩

/-- The character before only matters to a quote. -/
theorem Escaped.after {q c : UInt8} (h : Escaped p (c :: u)) (hc : c ≠ quote) :
    Escaped q (c :: u) := ⟨fun heq => absurd heq hc, h.2⟩

theorem mem_string_part : s ∈ string_part.matches' ↔ Escaped quote s := by
  rw [string_part, RegularExpression.matches'_star, Language.mem_kstar]
  constructor
  · rintro ⟨units, rfl, hunits⟩
    suffices hall : ∀ p, Escaped p units.flatten from hall quote
    induction units with
    | nil => exact fun _ => trivial
    | cons unit units ih =>
      obtain ⟨hunit, htail⟩ := List.forall_mem_cons.mp hunits
      intro p
      rw [List.flatten_cons]
      refine Escaped.append ?_ (ih htail)
      rcases (Language.mem_add _ _ _).mp hunit with h | h
      · obtain ⟨c, hc, rfl⟩ := mem_oneOf.mp h
        refine ⟨fun heq => ?_, trivial⟩
        exact absurd (List.mem_singleton.mpr heq) (mem_bytes_but.mp hc)
      · rw [mem_lit.mp h]
        exact ⟨fun heq => absurd heq (by decide), fun _ => by decide, trivial⟩
  · intro h
    induction hn : s.length using Nat.strong_induction_on generalizing s with
    | _ n ih =>
      cases s with
      | nil => exact ⟨[], rfl, List.forall_mem_nil _⟩
      | cons c u =>
        have hc : c ≠ quote := fun heq => absurd (h.1 heq) (by decide)
        by_cases hpair : ∃ u', u = quote :: u'
        · obtain ⟨u', rfl⟩ := hpair
          obtain rfl : c = backslash := h.2.1 rfl
          obtain ⟨units, hunits, hall⟩ := ih u'.length
            (by rw [← hn, List.length_cons, List.length_cons]; omega) h.2.2 rfl
          refine ⟨[backslash, quote] :: units, by rw [hunits]; rfl,
            List.forall_mem_cons.mpr ⟨?_, hall⟩⟩
          exact (Language.mem_add _ _ _).mpr (Or.inr (mem_lit.mpr rfl))
        · have hrest : Escaped quote u := by
            cases u with
            | nil => trivial
            | cons d u' => exact h.2.after fun heq => hpair ⟨u', by rw [heq]⟩
          obtain ⟨units, hunits, hall⟩ := ih u.length
            (by rw [← hn, List.length_cons]; omega) hrest rfl
          refine ⟨[c] :: units, by rw [hunits]; rfl, List.forall_mem_cons.mpr ⟨?_, hall⟩⟩
          refine (Language.mem_add _ _ _).mpr (Or.inl (mem_oneOf.mpr ⟨c, ?_, rfl⟩))
          exact mem_bytes_but.mpr fun hmem => hc (List.mem_singleton.mp hmem)

/-- What the rule allows between the quotes. -/
def Quoted (b : List UInt8) : Prop :=
  b = [] ∨ ∃ u c, b = u ++ [c] ∧ c ≠ backslash ∧ Escaped quote u

theorem mem_string : s ∈ string_rule.pattern.matches' ↔ ∃ b, s = quote :: (b ++ [quote]) ∧
    Quoted b := by
  constructor
  · intro h
    obtain ⟨a, ha, w, hw, rfl⟩ := mem_mul.mp h
    obtain ⟨b, hb, z, hz, rfl⟩ := mem_mul.mp hw
    rw [mem_lit.mp ha, mem_lit.mp hz]
    refine ⟨b, rfl, ?_⟩
    rcases (Language.mem_add _ _ _).mp hb with hb | hb
    · exact Or.inl ((Language.mem_one _).mp hb)
    · obtain ⟨u, hu, v, hv, rfl⟩ := mem_mul.mp hb
      obtain ⟨c, hc, rfl⟩ := mem_oneOf.mp hv
      refine Or.inr ⟨u, c, rfl, fun heq => ?_, mem_string_part.mp hu⟩
      exact mem_bytes_but.mp hc (List.mem_singleton.mpr heq)
  · rintro ⟨b, rfl, hb⟩
    refine mem_mul.mpr ⟨[quote], mem_lit.mpr rfl, b ++ [quote],
      mem_mul.mpr ⟨b, ?_, [quote], mem_lit.mpr rfl, rfl⟩, rfl⟩
    rcases hb with rfl | ⟨u, c, rfl, hc, hu⟩
    · exact (Language.mem_add _ _ _).mpr (Or.inl ((Language.mem_one _).mpr rfl))
    · refine (Language.mem_add _ _ _).mpr (Or.inr (mem_mul.mpr ⟨u, mem_string_part.mpr hu, [c],
        mem_oneOf.mpr ⟨c, mem_bytes_but.mpr fun hmem => ?_, rfl⟩, rfl⟩))
      exact hc (List.mem_singleton.mp hmem)

/-- A text without bare quotes is passed. -/
theorem bare_quote_append (hu : Escaped p u) :
    bare_quote p (u ++ t) = (bare_quote (u.getLastD p) t).map (· + u.length) := by
  induction u generalizing p with
  | nil => cases hbare : bare_quote p t <;> simp [hbare]
  | cons c u ih =>
    have hnot : ¬ (c = quote ∧ p ≠ backslash) := fun h => h.2 (hu.1 h.1)
    rw [List.cons_append, bare_quote, if_neg hnot, ih hu.2, List.getLastD_cons, Option.map_map]
    rfl

theorem bare_quote_cons (hp : p ≠ backslash) : bare_quote p (quote :: t) = some 0 := by
  rw [bare_quote, if_pos ⟨rfl, hp⟩]

theorem bare_quote_eq {q : Nat} (h : bare_quote p t = some q) :
    ∃ u v, t = u ++ quote :: v ∧ u.length = q ∧ Escaped p u ∧ u.getLastD p ≠ backslash := by
  induction t generalizing p q with
  | nil => cases h
  | cons c t ih =>
    rw [bare_quote] at h
    split at h
    · next hbare =>
      cases h
      exact ⟨[], t, by rw [hbare.1]; rfl, rfl, trivial, hbare.2⟩
    · next hbare =>
      obtain ⟨m, hm, rfl⟩ := Option.map_eq_some_iff.mp h
      obtain ⟨u, v, rfl, rfl, hu, hlast⟩ := ih hm
      refine ⟨c :: u, v, rfl, rfl, ⟨fun heq => ?_, hu⟩, by rwa [List.getLastD_cons]⟩
      exact Classical.not_not.mp fun hp => hbare ⟨heq, hp⟩

/-- A string that starts a text ends at the first bare quote, or at a quote directly
after it. -/
theorem take_string {k : Nat} (hk : k ≤ (quote :: t).length)
    (h : (quote :: t).take k ∈ string_rule.pattern.matches') :
    ∃ q, bare_quote quote t = some q ∧ (k = q + 2 ∨ k = q + 3 ∧ t[q + 1]? = some quote) := by
  obtain ⟨b, htake, hb⟩ := mem_string.mp h
  have hlength := congrArg List.length htake
  rw [List.length_take_of_le hk, List.length_cons, List.length_append, List.length_singleton]
    at hlength
  have ht : t = b ++ quote :: (quote :: t).drop k := by
    have hsplit := List.take_append_drop k (quote :: t)
    rw [htake, List.cons_append, List.append_assoc] at hsplit
    exact (List.cons.inj hsplit).2.symm
  generalize (quote :: t).drop k = rest at ht
  rcases hb with rfl | ⟨u, c, rfl, hc, hu⟩
  · refine ⟨0, ?_, Or.inl hlength⟩
    rw [ht]
    exact bare_quote_cons (by decide)
  · rw [List.append_assoc] at ht
    rw [List.length_append, List.length_singleton] at hlength
    by_cases hbare : c = quote ∧ u.getLastD quote ≠ backslash
    · obtain ⟨rfl, hlast⟩ := hbare
      refine ⟨u.length, ?_, Or.inr ⟨by omega, ?_⟩⟩
      · rw [ht, bare_quote_append hu, List.singleton_append, bare_quote_cons hlast,
          Option.map_some, Nat.zero_add]
      · rw [ht, List.getElem?_append_right (Nat.le_add_right _ 1), Nat.add_sub_cancel_left]
        rfl
    · refine ⟨u.length + 1, ?_, Or.inl (by omega)⟩
      rw [ht, bare_quote_append hu, List.singleton_append, bare_quote, if_neg hbare,
        bare_quote_cons hc, Option.map_some, Option.map_some, Nat.zero_add, Nat.add_comm]

/-- The length of a string that starts a text. -/
theorem longest_string (t : List UInt8) : longest string_rule.pattern (quote :: t) =
    (bare_quote quote t).elim 0 fun q => if t[q + 1]? = some quote then q + 3 else q + 2 := by
  cases hbare : bare_quote quote t with
  | none =>
    rw [Option.elim_none]
    by_contra hne
    obtain ⟨q, hq, -⟩ := take_string (Nat.findGreatest_le _) (take_longest hne)
    cases hbare.symm.trans hq
  | some q =>
    obtain ⟨u, v, rfl, rfl, hu, hlast⟩ := bare_quote_eq hbare
    have hquoted : Quoted u := by
      rcases List.eq_nil_or_concat u with rfl | ⟨w, c, rfl⟩
      · exact Or.inl rfl
      · rw [List.concat_eq_append, List.getLastD_concat] at *
        exact Or.inr ⟨w, c, rfl, hlast, hu.left⟩
    have hother : ∀ k, k ≤ (quote :: (u ++ quote :: v)).length →
        (quote :: (u ++ quote :: v)).take k ∈ string_rule.pattern.matches' →
          k = u.length + 2 ∨ k = u.length + 3 ∧ (u ++ quote :: v)[u.length + 1]? = some quote := by
      intro k hk hmatch
      obtain ⟨q, hq, hcases⟩ := take_string hk hmatch
      cases hbare.symm.trans hq
      exact hcases
    rw [Option.elim_some]
    split
    · next hnext =>
      obtain ⟨v', rfl⟩ : ∃ v', v = quote :: v' := by
        rw [List.getElem?_append_right (Nat.le_add_right _ 1), Nat.add_sub_cancel_left,
          List.getElem?_cons_succ] at hnext
        cases v with
        | nil => cases hnext
        | cons c v' =>
          cases hnext
          exact ⟨v', rfl⟩
      have htake : (quote :: (u ++ quote :: quote :: v')).take (u.length + 3) =
          quote :: ((u ++ [quote]) ++ [quote]) := by
        have hsplit : quote :: (u ++ quote :: quote :: v') =
            (quote :: ((u ++ [quote]) ++ [quote])) ++ v' := by simp
        rw [hsplit]
        refine List.take_left' ?_
        simp
      refine longest_eq (by simp) (mem_string.mpr ⟨u ++ [quote], htake,
        Or.inr ⟨u, quote, rfl, by decide, hu⟩⟩) fun k hk hks hmatch => ?_
      rcases hother k hks hmatch with hk' | ⟨hk', -⟩ <;> omega
    · next hnext =>
      have htake : (quote :: (u ++ quote :: v)).take (u.length + 2) = quote :: (u ++ [quote]) := by
        have hsplit : quote :: (u ++ quote :: v) = (quote :: (u ++ [quote])) ++ v := by simp
        rw [hsplit]
        refine List.take_left' ?_
        simp
      refine longest_eq (by simp) (mem_string.mpr ⟨u, htake, hquoted⟩) fun k hk hks hmatch => ?_
      rcases hother k hks hmatch with hk' | ⟨-, hk'⟩
      · omega
      · exact hnext hk'

end part

section closing

variable {p : UInt8} {k : Nat} {t : List UInt8}

/-- The character before the one with number `n`; before the first it is `p`. -/
def before (p : UInt8) (t : List UInt8) (n : Nat) : Option UInt8 := (p :: t)[n]?

/-- A bare quote has no backslash before it. -/
theorem closing_of_bare {q : Nat} (hk : 0 < k → p = backslash) (h : bare_quote p t = some q) :
    ∃ e ≤ q, closing_quote k t = some e := by
  induction t generalizing p k q with
  | nil => cases h
  | cons c t ih =>
    rw [bare_quote] at h
    rw [closing_quote]
    split
    · exact ⟨0, Nat.zero_le q, rfl⟩
    · next hclosing =>
      split at h
      · next hbare =>
        refine absurd ⟨hbare.1, ?_⟩ hclosing
        obtain rfl : k = 0 := Nat.eq_zero_of_not_pos fun hpos => hbare.2 (hk hpos)
        rfl
      · obtain ⟨m, hm, rfl⟩ := Option.map_eq_some_iff.mp h
        obtain ⟨e, hle, he⟩ := @ih c (if c = backslash then k + 1 else 0) m (fun hpos => by
          by_contra hc
          rw [if_neg hc] at hpos
          exact Nat.lt_irrefl 0 hpos) hm
        exact ⟨e + 1, Nat.succ_le_succ hle, by rw [he]; rfl⟩

/-- Where the closing quote has no backslash before it, it is the first bare quote. -/
theorem bare_of_closing {e : Nat} (hk : p = backslash → 0 < k) (hk' : 0 < k → p = backslash)
    (h : closing_quote k t = some e) :
    bare_quote p t = some e ↔ before p t e ≠ some backslash := by
  induction t generalizing p k e with
  | nil => cases h
  | cons c t ih =>
    rw [closing_quote] at h
    rw [bare_quote]
    split at h
    · next hclosing =>
      cases h
      rw [before, List.getElem?_cons_zero]
      split
      · next hbare => exact iff_of_true rfl fun heq => hbare.2 (Option.some.inj heq)
      · next hbare =>
        refine iff_of_false (fun heq => ?_) fun hne => hbare ⟨hclosing.1, fun heq => hne (by rw [heq])⟩
        cases hrest : bare_quote c t with
        | none => rw [hrest] at heq; cases heq
        | some m => rw [hrest] at heq; cases heq
    · next hclosing =>
      obtain ⟨m, hm, rfl⟩ := Option.map_eq_some_iff.mp h
      have hnot : ¬ (c = quote ∧ p ≠ backslash) := by
        rintro ⟨hc, hp⟩
        obtain rfl : k = 0 := Nat.eq_zero_of_not_pos fun hpos => hp (hk' hpos)
        exact hclosing ⟨hc, rfl⟩
      have hrest := @ih c (if c = backslash then k + 1 else 0) m
        (fun hc => by rw [if_pos hc]; exact Nat.succ_pos k)
        (fun hpos => by
          by_contra hc
          rw [if_neg hc] at hpos
          exact Nat.lt_irrefl 0 hpos) hm
      rw [if_neg hnot, before, List.getElem?_cons_succ]
      rw [before] at hrest
      rw [← hrest]
      cases bare_quote c t with
      | none => exact iff_of_false nofun nofun
      | some m' =>
        rw [Option.map_some, Option.some.injEq, Option.some.injEq, Nat.add_right_cancel_iff]

/-- The longest match ends at the first quote with an even number of backslashes
before it, and there is a match exactly where there is one. -/
def StringEnds (t : List UInt8) : Prop :=
  (∀ e, closing_quote 0 t = some e → longest string_rule.pattern (quote :: t) = 1 + e + 1) ∧
  ((∃ k ≤ (quote :: t).length, (quote :: t).take k ∈ string_rule.pattern.matches') ↔
    ∃ e, closing_quote 0 t = some e)

/-- A string ends where it should if and only if there is no backslash directly before
the quote that should end it, and no quote directly after it. -/
theorem string_ends_iff (t : List UInt8) : StringEnds t ↔ ∀ e, closing_quote 0 t = some e →
    before quote t e ≠ some backslash ∧ t[e + 1]? ≠ some quote := by
  have hlongest := longest_string t
  have hbare : ∀ e, closing_quote 0 t = some e →
      (bare_quote quote t = some e ↔ before quote t e ≠ some backslash) := fun e he =>
    @bare_of_closing quote 0 t e (fun heq => absurd heq (by decide))
      (fun hpos => absurd hpos (Nat.lt_irrefl 0)) he
  constructor
  · intro h e he
    have hfirst := h.1 e he
    rw [hlongest] at hfirst
    cases hq : bare_quote quote t with
    | none =>
      rw [hq, Option.elim_none] at hfirst
      omega
    | some q =>
      obtain ⟨e', hle, he'⟩ := @closing_of_bare quote 0 t q
        (fun hpos => absurd hpos (Nat.lt_irrefl 0)) hq
      cases he.symm.trans he'
      rw [hq, Option.elim_some] at hfirst
      split at hfirst
      · omega
      · next hnext =>
        obtain rfl : q = e := by omega
        exact ⟨(hbare q he).mp hq, hnext⟩
  · intro h
    refine ⟨fun e he => ?_, ?_, ?_⟩
    · rw [hlongest, (hbare e he).mpr (h e he).1, Option.elim_some, if_neg (h e he).2]
      omega
    · rintro ⟨k, hk, hmatch⟩
      obtain ⟨q, hq, -⟩ := take_string hk hmatch
      obtain ⟨e, -, he⟩ := @closing_of_bare quote 0 t q
        (fun hpos => absurd hpos (Nat.lt_irrefl 0)) hq
      exact ⟨e, he⟩
    · rintro ⟨e, he⟩
      rw [(hbare e he).mpr (h e he).1, Option.elim_some, if_neg (h e he).2] at hlongest
      have hmatch := @take_longest _ _ string_rule.pattern (quote :: t) (by
        rw [hlongest]
        exact Nat.succ_ne_zero _)
      exact ⟨_, Nat.findGreatest_le _, hmatch⟩

/-- In `"a""b"` the first string has a quote too much, and `"\\"` is none. -/
theorem not_string_ends : ¬ StringEnds (text "a\"\"b\"") ∧ ¬ StringEnds (text "\\\\\"") := by
  have htwo : longest string_rule.pattern (quote :: text "a\"\"b\"") = 4 := by
    rw [longest_string]
    decide
  have hnone : longest string_rule.pattern (quote :: text "\\\\\"") = 0 := by
    rw [longest_string]
    decide
  constructor
  · intro h
    cases htwo.symm.trans (h.1 1 (by decide))
  · intro h
    cases hnone.symm.trans (h.1 2 (by decide))

end closing

end koala.lexer
