import Koala.Lexer.Rules
import Mathlib.Algebra.Ring.Parity

open scanner

namespace koala.lexer

set_option linter.style.nameCheck false

def star : UInt8 := 0x2a

def slash : UInt8 := 0x2f

/-- What the rule of block comments allows between its marks. -/
def comment_body : RegularExpression UInt8 :=
  ((oneOf (bytes_but (text "*"))).star *
    opt (lit (text "*") * oneOf (bytes_but (text "/")))).star

def comment_rule : Rule UInt8 Action :=
  ⟨lit (text "/*") * (comment_body * lit (text "*/")), .skip⟩

theorem comment_rule_mem : comment_rule ∈ rules :=
  List.mem_append_right _ (List.mem_cons_of_mem _ (List.mem_of_getElem? (i := 3) rfl))

/-- A star is read with the character after it, which is no slash. -/
inductive Body : List UInt8 → Prop where
  | nil : Body []
  | other (c : UInt8) (s : List UInt8) (hc : c ≠ star) (hs : Body s) : Body (c :: s)
  | pair (d : UInt8) (s : List UInt8) (hd : d ≠ slash) (hs : Body s) : Body (star :: d :: s)

/-- Where the first star-slash is. -/
def star_slash : List UInt8 → Option Nat
  | [] => none
  | c :: t => if c = star ∧ t.head? = some slash then some 0 else (star_slash t).map (· + 1)

/-- Where the rule finds the end, with each star read as it reads it. -/
def comment_end : List UInt8 → Option Nat
  | [] => none
  | [_] => none
  | c :: d :: t =>
    if c = star then if d = slash then some 0 else (comment_end t).map (· + 2)
    else (comment_end (d :: t)).map (· + 1)

/-- The length of the run of stars at the end of a text, before which there are `k`. -/
def star_run : Nat → List UInt8 → Nat
  | k, [] => k
  | k, c :: u => star_run (if c = star then k + 1 else 0) u

section body

variable {s t : List UInt8}

theorem mem_bytes_but {cs : List UInt8} {c : UInt8} : c ∈ bytes_but cs ↔ c ∉ cs := by
  have hall : ∀ c : UInt8, c ∈ bytes 0 255 := by
    intro c
    refine List.mem_map.mpr ⟨c.toNat, ?_, UInt8.ofNat_toNat⟩
    exact List.mem_range'_1.mpr ⟨Nat.zero_le _, by have := c.toNat_lt; omega⟩
  rw [bytes_but, List.mem_filter]
  simp [hall c]

theorem Body.others {w : List UInt8} (hw : ∀ c ∈ w, c ≠ star) (hs : Body s) : Body (w ++ s) := by
  induction w with
  | nil => exact hs
  | cons c w ih =>
    obtain ⟨hc, hw⟩ := List.forall_mem_cons.mp hw
    exact .other c _ hc (ih hw)

theorem mem_comment_body : s ∈ comment_body.matches' ↔ Body s := by
  rw [comment_body, RegularExpression.matches'_star, Language.mem_kstar]
  constructor
  · rintro ⟨units, rfl, hunits⟩
    induction units with
    | nil => exact .nil
    | cons unit units ih =>
      obtain ⟨hunit, htail⟩ := List.forall_mem_cons.mp hunits
      obtain ⟨w, hw, v, hv, rfl⟩ := mem_mul.mp hunit
      have hrest : Body (v ++ units.flatten) := by
        rcases (Language.mem_add _ _ _).mp hv with hv | hv
        · rw [(Language.mem_one v).mp hv]
          exact ih htail
        · obtain ⟨a, ha, b, hb, rfl⟩ := mem_mul.mp hv
          obtain ⟨d, hd, rfl⟩ := mem_oneOf.mp hb
          rw [mem_lit.mp ha]
          refine .pair d _ (fun heq => ?_) (ih htail)
          exact mem_bytes_but.mp hd (List.mem_singleton.mpr heq)
      rw [List.flatten_cons, List.append_assoc]
      refine hrest.others fun c hc heq => ?_
      exact mem_bytes_but.mp (mem_star_oneOf.mp hw c hc) (List.mem_singleton.mpr heq)
  · intro h
    induction h with
    | nil => exact ⟨[], rfl, List.forall_mem_nil _⟩
    | other c s hc hs ih =>
      obtain ⟨units, rfl, hunits⟩ := ih
      refine ⟨[c] :: units, rfl, List.forall_mem_cons.mpr ⟨?_, hunits⟩⟩
      refine mem_mul.mpr ⟨[c], mem_star_oneOf.mpr ?_, [], ?_, rfl⟩
      · refine List.forall_mem_singleton.mpr (mem_bytes_but.mpr fun hmem => ?_)
        exact hc (List.mem_singleton.mp hmem)
      · exact (Language.mem_add _ _ _).mpr (Or.inl ((Language.mem_one _).mpr rfl))
    | pair d s hd hs ih =>
      obtain ⟨units, rfl, hunits⟩ := ih
      refine ⟨[star, d] :: units, rfl, List.forall_mem_cons.mpr ⟨?_, hunits⟩⟩
      refine mem_mul.mpr ⟨[], mem_star_oneOf.mpr (List.forall_mem_nil _), [star, d], ?_, rfl⟩
      refine (Language.mem_add _ _ _).mpr (Or.inr (mem_mul.mpr
        ⟨[star], mem_lit.mpr rfl, [d], mem_oneOf.mpr ⟨d, mem_bytes_but.mpr fun hmem => ?_, rfl⟩,
          rfl⟩))
      exact hd (List.mem_singleton.mp hmem)

theorem comment_end_of_body (h : Body s) (v : List UInt8) :
    comment_end (s ++ star :: slash :: v) = some s.length := by
  induction h with
  | nil => rfl
  | other c s hc hs ih =>
    rw [List.cons_append]
    cases s with
    | nil =>
      rw [List.nil_append] at ih ⊢
      rw [comment_end, if_neg hc, ih]
      rfl
    | cons d s =>
      rw [List.cons_append] at ih ⊢
      rw [comment_end, if_neg hc, ih]
      rfl
  | pair d s hd hs ih =>
    rw [List.cons_append, List.cons_append, comment_end, if_pos rfl, if_neg hd, ih]
    rfl

/-- The rule finds the end after what it allows between its marks. -/
theorem body_of_comment_end {n : Nat} (h : comment_end t = some n) :
    ∃ s v, t = s ++ star :: slash :: v ∧ s.length = n ∧ Body s := by
  induction t using comment_end.induct generalizing n with
  | case1 => cases h
  | case2 => cases h
  | case3 t =>
    rw [comment_end, if_pos rfl, if_pos rfl] at h
    cases h
    exact ⟨[], t, rfl, rfl, .nil⟩
  | case4 d t hd ih =>
    rw [comment_end, if_pos rfl, if_neg hd] at h
    obtain ⟨m, hm, rfl⟩ := Option.map_eq_some_iff.mp h
    obtain ⟨s, v, rfl, rfl, hs⟩ := ih hm
    exact ⟨star :: d :: s, v, rfl, rfl, .pair d s hd hs⟩
  | case5 c d t hc ih =>
    rw [comment_end, if_neg hc] at h
    obtain ⟨m, hm, rfl⟩ := Option.map_eq_some_iff.mp h
    obtain ⟨s, v, hsv, rfl, hs⟩ := ih hm
    exact ⟨c :: s, v, by rw [hsv]; rfl, rfl, .other c s hc hs⟩

/-- The rule matches up to a star-slash where what is before it is allowed. -/
theorem mem_comment : s ∈ comment_rule.pattern.matches' ↔
    ∃ b, s = text "/*" ++ (b ++ text "*/") ∧ Body b := by
  constructor
  · intro h
    obtain ⟨u, hu, v, hv, rfl⟩ := mem_mul.mp h
    obtain ⟨b, hb, w, hw, rfl⟩ := mem_mul.mp hv
    rw [mem_lit.mp hu, mem_lit.mp hw]
    exact ⟨b, rfl, mem_comment_body.mp hb⟩
  · rintro ⟨b, rfl, hb⟩
    exact mem_mul.mpr ⟨_, mem_lit.mpr rfl, _,
      mem_mul.mpr ⟨b, mem_comment_body.mpr hb, _, mem_lit.mpr rfl, rfl⟩, rfl⟩

/-- A comment that starts a text is as long as the end that the rule finds. -/
theorem take_comment {k : Nat} (hk : k ≤ (text "/*" ++ t).length)
    (h : (text "/*" ++ t).take k ∈ comment_rule.pattern.matches') :
    comment_end t = some (k - 4) ∧ 4 ≤ k := by
  obtain ⟨b, htake, hb⟩ := mem_comment.mp h
  have hlength := congrArg List.length htake
  have htext : (text "/*").length = 2 ∧ (text "*/").length = 2 := by decide
  rw [List.length_take_of_le hk, List.length_append, List.length_append, htext.1, htext.2]
    at hlength
  have hdrop := congrArg (List.drop 2) (List.take_append_drop k (text "/*" ++ t))
  rw [htake] at hdrop
  have ht : t = b ++ star :: slash :: (text "/*" ++ t).drop k := by
    have hleft : List.drop 2 (text "/*" ++ t) = t := List.drop_left' htext.1
    rw [hleft, List.append_assoc, List.drop_left' htext.1, List.append_assoc] at hdrop
    exact hdrop.symm
  refine ⟨?_, by omega⟩
  rw [ht, comment_end_of_body hb]
  congr 1
  omega

/-- The length of a comment that starts a text. -/
theorem longest_comment (t : List UInt8) :
    longest comment_rule.pattern (text "/*" ++ t) = (comment_end t).elim 0 (· + 4) := by
  cases hend : comment_end t with
  | none =>
    rw [Option.elim_none]
    by_contra hne
    have hle := Nat.findGreatest_le (P := fun n =>
      comment_rule.pattern.rmatch ((text "/*" ++ t).take n) = true) (text "/*" ++ t).length
    cases hend.symm.trans (take_comment hle (take_longest hne)).1
  | some n =>
    obtain ⟨b, v, rfl, rfl, hb⟩ := body_of_comment_end hend
    rw [Option.elim_some]
    have htake : (text "/*" ++ (b ++ star :: slash :: v)).take (b.length + 4) =
        text "/*" ++ (b ++ text "*/") := by
      have hmark : text "*/" = [star, slash] := by decide
      have hsplit : text "/*" ++ (b ++ star :: slash :: v) =
          (text "/*" ++ (b ++ text "*/")) ++ v := by simp [hmark]
      rw [hsplit]
      refine List.take_left' ?_
      simp [text]
    refine longest_eq (by simp [text]) (mem_comment.mpr ⟨b, htake, hb⟩) fun k hk hks h => ?_
    have hother := (take_comment hks h).1
    rw [hend, Option.some.injEq] at hother
    omega

end body

section first

variable {u t : List UInt8}

/-- No star-slash starts in the text, nor at its end before a star-slash. -/
def Unmarked (u : List UInt8) : Prop := ∀ v w, u ≠ v ++ star :: slash :: w

theorem star_slash_eq {n : Nat} (h : star_slash t = some n) :
    ∃ u v, t = u ++ star :: slash :: v ∧ u.length = n ∧ Unmarked (u ++ [star]) := by
  induction t generalizing n with
  | nil => cases h
  | cons c t ih =>
    rw [star_slash] at h
    split at h
    · next hmark =>
      obtain ⟨rfl, hhead⟩ := hmark
      cases h
      obtain ⟨v, rfl⟩ := List.head?_eq_some_iff.mp hhead
      refine ⟨[], v, rfl, rfl, fun a b heq => ?_⟩
      have hlength := congrArg List.length heq
      simp only [List.nil_append, List.length_append, List.length_cons, List.length_nil] at hlength
      omega
    · next hmark =>
      obtain ⟨m, hm, rfl⟩ := Option.map_eq_some_iff.mp h
      obtain ⟨u, v, rfl, rfl, hu⟩ := ih hm
      refine ⟨c :: u, v, rfl, rfl, fun a b heq => ?_⟩
      cases a with
      | nil =>
        rw [List.cons_append, List.nil_append, List.cons.injEq] at heq
        refine hmark ⟨heq.1, ?_⟩
        cases u with
        | nil =>
          have hslash := (List.cons.inj heq.2).1
          exact absurd hslash (by decide)
        | cons d u => exact congrArg some (List.cons.inj heq.2).1
      | cons d a => exact hu a b (List.cons.inj heq).2

theorem star_slash_none (h : star_slash t = none) : Unmarked t := by
  induction t with
  | nil =>
    intro a b heq
    cases a <;> cases heq
  | cons c t ih =>
    rw [star_slash] at h
    split at h
    · cases h
    · next hmark =>
      intro a b heq
      cases a with
      | nil =>
        cases heq
        exact hmark ⟨rfl, rfl⟩
      | cons d a => exact ih (Option.map_eq_none_iff.mp h) a b (List.cons.inj heq).2

/-- Two stars are read together. -/
theorem body_stars (s : List UInt8) : Body (star :: star :: s) ↔ Body s := by
  constructor
  · intro h
    cases h with
    | other c s hc hs => exact absurd rfl hc
    | pair d s hd hs => exact hs
  · exact .pair star s (by decide)

theorem body_other {c : UInt8} (hc : c ≠ star) (s : List UInt8) : Body (c :: s) ↔ Body s := by
  constructor
  · intro h
    cases h with
    | other c s hc hs => exact hs
    | pair d s hd hs => exact absurd rfl hc
  · exact .other c s hc

theorem body_pair {d : UInt8} (hd : d ≠ slash) (s : List UInt8) :
    Body (star :: d :: s) ↔ Body s := by
  constructor
  · intro h
    cases h with
    | other c s hc hs => exact absurd rfl hc
    | pair d s hd hs => exact hs
  · exact .pair d s hd

theorem body_replicate (m : Nat) (s : List UInt8) :
    Body (List.replicate (2 * m) star ++ s) ↔ Body s := by
  induction m with
  | zero => exact Iff.rfl
  | succ m ih =>
    rw [Nat.mul_succ, Nat.add_comm, List.replicate_add]
    exact (body_stars _).trans ih

/-- A text without a star-slash is allowed if it ends with an even run of stars. -/
theorem body_iff_even (k : Nat) (hu : Unmarked (List.replicate k star ++ u)) :
    Body (List.replicate k star ++ u) ↔ Even (star_run k u) := by
  induction u generalizing k with
  | nil =>
    rw [List.append_nil, star_run]
    obtain ⟨m, rfl | rfl⟩ := Nat.even_or_odd' k
    · rw [← List.append_nil (List.replicate _ _), body_replicate]
      exact iff_of_true .nil (even_two_mul m)
    · rw [List.replicate_add, body_replicate]
      refine iff_of_false (fun h => ?_) (Nat.not_even_bit1 m)
      cases h with
      | other c s hc hs => exact hc rfl
  | cons c u ih =>
    rw [star_run]
    by_cases hc : c = star
    · have hstars : List.replicate k star ++ c :: u = List.replicate (k + 1) star ++ u := by
        rw [hc, List.replicate_succ', List.append_assoc]
        rfl
      rw [if_pos hc, hstars]
      rw [hstars] at hu
      exact ih (k + 1) hu
    · have hrest : Unmarked u := by
        intro a b heq
        exact hu (List.replicate k star ++ c :: a) b (by rw [heq, List.append_assoc]; rfl)
      rw [if_neg hc, ← ih 0 hrest]
      obtain ⟨m, rfl | rfl⟩ := Nat.even_or_odd' k
      · rw [body_replicate, body_other hc]
        exact Iff.rfl
      · have hslash : c ≠ slash := by
          rintro rfl
          refine hu (List.replicate (2 * m) star) u ?_
          rw [List.replicate_add, List.append_assoc]
          rfl
        rw [List.replicate_add, List.append_assoc, body_replicate]
        exact body_pair hslash u

/-- The longest match ends at the first star-slash, and there is a match exactly
where there is one. -/
def CommentEnds (t : List UInt8) : Prop :=
  (∀ n, star_slash t = some n →
    longest comment_rule.pattern (text "/*" ++ t) = (text "/*").length + n + (text "*/").length) ∧
  ((∃ k ≤ (text "/*" ++ t).length, (text "/*" ++ t).take k ∈ comment_rule.pattern.matches') ↔
    ∃ n, star_slash t = some n)

theorem comment_end_of_first {n : Nat} (h : star_slash t = some n) :
    comment_end t = some n ↔ Even (star_run 0 (t.take n)) := by
  obtain ⟨u, v, rfl, rfl, hu⟩ := star_slash_eq h
  have hunmarked : Unmarked (List.replicate 0 star ++ u) := by
    intro a b heq
    refine hu a (b ++ [star]) ?_
    rw [show u = a ++ star :: slash :: b from heq, List.append_assoc]
    rfl
  rw [List.take_left' rfl, ← body_iff_even 0 hunmarked]
  constructor
  · intro hend
    obtain ⟨b, w, heq, hlength, hb⟩ := body_of_comment_end hend
    obtain ⟨rfl, -⟩ := List.append_inj heq hlength.symm
    exact hb
  · exact fun hb => comment_end_of_body hb v

/-- A comment ends at its first star-slash if and only if the stars directly before
that star-slash are even in number. -/
theorem comment_ends_iff (t : List UInt8) :
    CommentEnds t ↔ ∀ n, star_slash t = some n → Even (star_run 0 (t.take n)) := by
  have hmarks : (text "/*").length = 2 ∧ (text "*/").length = 2 := by decide
  have hlongest := longest_comment t
  constructor
  · intro h n hn
    refine (comment_end_of_first hn).mp ?_
    have hfirst := h.1 n hn
    rw [hlongest, hmarks.1, hmarks.2] at hfirst
    cases hend : comment_end t with
    | none =>
      rw [hend, Option.elim_none] at hfirst
      omega
    | some m =>
      rw [hend, Option.elim_some] at hfirst
      congr 1
      omega
  · intro h
    refine ⟨fun n hn => ?_, ?_, ?_⟩
    · rw [hlongest, (comment_end_of_first hn).mpr (h n hn), hmarks.1, hmarks.2,
        Option.elim_some]
      omega
    · rintro ⟨k, hk, hmatch⟩
      obtain ⟨b, v, rfl, -⟩ := body_of_comment_end (take_comment hk hmatch).1
      cases hfirst : star_slash (b ++ star :: slash :: v) with
      | some n => exact ⟨n, rfl⟩
      | none => exact absurd rfl (star_slash_none hfirst b v)
    · rintro ⟨n, hn⟩
      rw [(comment_end_of_first hn).mpr (h n hn), Option.elim_some] at hlongest
      have hmatch := @take_longest _ _ comment_rule.pattern (text "/*" ++ t) (by
        rw [hlongest]
        exact Nat.succ_ne_zero _)
      exact ⟨_, Nat.findGreatest_le _, hmatch⟩

/-- `/***/` is no comment, and `/***/*/` is one that ends later. -/
theorem not_comment_ends : ¬ CommentEnds (text "**/") ∧ ¬ CommentEnds (text "**/*/") := by
  have hnone : longest comment_rule.pattern (text "/*" ++ text "**/") = 0 := by
    rw [longest_comment]
    decide
  have hlater : longest comment_rule.pattern (text "/*" ++ text "**/*/") = 7 := by
    rw [longest_comment]
    decide
  constructor
  · intro h
    cases hnone.symm.trans (h.1 1 (by decide))
  · intro h
    cases hlater.symm.trans (h.1 1 (by decide))

end first

end koala.lexer
