import Koala.Lexer.Layout

open scanner

namespace koala.lexer

set_option linter.style.nameCheck false

/-- A rule has a match at the start of a text. -/
def Matches (r : Rule UInt8 Action) (s : List UInt8) : Prop := longest r.pattern s ≠ 0

/-- A string or a block comment that starts with `u`, before the newline, and that
ends somewhere once the layout is inserted also ends without it. -/
def Ended (u layout rest : List UInt8) : Prop := ∀ r ∈ [string_rule, comment_rule],
  Matches r (u ++ newline :: (layout ++ rest)) → Matches r (u ++ newline :: rest)

set_option maxRecDepth 4000 in
/-- Only strings, block comments and the newline itself are matched with a newline. -/
theorem newline_alphabet {r : Rule UInt8 Action} (hr : r ∈ rules) :
    r = string_rule ∨ r = comment_rule ∨ r = newline_rule ∨ newline ∉ alphabet r.pattern := by
  rcases List.mem_append.mp hr with hr | hr
  · rcases List.mem_cons.mp hr with rfl | hr
    · exact Or.inr (Or.inr (Or.inr (by decide)))
    rcases List.mem_append.mp hr with hr | hr
    · obtain ⟨p, hp, rfl⟩ := List.mem_map.mp hr
      have hwords : ∀ p ∈ words, newline ∉ alphabet (lit (text p.1)) := by decide
      exact Or.inr (Or.inr (Or.inr (hwords p hp)))
    · simp only [literals, List.mem_cons, List.not_mem_nil, or_false] at hr
      rcases hr with rfl | rfl | rfl | rfl | rfl | rfl
      · exact Or.inr (Or.inr (Or.inr (by decide)))
      · exact Or.inr (Or.inr (Or.inr (by decide)))
      · exact Or.inr (Or.inr (Or.inr (by decide)))
      · exact Or.inr (Or.inr (Or.inr (by decide)))
      · exact Or.inr (Or.inr (Or.inr (by decide)))
      · exact Or.inl rfl
  · simp only [others, List.mem_cons, List.not_mem_nil, or_false] at hr
    rcases hr with rfl | rfl | rfl | rfl | rfl | rfl | rfl | rfl
    · exact Or.inr (Or.inr (Or.inr (by decide)))
    · exact Or.inr (Or.inr (Or.inl rfl))
    · exact Or.inr (Or.inr (Or.inr (by decide)))
    · exact Or.inr (Or.inr (Or.inr (by decide)))
    · exact Or.inr (Or.inl rfl)
    · exact Or.inr (Or.inr (Or.inr (by decide)))
    · exact Or.inr (Or.inr (Or.inr (by decide)))
    · exact Or.inr (Or.inr (Or.inr (by decide)))

section inserted

variable {u x y : List UInt8}

theorem longest_of_newline {r : Rule UInt8 Action} (hr : newline ∉ alphabet r.pattern) :
    longest r.pattern (u ++ newline :: x) = longest r.pattern (u ++ newline :: y) := by
  refine longest_congr (fun k _ hmatch => ?_) fun k _ hmatch => ?_
  · by_contra hk
    exact notMem_of_newline hr (Nat.lt_of_not_le hk) hmatch
  · by_contra hk
    exact notMem_of_newline hr (Nat.lt_of_not_le hk) hmatch

theorem longest_newline (hu : u ≠ []) :
    longest newline_rule.pattern (u ++ newline :: x) =
      longest newline_rule.pattern (u ++ newline :: y) := by
  have hpos := List.length_pos_of_ne_nil hu
  have hone : ∀ z k, k ≤ (u ++ newline :: z).length →
      (u ++ newline :: z).take k ∈ newline_rule.pattern.matches' → k ≤ u.length := by
    intro z k hk hmatch
    have hlen := congrArg List.length (mem_lit.mp hmatch)
    rw [List.length_take_of_le hk] at hlen
    exact (Nat.le_of_eq hlen).trans hpos
  exact longest_congr (hone x) (hone y)

/-- A block comment that ends before the newline ends there whatever follows. -/
theorem longest_comment_eq (hx : longest comment_rule.pattern (u ++ newline :: x) ≠ 0)
    (hle : longest comment_rule.pattern (u ++ newline :: x) ≤ u.length) :
    longest comment_rule.pattern (u ++ newline :: y) =
      longest comment_rule.pattern (u ++ newline :: x) := by
  have hmatch := take_longest hx
  rw [List.take_append_of_le_length hle] at hmatch
  generalize longest comment_rule.pattern (u ++ newline :: x) = m at hx hle hmatch
  have hlen : m ≤ (u ++ newline :: y).length := by
    rw [List.length_append]
    omega
  have hmatch' : (u ++ newline :: y).take m ∈ comment_rule.pattern.matches' := by
    rwa [List.take_append_of_le_length hle]
  obtain ⟨t, ht⟩ : ∃ t, u ++ newline :: y = text "/*" ++ t := by
    obtain ⟨b, hb, -⟩ := mem_comment.mp hmatch'
    refine ⟨(b ++ text "*/") ++ (u ++ newline :: y).drop m, ?_⟩
    rw [← List.append_assoc, ← hb, List.take_append_drop]
  have hge := le_longest hlen hmatch'
  rw [ht] at hlen hmatch' hge ⊢
  have hlongest : longest comment_rule.pattern (text "/*" ++ t) ≠ 0 := by omega
  obtain ⟨hend, hfour⟩ := take_comment hlen hmatch'
  obtain ⟨hend', hfour'⟩ := take_comment (Nat.findGreatest_le _) (take_longest hlongest)
  rw [hend, Option.some.injEq] at hend'
  change 4 ≤ longest comment_rule.pattern (text "/*" ++ t) at hfour'
  change m - 4 = longest comment_rule.pattern (text "/*" ++ t) - 4 at hend'
  omega

theorem bare_quote_congr {p : UInt8} {q : Nat} {v : List UInt8} (hq : q < v.length)
    (h : bare_quote p (v ++ x) = some q) : bare_quote p (v ++ y) = some q := by
  induction v generalizing p q with
  | nil => cases hq
  | cons c v ih =>
    rw [List.cons_append, bare_quote] at h ⊢
    split
    · next hbare => rwa [if_pos hbare] at h
    · next hbare =>
      rw [if_neg hbare] at h
      obtain ⟨m, hm, rfl⟩ := Option.map_eq_some_iff.mp h
      rw [ih (Nat.lt_of_succ_lt_succ hq) hm]
      rfl

/-- A string that ends before the newline ends there whatever follows. -/
theorem longest_string_eq (hx : longest string_rule.pattern (u ++ newline :: x) ≠ 0)
    (hle : longest string_rule.pattern (u ++ newline :: x) ≤ u.length) :
    longest string_rule.pattern (u ++ newline :: y) =
      longest string_rule.pattern (u ++ newline :: x) := by
  obtain ⟨v, rfl⟩ : ∃ v, u = quote :: v := by
    obtain ⟨b, hb, -⟩ := mem_string.mp (take_longest hx)
    cases u with
    | nil => exact absurd (Nat.le_zero.mp hle) hx
    | cons c v =>
      have hhead := congrArg List.head? hb
      rw [List.head?_take, if_neg hx] at hhead
      obtain rfl : c = quote := Option.some.inj hhead
      exact ⟨v, rfl⟩
  rw [List.cons_append, longest_string] at hx hle
  rw [List.cons_append, List.cons_append, longest_string, longest_string]
  cases hq : bare_quote quote (v ++ newline :: x) with
  | none =>
    rw [hq] at hx
    exact absurd rfl hx
  | some q =>
    rw [hq, Option.elim_some, List.length_cons] at hle
    have hlt : q < v.length := by
      split at hle <;> omega
    have hnext : (v ++ newline :: y)[q + 1]? = (v ++ newline :: x)[q + 1]? := by
      rcases Nat.lt_or_ge (q + 1) v.length with hin | hout
      · rw [List.getElem?_append_left hin, List.getElem?_append_left hin]
      · have hlast : q + 1 - v.length = 0 := by omega
        rw [List.getElem?_append_right hout, List.getElem?_append_right hout, hlast]
        rfl
    rw [bare_quote_congr hlt hq, Option.elim_some, Option.elim_some, hnext]

/-- What is matched before the newline is matched with the layout as well. -/
theorem scan_inserted {layout rest : List UInt8} {action : Action} {yyleng : Nat} (hu : u ≠ [])
    (hended : Ended u layout rest)
    (hscan : scan rules (u ++ newline :: rest) = some (action, yyleng))
    (hle : yyleng ≤ u.length) :
    scan rules (u ++ newline :: (layout ++ rest)) = some (action, yyleng) := by
  obtain ⟨hpos, -, hlonger, -⟩ := of_scan hscan
  have hlongest : ∀ r ∈ rules, longest r.pattern (u ++ newline :: rest) ≤ yyleng := by
    intro r hr
    exact longest_le fun k hk hks => hlonger r hr k hk hks
  rw [← hscan]
  refine scan_congr fun r hr => ?_
  rcases newline_alphabet hr with rfl | rfl | rfl | hline
  · by_cases hzero : longest string_rule.pattern (u ++ newline :: rest) = 0
    · rw [hzero]
      by_contra hne
      exact hended string_rule List.mem_cons_self hne hzero
    · exact longest_string_eq hzero ((hlongest _ hr).trans hle)
  · by_cases hzero : longest comment_rule.pattern (u ++ newline :: rest) = 0
    · rw [hzero]
      by_contra hne
      exact hended comment_rule (List.mem_cons_of_mem _ List.mem_cons_self) hne hzero
    · exact longest_comment_eq hzero ((hlongest _ hr).trans hle)
  · exact longest_newline hu
  · exact longest_of_newline hline

theorem tokens_after_inserted {lastToken : Nat} {layout rest s : List UInt8}
    (hlayout : Layout layout) (hscans : Scans s (newline :: rest)) (hs : s = u ++ newline :: rest)
    (hended : ∀ v, Scans s (v ++ newline :: rest) → Ended v layout rest) :
    tokens_after lastToken (u ++ newline :: (layout ++ rest)) =
      tokens_after lastToken (u ++ newline :: rest) := by
  generalize hend : newline :: rest = last at hscans
  induction hscans generalizing lastToken u with
  | refl s =>
    subst hend
    obtain rfl : u = [] := by
      have hlen := congrArg List.length hs
      rw [List.length_append] at hlen
      exact List.length_eq_zero_iff.mp (by omega)
    exact tokens_after_newline hlayout
  | @step s _ action yyleng hscan hrest ih =>
    subst hs hend
    have hle : yyleng ≤ u.length := by
      have hlen := hrest.suffix.length_le
      obtain ⟨hpos, hlen', -⟩ := of_scan hscan
      rw [List.length_append] at hlen'
      rw [List.length_drop, List.length_append] at hlen
      rw [List.length_cons] at hlen hlen'
      omega
    have hu : u ≠ [] := by
      rintro rfl
      exact absurd (of_scan hscan).1 (Nat.not_lt_of_le hle)
    have hinserted := scan_inserted hu (hended u (.refl _)) hscan hle
    have hrec : ∀ lastToken, tokens_after lastToken
        (u.drop yyleng ++ newline :: (layout ++ rest)) =
          tokens_after lastToken (u.drop yyleng ++ newline :: rest) := by
      intro lastToken
      refine ih (List.drop_append_of_le_length hle) (fun v hv => hended v (.step hscan hv)) rfl
    rw [tokens_after_scan hscan, tokens_after_scan hinserted,
      List.take_append_of_le_length hle, List.take_append_of_le_length hle,
      List.drop_append_of_le_length hle, List.drop_append_of_le_length hle]
    cases action.token lastToken (u.take yyleng) with
    | none => exact hrec lastToken
    | some token => exact congrArg (token :: ·) (hrec token.number)

end inserted

/-- Layout inserted behind a newline that the scanner comes to leaves the tokens as
they are, if it ends no string and no block comment that starts before the newline
and that nothing in the text ends. -/
theorem tokens_inserted {before layout rest : List UInt8} (hlayout : Layout layout)
    (hnewline : Scans (before ++ newline :: rest) (newline :: rest))
    (hended : ∀ u, Scans (before ++ newline :: rest) (u ++ newline :: rest) →
      Ended u layout rest) :
    tokens (before ++ newline :: (layout ++ rest)) = tokens (before ++ newline :: rest) :=
  tokens_after_inserted hlayout hnewline rfl hended

example : (scan rules (text "x\n")).map Prod.snd = some 1 := by decide +kernel

theorem tokens_inserted_x : tokens (text "x" ++ newline :: (text "// y\n" ++ [])) =
    tokens (text "x" ++ newline :: []) := by
  have hscan : (scan rules (text "x\n")).map Prod.snd = some 1 := by decide +kernel
  obtain ⟨⟨action, yyleng⟩, hscan, rfl⟩ := Option.map_eq_some_iff.mp hscan
  refine tokens_inserted ?_ (.step hscan (.refl _)) fun u hu => ?_
  · exact ⟨[text "// y\n"], List.forall_mem_singleton.mpr ⟨[], text "// y",
      fun c hc => absurd hc List.not_mem_nil, .inr ⟨text " y", by decide, .inr rfl⟩, rfl⟩, rfl⟩
  · have hcases : u = [] ∨ u = text "x" := by
      obtain ⟨t, ht⟩ := hu.suffix
      rw [← List.append_assoc] at ht
      have hx : t ++ u = text "x" := List.append_inj_left' ht rfl
      cases t with
      | nil => exact .inr hx
      | cons c t => exact .inl (List.append_eq_nil_iff.mp (List.cons.inj hx).2).2
    have hnone : ∀ u ∈ [[], text "x"], ∀ p ∈ [string_rule.pattern, comment_rule.pattern],
        longest p (u ++ newline :: (text "// y\n" ++ [])) = 0 := by
      decide +kernel
    intro r hr hmatch
    have hu' : u ∈ [[], text "x"] := by simpa using hcases
    exact absurd (hnone u hu' r.pattern (List.mem_map_of_mem hr)) hmatch

/-- A comment with a quote, behind a quote that nothing ends. -/
theorem tokens_changed : ¬ ∀ before layout rest : List UInt8, Layout layout →
    Scans (before ++ newline :: rest) (newline :: rest) →
    tokens (before ++ newline :: (layout ++ rest)) = tokens (before ++ newline :: rest) := by
  intro h
  have hscan : (scan rules (text "\"\n")).map Prod.snd = some 1 := by decide +kernel
  obtain ⟨⟨action, yyleng⟩, hscan, rfl⟩ := Option.map_eq_some_iff.mp hscan
  have hsame := h (text "\"") (text "#\"\n") [] ⟨[text "#\"\n"], ?_, rfl⟩
    (.step hscan (.refl _))
  · have hne : tokens (text "\"" ++ newline :: (text "#\"\n" ++ [])) ≠
        tokens (text "\"" ++ newline :: []) := by decide +kernel
    exact hne hsame
  · exact List.forall_mem_singleton.mpr ⟨[], text "#\"", fun c hc => absurd hc List.not_mem_nil,
      .inr ⟨text "\"", by decide, .inl rfl⟩, rfl⟩

end koala.lexer
