import Mathlib.Computability.RegularExpressions
import Mathlib.Data.List.MinMax
import Mathlib.Data.Nat.Find

namespace scanner

variable {α ω : Type}

section patterns

/-- Exactly the given word. -/
def lit : List α → RegularExpression α
  | [] => 1
  | c :: w => .char c * lit w

/-- One of the given symbols. -/
def oneOf : List α → RegularExpression α
  | [] => 0
  | c :: cs => .char c + oneOf cs

def many1 (r : RegularExpression α) : RegularExpression α := r * r.star

def opt (r : RegularExpression α) : RegularExpression α := 1 + r

@[simp] theorem mem_lit {w s : List α} : s ∈ (lit w).matches' ↔ s = w := by
  induction w generalizing s with
  | nil => rw [lit, RegularExpression.matches'_epsilon, Language.mem_one]
  | cons c w ih =>
    rw [lit, RegularExpression.matches'_mul, RegularExpression.matches'_char, Language.mem_mul]
    constructor
    · rintro ⟨_, rfl, b, hb, rfl⟩
      rw [ih.mp hb]
      rfl
    · rintro rfl
      exact ⟨[c], rfl, w, ih.mpr rfl, rfl⟩

@[simp] theorem mem_oneOf {cs s : List α} : s ∈ (oneOf cs).matches' ↔ ∃ c ∈ cs, s = [c] := by
  induction cs with
  | nil => simp [oneOf, Language.notMem_zero]
  | cons c cs ih =>
    rw [oneOf, RegularExpression.matches'_add, RegularExpression.matches'_char, Language.mem_add,
      ih]
    simp only [List.mem_cons, exists_eq_or_imp]
    exact Iff.rfl

theorem mem_star_oneOf {cs s : List α} :
    s ∈ (RegularExpression.star (oneOf cs)).matches' ↔ ∀ c ∈ s, c ∈ cs := by
  rw [RegularExpression.matches'_star, Language.mem_kstar]
  constructor
  · rintro ⟨L, rfl, hL⟩ c hc
    obtain ⟨w, hw, hcw⟩ := List.mem_flatten.mp hc
    obtain ⟨d, hd, rfl⟩ := mem_oneOf.mp (hL w hw)
    rwa [List.mem_singleton.mp hcw]
  · intro h
    refine ⟨s.map fun c => [c], ?_, fun w hw => ?_⟩
    · rw [← List.flatMap_def, List.flatMap_singleton']
    · obtain ⟨c, hc, rfl⟩ := List.mem_map.mp hw
      exact mem_oneOf.mpr ⟨c, h c hc, rfl⟩

theorem mem_mul {r q : RegularExpression α} {s : List α} :
    s ∈ (r * q).matches' ↔ ∃ u ∈ r.matches', ∃ v ∈ q.matches', u ++ v = s := by
  rw [RegularExpression.matches'_mul, Language.mem_mul]

/-- The symbols that a pattern is written with. -/
def alphabet : RegularExpression α → List α
  | .zero => []
  | .epsilon => []
  | .char c => [c]
  | .plus r q => alphabet r ++ alphabet q
  | .comp r q => alphabet r ++ alphabet q
  | .star r => alphabet r

/-- What is matched is written with the symbols of the pattern. -/
theorem mem_alphabet {r : RegularExpression α} {s : List α} (h : s ∈ r.matches') :
    ∀ c ∈ s, c ∈ alphabet r := by
  induction r generalizing s with
  | zero => exact absurd h (Language.notMem_zero s)
  | epsilon =>
    obtain rfl : s = [] := h
    simp
  | char a =>
    obtain rfl : s = [a] := h
    exact fun c hc => hc
  | plus r q ihr ihq =>
    intro c hc
    rcases (Language.mem_add _ _ _).mp h with h | h
    · exact List.mem_append_left _ (ihr h c hc)
    · exact List.mem_append_right _ (ihq h c hc)
  | comp r q ihr ihq =>
    obtain ⟨u, hu, v, hv, rfl⟩ := mem_mul.mp h
    intro c hc
    rcases List.mem_append.mp hc with hc | hc
    · exact List.mem_append_left _ (ihr hu c hc)
    · exact List.mem_append_right _ (ihq hv c hc)
  | star r ih =>
    obtain ⟨L, rfl, hL⟩ := Language.mem_kstar.mp h
    intro c hc
    obtain ⟨w, hw, hcw⟩ := List.mem_flatten.mp hc
    exact ih (hL w hw) c hcw

/-- What a pattern that starts with a word matches starts with that word. -/
theorem prefix_of_lit_mul {w s : List α} {r : RegularExpression α}
    (h : s ∈ (lit w * r).matches') : w <+: s := by
  obtain ⟨u, hu, v, _, rfl⟩ := mem_mul.mp h
  rw [mem_lit.mp hu]
  exact List.prefix_append _ _

theorem mem_many1_oneOf {cs s : List α} :
    s ∈ (many1 (oneOf cs)).matches' ↔ s ≠ [] ∧ ∀ c ∈ s, c ∈ cs := by
  rw [many1, mem_mul]
  constructor
  · rintro ⟨u, hu, v, hv, rfl⟩
    obtain ⟨c, hc, rfl⟩ := mem_oneOf.mp hu
    refine ⟨by simp, fun d hd => ?_⟩
    rcases List.mem_cons.mp hd with rfl | hd
    · exact hc
    · exact mem_star_oneOf.mp hv d hd
  · rintro ⟨hne, h⟩
    obtain ⟨c, v, rfl⟩ := List.exists_cons_of_ne_nil hne
    exact ⟨[c], mem_oneOf.mpr ⟨c, h c (by simp), rfl⟩, v,
      mem_star_oneOf.mpr fun d hd => h d (by simp [hd]), rfl⟩

end patterns

/-- A pattern and what to do with a match. -/
structure Rule (α ω : Type) where
  pattern : RegularExpression α
  action : ω

section scan

variable [DecidableEq α]

/-- The length of the longest match at the start of the input. -/
def longest (r : RegularExpression α) (s : List α) : Nat :=
  Nat.findGreatest (fun n => r.rmatch (s.take n) = true) s.length

/-- The rule with the longest match, the first of these, and the length of the
match. -/
def scan (rules : List (Rule α ω)) (s : List α) : Option (ω × Nat) :=
  let n := (rules.map fun r => longest r.pattern s).foldr max 0
  if n = 0 then none
  else (rules.find? fun r => longest r.pattern s = n).map fun r => (r.action, n)

theorem longest_eq {r : RegularExpression α} {s : List α} {n : Nat} (hn : n ≤ s.length)
    (hmatch : s.take n ∈ r.matches')
    (hlonger : ∀ k, n < k → k ≤ s.length → s.take k ∉ r.matches') : longest r s = n := by
  refine Nat.findGreatest_eq_iff.mpr ⟨hn, fun _ => ?_, fun k hk hks => ?_⟩
  · exact (r.rmatch_iff_matches' _).mpr hmatch
  · rw [r.rmatch_iff_matches']
    exact hlonger k hk hks

theorem longest_le {r : RegularExpression α} {s : List α} {n : Nat}
    (hlonger : ∀ k, n < k → k ≤ s.length → s.take k ∉ r.matches') : longest r s ≤ n := by
  by_contra hgt
  have hmatch : r.rmatch (s.take (longest r s)) = true :=
    Nat.findGreatest_of_ne_zero (P := fun n => r.rmatch (s.take n) = true) rfl (by omega)
  have hle : longest r s ≤ s.length := Nat.findGreatest_le s.length
  exact hlonger _ (by omega) hle ((r.rmatch_iff_matches' _).mp hmatch)

theorem longest_lt {r : RegularExpression α} {s : List α} {n : Nat} (hpos : 0 < n)
    (hmatch : s.take n ∉ r.matches')
    (hlonger : ∀ k, n < k → k ≤ s.length → s.take k ∉ r.matches') : longest r s < n := by
  refine lt_of_le_of_ne (longest_le hlonger) fun heq => ?_
  have hfound : r.rmatch (s.take (longest r s)) = true :=
    Nat.findGreatest_of_ne_zero (P := fun n => r.rmatch (s.take n) = true) rfl (by omega)
  rw [heq, r.rmatch_iff_matches'] at hfound
  exact hmatch hfound

/-- A rule is chosen when it matches, no rule matches more and no earlier rule
matches as much. -/
theorem scan_eq {before after : List (Rule α ω)} {r : Rule α ω} {s : List α} {n : Nat}
    (hpos : 0 < n) (hn : n ≤ s.length) (hmatch : s.take n ∈ r.pattern.matches')
    (hlonger : ∀ q ∈ before ++ r :: after, ∀ k, n < k → k ≤ s.length →
      s.take k ∉ q.pattern.matches')
    (hbefore : ∀ q ∈ before, s.take n ∉ q.pattern.matches') :
    scan (before ++ r :: after) s = some (r.action, n) := by
  have hr : longest r.pattern s = n := longest_eq hn hmatch (hlonger r (by simp))
  have hfold : ∀ rules : List (Rule α ω), (∀ q ∈ rules, longest q.pattern s ≤ n) →
      (rules.map fun q => longest q.pattern s).foldr max 0 ≤ n := by
    intro rules hrules
    induction rules with
    | nil => exact Nat.zero_le n
    | cons q rules ih =>
      exact Nat.max_le.mpr ⟨hrules q (by simp), ih fun p hp => hrules p (by simp [hp])⟩
  have hge : n ≤ ((before ++ r :: after).map fun q => longest q.pattern s).foldr max 0 := by
    rw [List.map_append, List.map_cons, hr]
    clear hlonger hbefore hfold
    induction before with
    | nil => exact Nat.le_max_left _ _
    | cons q before ih => exact le_trans ih (Nat.le_max_right _ _)
  have hmax : ((before ++ r :: after).map fun q => longest q.pattern s).foldr max 0 = n :=
    le_antisymm (hfold _ fun q hq => longest_le (hlonger q hq)) hge
  have hfind : (before ++ r :: after).find? (fun q => longest q.pattern s = n) = some r := by
    rw [List.find?_append, List.find?_eq_none.mpr, Option.none_or, List.find?_cons_of_pos]
    · simpa using hr
    · intro q hq
      have hlt := longest_lt hpos (hbefore q hq) (hlonger q (by simp [hq]))
      simpa using (by omega : longest q.pattern s ≠ n)
  unfold scan
  dsimp only
  rw [hmax, if_neg (by omega), hfind]
  rfl

/-- The first rule is chosen when it matches and no rule matches more. -/
theorem scan_first {after : List (Rule α ω)} {r : Rule α ω} {s : List α} {n : Nat}
    (hpos : 0 < n) (hn : n ≤ s.length) (hmatch : s.take n ∈ r.pattern.matches')
    (hlonger : ∀ q ∈ r :: after, ∀ k, n < k → k ≤ s.length → s.take k ∉ q.pattern.matches') :
    scan (r :: after) s = some (r.action, n) :=
  @scan_eq α ω _ [] after r s n hpos hn hmatch hlonger fun _ hq => absurd hq List.not_mem_nil

theorem take_longest {r : RegularExpression α} {s : List α} (hpos : longest r s ≠ 0) :
    s.take (longest r s) ∈ r.matches' := by
  have hmatch : r.rmatch (s.take (longest r s)) = true :=
    Nat.findGreatest_of_ne_zero (P := fun n => r.rmatch (s.take n) = true) rfl hpos
  exact (r.rmatch_iff_matches' _).mp hmatch

theorem le_longest {r : RegularExpression α} {s : List α} {n : Nat} (hn : n ≤ s.length)
    (hmatch : s.take n ∈ r.matches') : n ≤ longest r s :=
  Nat.le_findGreatest hn ((r.rmatch_iff_matches' _).mpr hmatch)

/-- What is chosen is a match of the first rule with a longest match. -/
theorem of_scan {rules : List (Rule α ω)} {s : List α} {a : ω} {n : Nat}
    (h : scan rules s = some (a, n)) : 0 < n ∧ n ≤ s.length ∧
      (∀ q ∈ rules, ∀ k, n < k → k ≤ s.length → s.take k ∉ q.pattern.matches') ∧
        ∃ before r after, rules = before ++ r :: after ∧ r.action = a ∧
          s.take n ∈ r.pattern.matches' ∧ ∀ q ∈ before, s.take n ∉ q.pattern.matches' := by
  unfold scan at h
  dsimp only at h
  split at h
  · cases h
  · next hne =>
    obtain ⟨r, hfind, hr⟩ := Option.map_eq_some_iff.mp h
    obtain ⟨hrn, before, after, hrules, hbefore⟩ := List.find?_eq_some_iff_append.mp hfind
    cases hr
    have hlen : ∀ q ∈ rules, longest q.pattern s ≤
        (rules.map fun r => longest r.pattern s).foldr max 0 := by
      intro q hq
      exact List.le_max_of_le' 0 (List.mem_map_of_mem hq) (Nat.le_refl _)
    have heq : longest r.pattern s =
        (rules.map fun r => longest r.pattern s).foldr max 0 := by simpa using hrn
    rw [← heq] at hne hlen ⊢
    refine ⟨Nat.pos_of_ne_zero hne, Nat.findGreatest_le s.length, fun q hq k hk hks hmatch => ?_,
      before, r, after, hrules, rfl, take_longest hne, fun q hq hmatch => ?_⟩
    · have hle := (le_longest hks hmatch).trans (hlen q hq)
      omega
    · have hqr : q ∈ rules := by
        rw [hrules]
        exact List.mem_append_left _ hq
      have hle := le_longest (Nat.findGreatest_le s.length) hmatch
      have hlonger := hbefore q hq
      rw [← heq] at hlonger
      simp only [Bool.not_eq_eq_eq_not, Bool.not_true, decide_eq_false_iff_not] at hlonger
      exact hlonger (le_antisymm (hlen q hqr) hle)

theorem foldr_max_mem (l : List Nat) (h : l.foldr max 0 ≠ 0) : l.foldr max 0 ∈ l := by
  induction l with
  | nil => exact absurd rfl h
  | cons n l ih =>
    rw [List.foldr_cons] at h ⊢
    rcases Nat.le_total (l.foldr max 0) n with hle | hle
    · rw [Nat.max_eq_left hle]
      exact List.mem_cons_self
    · rw [Nat.max_eq_right hle] at h ⊢
      exact List.mem_cons_of_mem n (ih h)

/-- The scanner goes on where some rule matches. -/
theorem scan_ne_none {rules : List (Rule α ω)} {r : Rule α ω} {s : List α} (hr : r ∈ rules)
    (hne : longest r.pattern s ≠ 0) : scan rules s ≠ none := by
  have hle : longest r.pattern s ≤ (rules.map fun r => longest r.pattern s).foldr max 0 :=
    List.le_max_of_le' 0 (List.mem_map_of_mem hr) (Nat.le_refl _)
  have hmax : (rules.map fun r => longest r.pattern s).foldr max 0 ≠ 0 := by omega
  obtain ⟨q, hq, heq⟩ := List.mem_map.mp (foldr_max_mem _ hmax)
  unfold scan
  dsimp only
  rw [if_neg hmax]
  intro hnone
  have hfind := List.find?_eq_none.mp (Option.map_eq_none_iff.mp hnone) q hq
  exact hfind (decide_eq_true heq)

theorem longest_le_of_take {r : RegularExpression α} {u x y : List α}
    (hx : ∀ k ≤ (u ++ x).length, (u ++ x).take k ∈ r.matches' → k ≤ u.length) :
    longest r (u ++ x) ≤ longest r (u ++ y) := by
  by_cases hzero : longest r (u ++ x) = 0
  · rw [hzero]
    exact Nat.zero_le _
  · have hmatch := take_longest hzero
    have hle : longest r (u ++ x) ≤ u.length := hx _ (Nat.findGreatest_le _) hmatch
    rw [List.take_append_of_le_length hle] at hmatch
    refine le_longest ?_ ?_
    · rw [List.length_append]
      omega
    · rwa [List.take_append_of_le_length hle]

/-- What follows does not matter to a pattern that matches none of it. -/
theorem longest_congr {r : RegularExpression α} {u x y : List α}
    (hx : ∀ k ≤ (u ++ x).length, (u ++ x).take k ∈ r.matches' → k ≤ u.length)
    (hy : ∀ k ≤ (u ++ y).length, (u ++ y).take k ∈ r.matches' → k ≤ u.length) :
    longest r (u ++ x) = longest r (u ++ y) :=
  le_antisymm (longest_le_of_take hx) (longest_le_of_take hy)

theorem scan_congr {rules : List (Rule α ω)} {s t : List α}
    (h : ∀ r ∈ rules, longest r.pattern s = longest r.pattern t) : scan rules s = scan rules t := by
  have hmap : (rules.map fun r => longest r.pattern s) = rules.map fun r => longest r.pattern t :=
    List.map_congr_left h
  have hfind : ∀ n, (rules.find? fun r => longest r.pattern s = n) =
      rules.find? fun r => longest r.pattern t = n := by
    intro n
    induction rules with
    | nil => rfl
    | cons q rules ih =>
      obtain ⟨hq, hrules⟩ := List.forall_mem_cons.mp h
      rw [List.find?_cons, List.find?_cons, hq, ih hrules (List.map_congr_left hrules)]
  unfold scan
  dsimp only
  rw [hmap, hfind]

end scan

section starts

/-- The symbols that a match of a pattern can start with. -/
def firsts : RegularExpression α → List α
  | .zero => []
  | .epsilon => []
  | .char c => [c]
  | .plus r q => firsts r ++ firsts q
  | .comp r q => if r.matchEpsilon then firsts r ++ firsts q else firsts r
  | .star r => firsts r

variable [DecidableEq α]

theorem mem_firsts {r : RegularExpression α} {c : α} {s : List α} (h : c :: s ∈ r.matches') :
    c ∈ firsts r := by
  induction r generalizing s with
  | zero => exact absurd h (Language.notMem_zero _)
  | epsilon => cases (h : c :: s = [])
  | char a =>
    cases (h : c :: s = [a])
    exact List.mem_singleton_self c
  | plus r q ihr ihq =>
    rcases (Language.mem_add _ _ _).mp h with h | h
    · exact List.mem_append_left _ (ihr h)
    · exact List.mem_append_right _ (ihq h)
  | comp r q ihr ihq =>
    obtain ⟨u, hu, v, hv, heq⟩ := mem_mul.mp h
    rw [firsts]
    cases u with
    | nil =>
      have hepsilon : r.matchEpsilon = true := (r.rmatch_iff_matches' []).mpr hu
      obtain rfl : v = c :: s := heq
      rw [if_pos hepsilon]
      exact List.mem_append_right _ (ihq hv)
    | cons d u =>
      obtain ⟨rfl, -⟩ := List.cons.inj heq
      have hd := ihr hu
      split
      · exact List.mem_append_left _ hd
      · exact hd
  | star r ih =>
    obtain ⟨L, heq, hL⟩ := Language.mem_kstar.mp h
    induction L with
    | nil => cases heq
    | cons w L ihL =>
      obtain ⟨hw, hrest⟩ := List.forall_mem_cons.mp hL
      cases w with
      | nil => exact ihL heq hrest
      | cons d w =>
        obtain ⟨rfl, -⟩ := List.cons.inj heq
        exact ih hw

/-- Whether a match of a pattern can start with a word. -/
def starts : RegularExpression α → List α → Bool
  | _, [] => true
  | r, c :: w => decide (c ∈ firsts r) && starts (r.deriv c) w

theorem starts_of_mem {r : RegularExpression α} {w s : List α} (h : w ++ s ∈ r.matches') :
    starts r w = true := by
  induction w generalizing r with
  | nil => rfl
  | cons c w ih =>
    have hderiv : w ++ s ∈ (r.deriv c).matches' := by
      rw [← RegularExpression.rmatch_iff_matches'] at h ⊢
      exact h
    rw [starts, Bool.and_eq_true]
    exact ⟨decide_eq_true (mem_firsts h), ih hderiv⟩

/-- A match as long as a word that the input starts with is a match of a rule that
can start with it. -/
theorem scan_of_starts {rules : List (Rule α ω)} {w s : List α} {a : ω} {n : Nat}
    (hn : w.length ≤ n)
    (h : scan (rules.filter fun r => starts r.pattern w) (w ++ s) = some (a, n)) :
    scan rules (w ++ s) = some (a, n) := by
  have hstarts : ∀ (r : RegularExpression α) (k : Nat), w.length ≤ k →
      (w ++ s).take k ∈ r.matches' → starts r w = true := by
    intro r k hk hmatch
    rw [List.take_append, List.take_of_length_le hk] at hmatch
    exact starts_of_mem hmatch
  obtain ⟨hpos, hlen, hlonger, before, r, after, hfilter, rfl, hmatch, hbefore⟩ := of_scan h
  obtain ⟨first, rest, rfl, hfirst, hrest⟩ := List.filter_eq_append_iff.mp hfilter
  obtain ⟨skipped, last, rfl, hskipped, hr, -⟩ := List.filter_eq_cons_iff.mp hrest
  rw [← List.append_assoc]
  refine scan_eq hpos hlen hmatch (fun q hq k hk hks hlong => ?_) fun q hq hother => ?_
  · rw [List.append_assoc] at hq
    exact hlonger q (List.mem_filter.mpr ⟨hq, hstarts _ _ (by omega) hlong⟩) k hk hks hlong
  · have hq' := hstarts _ _ hn hother
    rcases List.mem_append.mp hq with hq | hq
    · refine hbefore q ?_ hother
      rw [← hfirst]
      exact List.mem_filter.mpr ⟨hq, hq'⟩
    · exact hskipped q hq hq'

end starts

end scanner
