import Koala.Lexer.Rules

open scanner

namespace koala.lexer

set_option linter.style.nameCheck false

/-- The space between two lexemes. -/
def space : UInt8 := 32

def white : List UInt8 := text "\t\r "

/-- How the rules start that can match a space. -/
def openers : List (List UInt8) := [text "\"", text "'", text "#", text "/*", text "//"]

theorem space_words : ∀ p ∈ words, space ∉ text p.1 := by decide

/-- A match with a space in it is one character, starts like a string, a
character or a comment, or is white. -/
theorem space_match {r : Rule UInt8 Action} (hr : r ∈ rules) {s : List UInt8}
    (hs : s ∈ r.pattern.matches') (hspace : space ∈ s) :
    s.length = 1 ∨ (∃ p ∈ openers, p <+: s) ∨ ∀ c ∈ s, c ∈ white := by
  have halphabet : space ∉ alphabet r.pattern → False := fun hnot =>
    hnot (mem_alphabet hs _ hspace)
  rcases List.mem_append.mp hr with hr | hr
  · rcases List.mem_cons.mp hr with rfl | hr
    · obtain ⟨c, _, rfl⟩ := mem_oneOf.mp hs
      exact Or.inl rfl
    rcases List.mem_append.mp hr with hr | hr
    · obtain ⟨p, hp, rfl⟩ := List.mem_map.mp hr
      rw [mem_lit.mp hs] at hspace
      exact absurd hspace (space_words p hp)
    · simp only [literals, List.mem_cons, List.not_mem_nil, or_false] at hr
      rcases hr with rfl | rfl | rfl | rfl | rfl | rfl
      · exact absurd (by decide) halphabet
      · exact absurd (by decide) halphabet
      · exact absurd (by decide) halphabet
      · exact absurd (by decide) halphabet
      · exact absurd (by decide) halphabet
      · exact Or.inr (Or.inl ⟨_, by simp [openers], prefix_of_lit_mul hs⟩)
  · simp only [others, List.mem_cons, List.not_mem_nil, or_false] at hr
    rcases hr with rfl | rfl | rfl | rfl | rfl | rfl | rfl | rfl
    · exact absurd (by decide) halphabet
    · exact absurd (by decide) halphabet
    · exact Or.inr (Or.inl ⟨_, by simp [openers], prefix_of_lit_mul hs⟩)
    · exact Or.inr (Or.inr (mem_many1_oneOf.mp hs).2)
    · exact Or.inr (Or.inl ⟨_, by simp [openers], prefix_of_lit_mul hs⟩)
    · exact Or.inr (Or.inl ⟨_, by simp [openers], prefix_of_lit_mul hs⟩)
    · exact Or.inr (Or.inl ⟨_, by simp [openers], prefix_of_lit_mul hs⟩)
    · obtain ⟨c, _, rfl⟩ := mem_oneOf.mp hs
      exact Or.inl rfl

/-- A word that ends at the next space. -/
structure Lexeme (w : List UInt8) : Prop where
  ne : w ≠ []
  head : ∀ c ∈ w.head?, c ∉ white
  opens : ∀ p ∈ openers, ∀ rest, ¬ p <+: w ++ space :: rest

theorem Lexeme.not_longer {w : List UInt8} (hw : Lexeme w) (rest : List UInt8)
    {r : Rule UInt8 Action} (hr : r ∈ rules) : w ++ space :: rest ∉ r.pattern.matches' := by
  intro hs
  obtain ⟨c, cs, rfl⟩ := List.exists_cons_of_ne_nil hw.ne
  rcases space_match hr hs (by simp) with hlength | ⟨p, hp, hprefix⟩ | hwhite
  · simp at hlength
  · exact hw.opens p hp rest hprefix
  · exact hw.head c rfl (hwhite c (by simp))

/-- A word is read as a token when it is a whole match of the rule of that
token and of no rule before it. -/
structure LexesAs (w : List UInt8) (token : Token) : Prop where
  lexeme : Lexeme w
  rule : ∃ before r after, rules = before ++ r :: after ∧ w ∈ r.pattern.matches' ∧
    (∀ q ∈ before, w ∉ q.pattern.matches') ∧
    ∀ lastToken, r.action.run lastToken w = some (some token)

/-- The end of the input, or a space. -/
def AtEnd (rest : List UInt8) : Prop := rest = [] ∨ ∃ rest', rest = space :: rest'

theorem LexesAs.scan {w : List UInt8} {token : Token} (h : LexesAs w token) {rest : List UInt8}
    (hrest : AtEnd rest) : ∃ action, scan rules (w ++ rest) = some (action, w.length) ∧
      ∀ lastToken, action.run lastToken w = some (some token) := by
  obtain ⟨before, r, after, hrules, hmatch, hbefore, hrun⟩ := h.rule
  refine ⟨r.action, ?_, hrun⟩
  have htake : (w ++ rest).take w.length = w := List.take_left
  have hpos : 0 < w.length := List.length_pos_of_ne_nil h.lexeme.ne
  rw [hrules]
  refine scan_eq hpos (by simp) (by rwa [htake]) (fun q hq k hk hks => ?_)
    fun q hq => by
      rw [htake]
      exact hbefore q hq
  rcases hrest with rfl | ⟨rest', rfl⟩
  · rw [List.append_nil] at hks
    omega
  · obtain ⟨j, rfl⟩ : ∃ j, k = w.length + (j + 1) := ⟨k - w.length - 1, by omega⟩
    rw [List.take_length_add_append, List.take_succ_cons]
    exact h.lexeme.not_longer _ (hrules ▸ hq)

def white_rule : Rule UInt8 Action := ⟨many1 (oneOf white), .skip⟩

/-- The rules before that of white space match no space. -/
theorem space_unmatched {q : Rule UInt8 Action}
    (hq : q ∈ ⟨oneOf characters, .character⟩ :: (words.map word_rule ++ literals) ++
      ident_rule :: others.take 2) : [space] ∉ q.pattern.matches' := by
  intro hs
  have halphabet : space ∉ alphabet q.pattern → False := fun hnot =>
    hnot (mem_alphabet hs _ (by simp))
  rcases List.mem_append.mp hq with hq | hq
  · rcases List.mem_cons.mp hq with rfl | hq
    · exact absurd (by decide) halphabet
    rcases List.mem_append.mp hq with hq | hq
    · obtain ⟨p, hp, rfl⟩ := List.mem_map.mp hq
      exact space_words p hp (mem_lit.mp hs ▸ List.mem_singleton_self space)
    · simp only [literals, List.mem_cons, List.not_mem_nil, or_false] at hq
      rcases hq with rfl | rfl | rfl | rfl | rfl | rfl
      · exact absurd (by decide) halphabet
      · exact absurd (by decide) halphabet
      · exact absurd (by decide) halphabet
      · exact absurd (by decide) halphabet
      · exact absurd (by decide) halphabet
      · exact absurd (prefix_of_lit_mul hs) (by decide)
  · simp only [others, List.take_succ_cons, List.take_zero, List.mem_cons, List.not_mem_nil,
      or_false] at hq
    rcases hq with rfl | rfl | rfl
    · exact absurd (by decide) halphabet
    · exact absurd (by decide) halphabet
    · exact absurd (prefix_of_lit_mul hs) (by decide)

/-- The space before a lexeme is skipped alone. -/
theorem scan_space {w rest : List UInt8} (hw : Lexeme w) :
    scan rules (space :: (w ++ rest)) = some (.skip, 1) := by
  obtain ⟨c, cs, rfl⟩ := List.exists_cons_of_ne_nil hw.ne
  have hwhite := hw.head c rfl
  have hrules : rules = (⟨oneOf characters, .character⟩ :: (words.map word_rule ++ literals) ++
      ident_rule :: others.take 2) ++ white_rule :: others.drop 3 := by
    simp [rules, others, white_rule, white]
  rw [hrules]
  refine scan_eq (r := white_rule) (by omega) (by simp) ?_ (fun q hq k hk hks => ?_)
    fun q hq => space_unmatched hq
  · have hspace : space ∈ white := by decide
    refine mem_many1_oneOf.mpr ⟨by simp, fun d hd => ?_⟩
    rwa [List.mem_singleton.mp hd]
  · rw [← hrules] at hq
    intro hs
    obtain ⟨j, rfl⟩ : ∃ j, k = j + 2 := ⟨k - 2, by omega⟩
    rw [List.cons_append, List.take_succ_cons, List.take_succ_cons] at hs
    rcases space_match hq hs (by simp) with hlength | ⟨p, hp, hprefix⟩ | hall
    · simp at hlength
    · have hopen : ∀ p ∈ openers, ∀ s : List UInt8, ¬ p <+: space :: s := by
        intro p hp s hprefix
        simp only [openers, List.mem_cons, List.not_mem_nil, or_false] at hp
        obtain ⟨d, ds, rfl, hd⟩ : ∃ d ds, p = d :: ds ∧ d ≠ space := by
          rcases hp with rfl | rfl | rfl | rfl | rfl
          · exact ⟨_, _, rfl, by decide⟩
          · exact ⟨_, _, rfl, by decide⟩
          · exact ⟨_, _, rfl, by decide⟩
          · exact ⟨_, _, rfl, by decide⟩
          · exact ⟨_, _, rfl, by decide⟩
        exact hd (List.cons_prefix_cons.mp hprefix).1
      exact hopen p hp _ hprefix
    · exact hwhite (hall c (by simp))

/-- Words with spaces between them. -/
def spaced : List (List UInt8) → List UInt8
  | [] => []
  | [w] => w
  | w :: ws => w ++ space :: spaced ws

theorem spaced_cons (w v : List UInt8) (ws : List (List UInt8)) :
    spaced (w :: v :: ws) = w ++ space :: spaced (v :: ws) := rfl

/-- Words with spaces between them are read as their tokens. -/
theorem yylex_spaced {ws : List (List UInt8)} {tokens : List Token}
    (h : List.Forall₂ LexesAs ws tokens) : yylex (spaced ws) = some tokens := by
  suffices hloop : ∀ fuel lastToken, (spaced ws).length ≤ fuel →
      yylex.loop fuel lastToken (spaced ws) = some tokens from hloop _ 0 (Nat.le_refl _)
  induction h with
  | nil =>
    intro fuel lastToken _
    cases fuel <;> rfl
  | @cons w token ws tokens hw hws ih =>
    intro fuel lastToken hfuel
    have hstep : ∀ rest, AtEnd rest → (w ++ rest).length ≤ fuel →
        (∀ fuel' last, rest.length ≤ fuel' → yylex.loop fuel' last rest = some tokens) →
        yylex.loop fuel lastToken (w ++ rest) = some (token :: tokens) := by
      intro rest hrest hle hloop
      obtain ⟨action, hscan, hrun⟩ := hw.scan hrest
      obtain ⟨c, cs, rfl⟩ := List.exists_cons_of_ne_nil hw.lexeme.ne
      simp only [List.cons_append, List.length_cons, List.length_append] at hle
      obtain ⟨fuel, rfl⟩ : ∃ f, fuel = f + 1 := ⟨fuel - 1, by omega⟩
      rw [List.cons_append] at hscan ⊢
      rw [yylex.loop, hscan]
      dsimp only
      rw [← List.cons_append, List.take_left, List.drop_left, hrun]
      dsimp only
      rw [hloop fuel token.number (by omega)]
      rfl
    cases hws with
    | nil =>
      have hsingle := hstep [] (Or.inl rfl) (by simpa [spaced] using hfuel)
        fun fuel' last _ => by cases fuel' <;> rfl
      rwa [List.append_nil] at hsingle
    | @cons v token' ws tokens hv hws =>
      rw [spaced_cons] at hfuel ⊢
      refine hstep _ (Or.inr ⟨_, rfl⟩) hfuel fun fuel' last hle => ?_
      have hspaced : ∃ rest, spaced (v :: ws) = v ++ rest := by
        cases ws with
        | nil => exact ⟨[], (List.append_nil v).symm⟩
        | cons u us => exact ⟨_, rfl⟩
      obtain ⟨rest, hrest⟩ := hspaced
      rw [List.length_cons] at hle
      obtain ⟨fuel', rfl⟩ : ∃ f, fuel' = f + 1 := ⟨fuel' - 1, by omega⟩
      have hscan : scan rules (space :: (_ ++ rest)) = _ := scan_space hv.lexeme
      rw [← hrest] at hscan
      rw [yylex.loop, hscan]
      exact ih fuel' last (by omega)

end koala.lexer

open scanner

namespace koala.lexer

set_option linter.style.nameCheck false

def disjoint (l l' : List UInt8) : Bool := l.all fun c => !l'.contains c

theorem not_mem_of_disjoint {l l' : List UInt8} (h : disjoint l l' = true) {c : UInt8}
    (hc : c ∈ l) : c ∉ l' := by
  simpa using List.all_eq_true.mp h c hc

/-- A word is a lexeme when no rule that can match a space starts like it. -/
theorem lexeme_of {w : List UInt8} (hne : w ≠ []) (hhead : ∀ c ∈ w.head?, c ∉ white)
    (hopens : ∀ p ∈ openers, ¬ p <+: w) : Lexeme w where
  ne := hne
  head := hhead
  opens p hp rest hprefix := by
    have hspace : ∀ p ∈ openers, space ∉ p := by decide
    rcases Nat.lt_or_ge w.length p.length with hlt | hle
    · have hw : w ++ [space] <+: w ++ space :: rest := ⟨rest, by simp⟩
      have hlonger := List.prefix_of_prefix_length_le hw hprefix (by simp; omega)
      exact hspace p hp (hlonger.subset (by simp))
    · exact hopens p hp (List.prefix_of_prefix_length_le hprefix (List.prefix_append w _) hle)

theorem lexesAs_character {c : UInt8} (hc : c ∈ characters) : LexesAs [c] ⟨c.toNat, .none⟩ where
  lexeme := by
    have hwhite : disjoint characters white = true := by decide
    have hopens : ∀ w ∈ characters.map ([·]), ∀ p ∈ openers, ¬ p <+: w := by decide
    refine lexeme_of (by simp) (fun d hd => ?_) (hopens [c] (List.mem_map_of_mem hc))
    obtain rfl : c = d := Option.some.inj hd
    exact not_mem_of_disjoint hwhite hc
  rule := ⟨[], ⟨oneOf characters, .character⟩, _, rfl, mem_oneOf.mpr ⟨c, hc, rfl⟩, by simp,
    fun _ => rfl⟩

/-- A fixed word that is not one character is read by the first rule for it. -/
theorem lexesAs_word {w : List UInt8} {p : String × Nat}
    (hfind : words.find? (fun p => text p.1 = w) = some p) (hlexeme : Lexeme w)
    (hcharacter : ∀ c ∈ characters, w ≠ [c]) : LexesAs w ⟨p.2, .none⟩ where
  lexeme := hlexeme
  rule := by
    obtain ⟨hp, first, last, hwords, hfirst⟩ := List.find?_eq_some_iff_append.mp hfind
    have hw : text p.1 = w := by simpa using hp
    refine ⟨⟨oneOf characters, .character⟩ :: first.map word_rule, word_rule p,
      last.map word_rule ++ literals ++ ident_rule :: others, ?_, mem_lit.mpr hw.symm,
      fun q hq hmatch => ?_, fun _ => rfl⟩
    · rw [rules, hwords]
      simp
    · rcases List.mem_cons.mp hq with rfl | hq
      · obtain ⟨c, hc, heq⟩ := mem_oneOf.mp hmatch
        exact hcharacter c hc heq
      · obtain ⟨v, hv, rfl⟩ := List.mem_map.mp hq
        have hne := hfirst v hv
        have heq := mem_lit.mp hmatch
        simp [heq] at hne

/-- The rules before that of identifiers. -/
def before_ident : List (Rule UInt8 Action) :=
  ⟨oneOf characters, .character⟩ :: (words.map word_rule ++ literals)

theorem head_of_mem {r : Rule UInt8 Action} (hr : r ∈ literals) {s : List UInt8}
    (hs : s ∈ r.pattern.matches') : ∀ c ∈ s.head?, c ∉ L := by
  have halphabet : disjoint (alphabet r.pattern) L = true → ∀ c ∈ s.head?, c ∉ L :=
    fun hall c hc => not_mem_of_disjoint hall (mem_alphabet hs c (List.mem_of_mem_head? hc))
  have hprefix : ∀ d, d ∉ L → [d] <+: s → ∀ c ∈ s.head?, c ∉ L := by
    rintro d hd ⟨rest, rfl⟩ c hc
    obtain rfl : d = c := Option.some.inj hc
    exact hd
  simp only [literals, List.mem_cons, List.not_mem_nil, or_false] at hr
  rcases hr with rfl | rfl | rfl | rfl | rfl | rfl
  · exact halphabet (by decide)
  · exact halphabet (by decide)
  · exact hprefix _ (by decide) (prefix_of_lit_mul hs)
  · exact halphabet (by decide)
  · exact halphabet (by decide)
  · exact hprefix _ (by decide) (prefix_of_lit_mul hs)

/-- A word whose first character belongs to a class with which no white space
and no opener starts. -/
theorem lexeme_of_first {C : List UInt8} (hwhite : disjoint C white = true)
    (hopens : ∀ p ∈ openers, p ≠ [] ∧ disjoint p.head?.toList C = true) {c : UInt8} (hc : c ∈ C)
    (cs : List UInt8) : Lexeme (c :: cs) := by
  refine lexeme_of (by simp) (fun d hd => ?_) fun p hp hprefix => ?_
  · obtain rfl : c = d := Option.some.inj hd
    exact not_mem_of_disjoint hwhite hc
  · obtain ⟨hne, hdisjoint⟩ := hopens p hp
    obtain ⟨d, ds, rfl⟩ := List.exists_cons_of_ne_nil hne
    obtain rfl := (List.cons_prefix_cons.mp hprefix).1
    exact not_mem_of_disjoint hdisjoint (by simp) hc

/-- The texts that are read as identifiers: the keywords are not. -/
structure IsIdent (w : List UInt8) : Prop where
  first : ∃ c cs, w = c :: cs ∧ c ∈ L ∧ ∀ d ∈ cs, d ∈ L ++ D
  not_word : ∀ p ∈ words, text p.1 ≠ w

theorem lexesAs_ident {w : List UInt8} (hw : IsIdent w) :
    LexesAs w ⟨YYToken.ID.number, .SVal (CString.ofData w)⟩ where
  lexeme := by
    obtain ⟨c, cs, rfl, hc, _⟩ := hw.first
    exact lexeme_of_first (by decide) (by decide) hc cs
  rule := by
    obtain ⟨c, cs, rfl, hc, hcs⟩ := hw.first
    refine ⟨before_ident, ident_rule, others, rfl, ?_, fun q hq hmatch => ?_, fun _ => rfl⟩
    · exact mem_mul.mpr ⟨[c], mem_oneOf.mpr ⟨c, hc, rfl⟩, cs, mem_star_oneOf.mpr hcs, rfl⟩
    · have hcharacters : disjoint characters L = true := by decide
      rcases List.mem_cons.mp hq with rfl | hq
      · obtain ⟨d, hd, heq⟩ := mem_oneOf.mp hmatch
        obtain rfl : c = d := (List.cons.inj heq).1
        exact not_mem_of_disjoint hcharacters hd hc
      rcases List.mem_append.mp hq with hq | hq
      · obtain ⟨p, hp, rfl⟩ := List.mem_map.mp hq
        exact hw.not_word p hp (mem_lit.mp hmatch).symm
      · exact head_of_mem hq hmatch c rfl hc

section decimal

/-- The decimal digits of a number. -/
def decimal_text (n : Nat) : List UInt8 :=
  if n < 10 then [UInt8.ofNat (0x30 + n)]
  else decimal_text (n / 10) ++ [UInt8.ofNat (0x30 + n % 10)]

theorem digit_mem {d : Nat} (hd : d < 10) : UInt8.ofNat (0x30 + d) ∈ D := by
  have hall : ∀ d < 10, UInt8.ofNat (0x30 + d) ∈ D := by decide
  exact hall d hd

theorem digit_ofNat {d : Nat} (hd : d < 10) : digit (UInt8.ofNat (0x30 + d)) = d := by
  have hall : ∀ d < 10, digit (UInt8.ofNat (0x30 + d)) = d := by decide
  exact hall d hd

theorem digits_value_decimal (n : Nat) : digits_value 10 (decimal_text n) = n := by
  induction n using Nat.strong_induction_on with
  | _ n ih =>
    rw [decimal_text]
    split
    · next hlt =>
      rw [digits_value, List.foldl_cons, List.foldl_nil, digit_ofNat hlt]
      omega
    · next hge =>
      have hquot := ih (n / 10) (by omega)
      rw [digits_value] at hquot ⊢
      rw [List.foldl_append, hquot, List.foldl_cons, List.foldl_nil, digit_ofNat (by omega)]
      omega

/-- Only the number 0 starts with the digit 0. -/
theorem decimal_text_cons (n : Nat) : ∃ c cs, decimal_text n = c :: cs ∧ (∀ d ∈ c :: cs, d ∈ D) ∧
    (n = 0 ∧ c = 0x30 ∧ cs = [] ∨ c ∈ bytes 0x31 0x39) := by
  induction n using Nat.strong_induction_on with
  | _ n ih =>
    rw [decimal_text]
    split
    · next hlt =>
      refine ⟨_, [], rfl, fun d hd => ?_, ?_⟩
      · rw [List.mem_singleton.mp hd]
        exact digit_mem hlt
      · have hall : ∀ n < 10, n = 0 ∧ UInt8.ofNat (0x30 + n) = 0x30 ∨
            UInt8.ofNat (0x30 + n) ∈ bytes 0x31 0x39 := by decide
        rcases hall n hlt with ⟨hzero, hc⟩ | hc
        · exact Or.inl ⟨hzero, hc, rfl⟩
        · exact Or.inr hc
    · next hge =>
      obtain ⟨c, cs, htext, hdigits, hfirst⟩ := ih (n / 10) (by omega)
      rw [htext]
      refine ⟨c, cs ++ [_], rfl, fun d hd => ?_, Or.inr ?_⟩
      · rw [← List.cons_append] at hd
        rcases List.mem_append.mp hd with hd | hd
        · exact hdigits d hd
        · rw [List.mem_singleton.mp hd]
          exact digit_mem (by omega)
      · rcases hfirst with ⟨hzero, _⟩ | hc
        · omega
        · exact hc

/-- A decimal number is an integer literal, whose value goes through an `int`. -/
theorem lexesAs_decimal (n : Nat) : LexesAs (decimal_text n)
    ⟨YYToken.INT_LITERAL.number, .IVal ((atoi (decimal_text n)).signExtend 64)⟩ where
  lexeme := by
    obtain ⟨c, cs, htext, hdigits, _⟩ := decimal_text_cons n
    rw [htext]
    exact lexeme_of_first (by decide) (by decide) (hdigits c (by simp)) cs
  rule := by
    obtain ⟨c, cs, htext, hdigits, hfirst⟩ := decimal_text_cons n
    rw [htext]
    refine ⟨⟨oneOf characters, .character⟩ :: words.map word_rule ++ [literals[0]], literals[1],
      literals.drop 2 ++ ident_rule :: others, by simp [rules, literals], ?_, fun q hq hmatch => ?_,
      fun _ => rfl⟩
    · refine (Language.mem_add _ _ _).mpr ?_
      rcases hfirst with ⟨_, rfl, rfl⟩ | hc
      · exact Or.inr (mem_lit.mpr rfl)
      · refine Or.inl (mem_mul.mpr ⟨[c], mem_oneOf.mpr ⟨c, hc, rfl⟩, cs, ?_, rfl⟩)
        exact mem_star_oneOf.mpr fun d hd => hdigits d (by simp [hd])
    · have hc : c ∈ D := hdigits c (by simp)
      rcases List.mem_append.mp hq with hq | hq
      · rcases List.mem_cons.mp hq with rfl | hq
        · have hcharacters : disjoint characters D = true := by decide
          obtain ⟨d, hd, heq⟩ := mem_oneOf.mp hmatch
          obtain rfl : c = d := (List.cons.inj heq).1
          exact not_mem_of_disjoint hcharacters hd hc
        · obtain ⟨p, hp, rfl⟩ := List.mem_map.mp hq
          have hwords : ∀ p ∈ words, disjoint (text p.1).head?.toList D = true := by decide
          refine not_mem_of_disjoint (hwords p hp) ?_ hc
          rw [← mem_lit.mp hmatch]
          simp
      · rw [List.mem_singleton.mp hq] at hmatch
        have hbrackets : disjoint (alphabet literals[0].pattern) D = true := by decide
        exact not_mem_of_disjoint hbrackets (mem_alphabet hmatch c (by simp)) hc

end decimal

end koala.lexer
