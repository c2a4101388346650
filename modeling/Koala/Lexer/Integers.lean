import Koala.Ast.Actions
import Koala.Lexer.Lexemes

open scanner

namespace koala.lexer

set_option linter.style.nameCheck false

/-- The rules of the integer literals. -/
def decimal_rule : Rule UInt8 Action :=
  ⟨oneOf (bytes 0x31 0x39) * (oneOf D).star + lit (text "0"), .decimal⟩

def hexadecimal_rule : Rule UInt8 Action :=
  ⟨lit (text "0") * (oneOf (text "xX") * many1 (oneOf H)), .strtoul 16⟩

def octal_rule : Rule UInt8 Action :=
  ⟨lit (text "0") * (oneOf (bytes 0x30 0x37)).star, .strtoul 8⟩

/-- A text that one of the rules of integer literals matches. -/
def IsInteger (t : List UInt8) : Prop :=
  t ∈ decimal_rule.pattern.matches' ∨ t ∈ hexadecimal_rule.pattern.matches' ∨
    t ∈ octal_rule.pattern.matches'

/-- The number that an integer literal stands for. -/
def literal_value : List UInt8 → Nat
  | 0x30 :: 0x78 :: digits => digits_value 16 digits
  | 0x30 :: 0x58 :: digits => digits_value 16 digits
  | 0x30 :: digits => digits_value 8 digits
  | digits => digits_value 10 digits

/-- The rules before those of integer literals. -/
def before_integers : List (Rule UInt8 Action) :=
  ⟨oneOf characters, .character⟩ :: (words.map word_rule ++ literals.take 1)

theorem rules_integers : rules = before_integers ++ decimal_rule :: hexadecimal_rule ::
    octal_rule :: (literals.drop 4 ++ ident_rule :: others) := by
  simp [rules, before_integers, literals, decimal_rule, hexadecimal_rule, octal_rule]

section shape

variable {t : List UInt8}

theorem mem_decimal : t ∈ decimal_rule.pattern.matches' ↔
    t = [0x30] ∨ ∃ c cs, t = c :: cs ∧ c ∈ bytes 0x31 0x39 ∧ ∀ d ∈ cs, d ∈ D := by
  constructor
  · intro h
    rcases (Language.mem_add _ _ _).mp h with h | h
    · obtain ⟨u, hu, cs, hcs, rfl⟩ := mem_mul.mp h
      obtain ⟨c, hc, rfl⟩ := mem_oneOf.mp hu
      exact Or.inr ⟨c, cs, rfl, hc, mem_star_oneOf.mp hcs⟩
    · exact Or.inl (mem_lit.mp h)
  · rintro (rfl | ⟨c, cs, rfl, hc, hcs⟩)
    · exact (Language.mem_add _ _ _).mpr (Or.inr (mem_lit.mpr rfl))
    · exact (Language.mem_add _ _ _).mpr (Or.inl
        (mem_mul.mpr ⟨[c], mem_oneOf.mpr ⟨c, hc, rfl⟩, cs, mem_star_oneOf.mpr hcs, rfl⟩))

theorem mem_hexadecimal : t ∈ hexadecimal_rule.pattern.matches' ↔
    ∃ x ds, t = 0x30 :: x :: ds ∧ x ∈ text "xX" ∧ ds ≠ [] ∧ ∀ d ∈ ds, d ∈ H := by
  constructor
  · intro h
    obtain ⟨u, hu, v, hv, rfl⟩ := mem_mul.mp h
    obtain ⟨w, hw, ds, hds, rfl⟩ := mem_mul.mp hv
    obtain ⟨x, hx, rfl⟩ := mem_oneOf.mp hw
    rw [mem_lit.mp hu]
    exact ⟨x, ds, rfl, hx, mem_many1_oneOf.mp hds⟩
  · rintro ⟨x, ds, rfl, hx, hds⟩
    exact mem_mul.mpr ⟨[0x30], mem_lit.mpr rfl, x :: ds,
      mem_mul.mpr ⟨[x], mem_oneOf.mpr ⟨x, hx, rfl⟩, ds, mem_many1_oneOf.mpr hds, rfl⟩, rfl⟩

theorem mem_octal : t ∈ octal_rule.pattern.matches' ↔
    ∃ ds, t = 0x30 :: ds ∧ ∀ d ∈ ds, d ∈ bytes 0x30 0x37 := by
  constructor
  · intro h
    obtain ⟨u, hu, ds, hds, rfl⟩ := mem_mul.mp h
    rw [mem_lit.mp hu]
    exact ⟨ds, rfl, mem_star_oneOf.mp hds⟩
  · rintro ⟨ds, rfl, hds⟩
    exact mem_mul.mpr ⟨[0x30], mem_lit.mpr rfl, ds, mem_star_oneOf.mpr hds, rfl⟩

theorem IsInteger.head (h : IsInteger t) : ∃ c cs, t = c :: cs ∧ c ∈ D := by
  have hdigits : ∀ c ∈ bytes 0x31 0x39, c ∈ D := forall_of_all (by decide)
  rcases h with h | h | h
  · rcases mem_decimal.mp h with rfl | ⟨c, cs, rfl, hc, -⟩
    · exact ⟨_, _, rfl, by decide⟩
    · exact ⟨c, cs, rfl, hdigits c hc⟩
  · obtain ⟨x, ds, rfl, -⟩ := mem_hexadecimal.mp h
    exact ⟨_, _, rfl, by decide⟩
  · obtain ⟨ds, rfl, -⟩ := mem_octal.mp h
    exact ⟨_, _, rfl, by decide⟩

/-- No rule before those of integer literals matches what starts with a digit. -/
theorem not_before_integers {c : UInt8} (hc : c ∈ D) (cs : List UInt8) {q : Rule UInt8 Action}
    (hq : q ∈ before_integers) : c :: cs ∉ q.pattern.matches' := by
  intro hmatch
  rcases List.mem_cons.mp hq with rfl | hq
  · have hcharacters : disjoint characters D = true := by decide
    obtain ⟨d, hd, heq⟩ := mem_oneOf.mp hmatch
    obtain rfl : c = d := (List.cons.inj heq).1
    exact not_mem_of_disjoint hcharacters hd hc
  rcases List.mem_append.mp hq with hq | hq
  · obtain ⟨p, hp, rfl⟩ := List.mem_map.mp hq
    have hwords : ∀ p ∈ words, disjoint (text p.1).head?.toList D = true := by decide
    refine not_mem_of_disjoint (hwords p hp) ?_ hc
    rw [← mem_lit.mp hmatch]
    simp
  · simp only [literals, List.take_succ_cons, List.take_zero, List.mem_singleton] at hq
    rw [hq] at hmatch
    have hbrackets : disjoint (alphabet (many1 (lit (text "[]")))) D = true := by decide
    exact not_mem_of_disjoint hbrackets (mem_alphabet hmatch c (by simp)) hc

/-- The rule that a whole match of an integer literal is read by. -/
theorem scan_integer {rest : List UInt8} {action : Action} (ht : IsInteger t)
    (hscan : scan rules (t ++ rest) = some (action, t.length)) :
    (t ∈ decimal_rule.pattern.matches' ∧ action = .decimal) ∨
      (t ∈ hexadecimal_rule.pattern.matches' ∧ action = .strtoul 16) ∨
        (t ∈ octal_rule.pattern.matches' ∧ t ∉ decimal_rule.pattern.matches' ∧
          action = .strtoul 8) := by
  obtain ⟨hpos, hle, hlonger, -⟩ := of_scan hscan
  obtain ⟨c, cs, hcons, hc⟩ := ht.head
  have htake : (t ++ rest).take t.length = t := List.take_left
  have hchosen : ∀ before r after, rules = before ++ r :: after → t ∈ r.pattern.matches' →
      (∀ q ∈ before, t ∉ q.pattern.matches') → action = r.action := by
    intro before r after hrules hmatch hbefore
    rw [hrules] at hscan hlonger
    have hr := scan_eq hpos hle (by rwa [htake]) hlonger (by rwa [htake])
    rw [hscan] at hr
    cases hr
    rfl
  have hfirst : ∀ q ∈ before_integers, t ∉ q.pattern.matches' := by
    intro q hq
    rw [hcons]
    exact not_before_integers hc cs hq
  by_cases hdecimal : t ∈ decimal_rule.pattern.matches'
  · exact Or.inl ⟨hdecimal, hchosen _ _ _ rules_integers hdecimal hfirst⟩
  · by_cases hhexadecimal : t ∈ hexadecimal_rule.pattern.matches'
    · refine Or.inr (Or.inl ⟨hhexadecimal, hchosen (before_integers ++ [decimal_rule]) _ _
        (by rw [rules_integers, List.append_assoc]; rfl) hhexadecimal ?_⟩)
      exact List.forall_mem_append.mpr ⟨hfirst, List.forall_mem_singleton.mpr hdecimal⟩
    · have hoctal := (ht.resolve_left hdecimal).resolve_left hhexadecimal
      refine Or.inr (Or.inr ⟨hoctal, hdecimal, hchosen
        (before_integers ++ [decimal_rule, hexadecimal_rule]) _ _
        (by rw [rules_integers, List.append_assoc]; rfl) hoctal ?_⟩)
      refine List.forall_mem_append.mpr ⟨hfirst, List.forall_mem_cons.mpr ⟨hdecimal, ?_⟩⟩
      exact List.forall_mem_singleton.mpr hhexadecimal

end shape

section value

variable {t : List UInt8}

theorem literal_value_decimal (h : t ∈ decimal_rule.pattern.matches') :
    literal_value t = digits_value 10 t := by
  rcases mem_decimal.mp h with rfl | ⟨c, cs, rfl, hc, -⟩
  · rfl
  · have hne : ∀ c ∈ bytes 0x31 0x39, c ≠ 0x30 := forall_of_all (by decide)
    unfold literal_value
    split
    · next heq => exact absurd (List.cons.inj heq).1 (hne c hc)
    · next heq => exact absurd (List.cons.inj heq).1 (hne c hc)
    · next heq => exact absurd (List.cons.inj heq).1 (hne c hc)
    · rfl

theorem literal_value_octal (h : t ∈ octal_rule.pattern.matches') :
    literal_value t = digits_value 8 t := by
  obtain ⟨ds, rfl, hds⟩ := mem_octal.mp h
  have hne : ∀ c ∈ bytes 0x30 0x37, c ≠ 0x78 ∧ c ≠ 0x58 := forall_of_all (by decide)
  unfold literal_value
  split
  · next heq =>
    cases heq
    exact absurd rfl (hne _ (hds _ List.mem_cons_self)).1
  · next heq =>
    cases heq
    exact absurd rfl (hne _ (hds _ List.mem_cons_self)).2
  · next heq =>
    cases heq
    rfl
  · next hother => exact absurd rfl (hother ds)

theorem literal_value_hexadecimal (h : t ∈ hexadecimal_rule.pattern.matches') :
    literal_value t = digits_value 16 (t.drop 2) := by
  obtain ⟨x, ds, rfl, hx, -⟩ := mem_hexadecimal.mp h
  have hcases : ∀ x ∈ text "xX", x = 0x78 ∨ x = 0x58 := forall_of_all (by decide)
  rcases hcases x hx with rfl | rfl <;> rfl

theorem toInt_strtoul {base : Nat} (hlt : digits_value base t < 2 ^ 63) :
    (strtoul t base).toInt = digits_value base t := by
  have hnat : (strtoul t base).toNat = digits_value base t := by
    rw [strtoul, BitVec.toNat_ofNat, Nat.min_eq_left (by omega), Nat.mod_eq_of_lt (by omega)]
  rw [BitVec.toInt_eq_toNat_of_lt (by omega), hnat]

/-- The `int` has the value exactly where there are no more than 31 bits. -/
theorem toInt_atoi_iff (hlt : digits_value 10 t < 2 ^ 63) :
    ((atoi t).signExtend 64).toInt = digits_value 10 t ↔ digits_value 10 t < 2 ^ 31 := by
  rw [BitVec.toInt_signExtend_of_le (by decide), atoi, Nat.min_eq_left (by omega),
    BitVec.toInt_eq_toNat_bmod, BitVec.toNat_ofNat, Int.bmod_def]
  split <;> omega

/-- The value of a constant expression of the kind `BASE_INT`. -/
def constant_ival : ast.Expr → Option Int
  | .CONST _ (.BASE_INT v) => some v.toInt
  | _ => none

/-- The token of an integer literal, and the expression that is built from it, have
the value of the literal if and only if it is not a decimal one of 2³¹ or more. -/
theorem ival_exact_iff {rest : List UInt8} {action : Action} (lastToken : Nat)
    (pos : parser.Position) (st : ast.State) (ht : IsInteger t)
    (hlt : literal_value t < 2 ^ 63)
    (hscan : scan rules (t ++ rest) = some (action, t.length)) :
    (∃ v, action.run lastToken t = some (some ⟨YYToken.INT_LITERAL.number, .IVal v⟩) ∧
      v.toInt = literal_value t ∧
        constant_ival (ast.Expr_From_Const pos (.BASE_INT v) st).1 = some (literal_value t : Int)) ↔
      (t ∈ decimal_rule.pattern.matches' → literal_value t < 2 ^ 31) := by
  have hvalue : ∀ v, action.run lastToken t = some (some ⟨YYToken.INT_LITERAL.number, .IVal v⟩) →
      ((∃ v, action.run lastToken t = some (some ⟨YYToken.INT_LITERAL.number, .IVal v⟩) ∧
        v.toInt = literal_value t ∧
          constant_ival (ast.Expr_From_Const pos (.BASE_INT v) st).1 = some (literal_value t : Int)) ↔
        v.toInt = literal_value t) := by
    intro v hrun
    constructor
    · rintro ⟨w, hw, hexact, -⟩
      cases hrun.symm.trans hw
      exact hexact
    · intro hexact
      exact ⟨v, hrun, hexact, congrArg some hexact⟩
  rcases scan_integer ht hscan with ⟨hdecimal, rfl⟩ | ⟨hhexadecimal, rfl⟩ | ⟨hoctal, hnot, rfl⟩
  · rw [hvalue _ rfl]
    rw [literal_value_decimal hdecimal] at hlt ⊢
    rw [toInt_atoi_iff hlt]
    exact ⟨fun h _ => h, fun h => h hdecimal⟩
  · rw [hvalue _ rfl]
    rw [literal_value_hexadecimal hhexadecimal] at hlt ⊢
    have hnot : t ∉ decimal_rule.pattern.matches' := by
      intro hdecimal
      obtain ⟨x, ds, rfl, hx, -⟩ := mem_hexadecimal.mp hhexadecimal
      have hxs : ∀ x ∈ text "xX", x ∉ D := forall_of_all (by decide)
      rcases mem_decimal.mp hdecimal with heq | ⟨c, cs, heq, hc, hcs⟩
      · cases heq
      · cases heq
        exact hxs x hx (hcs x List.mem_cons_self)
    exact ⟨fun _ hdecimal => absurd hdecimal hnot, fun _ => toInt_strtoul hlt⟩
  · rw [hvalue _ rfl]
    rw [literal_value_octal hoctal] at hlt ⊢
    exact ⟨fun _ hdecimal => absurd hdecimal hnot, fun _ => toInt_strtoul hlt⟩

theorem mem_decimal_text (n : Nat) : decimal_text n ∈ decimal_rule.pattern.matches' := by
  obtain ⟨c, cs, htext, hdigits, hfirst⟩ := decimal_text_cons n
  rw [htext]
  refine mem_decimal.mpr ?_
  rcases hfirst with ⟨-, rfl, rfl⟩ | hc
  · exact Or.inl rfl
  · exact Or.inr ⟨c, cs, rfl, hc, fun d hd => hdigits d (List.mem_cons_of_mem _ hd)⟩

theorem literal_value_decimal_text (n : Nat) : literal_value (decimal_text n) = n :=
  (literal_value_decimal (mem_decimal_text n)).trans (digits_value_decimal n)

theorem ival_exact_iff_7 : ∃ (action : Action) (v : BitVec 64), action.run 0 (decimal_text 7) =
    some (some ⟨YYToken.INT_LITERAL.number, .IVal v⟩) ∧ v.toInt = literal_value (decimal_text 7) := by
  obtain ⟨action, hscan, -⟩ := (lexesAs_decimal 7).scan (Or.inl rfl)
  have hvalue := literal_value_decimal_text 7
  obtain ⟨v, hrun, hexact, -⟩ := (ival_exact_iff 0 ⟨1, 1⟩ ⟨⟨0, [], []⟩, []⟩
    (Or.inl (mem_decimal_text 7)) (by omega) hscan).mpr fun _ => by omega
  exact ⟨action, v, hrun, hexact⟩

/-- The literal `2147483648` is read as its negative. -/
theorem ival_not_exact : ∃ action : Action, IsInteger (decimal_text 2147483648) ∧
    literal_value (decimal_text 2147483648) = 2147483648 ∧
    scan rules (decimal_text 2147483648 ++ []) =
      some (action, (decimal_text 2147483648).length) ∧
    action.run 0 (decimal_text 2147483648) =
      some (some ⟨YYToken.INT_LITERAL.number, .IVal (BitVec.ofInt 64 (-2147483648))⟩) := by
  obtain ⟨action, hscan, hrun⟩ := (lexesAs_decimal 2147483648).scan (Or.inl rfl)
  refine ⟨action, Or.inl (mem_decimal_text _), literal_value_decimal_text _, hscan, ?_⟩
  rw [hrun, atoi, digits_value_decimal]
  decide

end value

end koala.lexer
