import Koala.Lexer.Rules
import Mathlib.Data.List.DropRight

open koala.lexer (digits_value)

namespace koala.stringex

set_option linter.style.nameCheck false

/-- `isspace` of the C locale. -/
def isspace (c : UInt8) : Bool := (9 ≤ c && c ≤ 13) || c = 32

/-- The loop that trims trailing space, on the reversed string; the first character
is not looked at. -/
def trim_tail : List UInt8 → List UInt8
  | [] => []
  | [c] => [c]
  | c :: d :: cs => if isspace c then trim_tail (d :: cs) else c :: d :: cs

def string_trim (str : List UInt8) : List UInt8 :=
  match str.dropWhile isspace with
  | [] => []
  | c :: cs => (trim_tail (c :: cs).reverse).reverse

/-- The digits of a base, as the C standard has them. -/
def is_digit (base : Nat) (c : UInt8) : Bool :=
  if base = 16 then
    (0x30 ≤ c && c ≤ 0x39) || (0x61 ≤ c && c ≤ 0x66) || (0x41 ≤ c && c ≤ 0x46)
  else 0x30 ≤ c && c.toNat < 0x30 + base

/-- The prefix of hexadecimal numbers, where a digit follows. -/
def skip_prefix : List UInt8 → List UInt8
  | 0x30 :: x :: d :: cs =>
    if (x = 0x78 ∨ x = 0x58) ∧ is_digit 16 d = true then d :: cs else 0x30 :: x :: d :: cs
  | s => s

/-- `strtoll` of the C standard; the result is cut to the range of an `int64`. -/
def strtoll (str : List UInt8) (base : Nat) : Int :=
  let s := str.dropWhile isspace
  let negative := s.head? = some 0x2d
  let s := if s.head? = some 0x2d ∨ s.head? = some 0x2b then s.tail else s
  let s := if base = 16 then skip_prefix s else s
  let value : Int := digits_value base (s.takeWhile (is_digit base))
  if negative then max (-value) (-2 ^ 63) else min value (2 ^ 63 - 1)

/-- What the loop over hexadecimal digits accepts. -/
def hex_char (ch : UInt8) : Bool :=
  (0x30 ≤ ch && ch ≤ 0x39) || (0x61 ≤ ch && ch ≤ 0x66) || (0x41 ≤ ch && ch < 0x46)

def octal_char (ch : UInt8) : Bool := 0x30 ≤ ch && ch ≤ 0x37

def decimal_char (ch : UInt8) : Bool := 0x30 ≤ ch && ch ≤ 0x39

/-- A character of a string with its NUL. -/
def get (str : List UInt8) (i : Nat) : Res UInt8 :=
  match (str ++ [0])[i]? with
  | some ch => .ok ch
  | none => .error .bounds

/-- The result, and what `*rval` is after it. -/
def string_to_int64 (str : CString) (rval : Int) : Res (Int × Int) := do
  let str := string_trim str.bytes
  let ch ← get str 0
  let ch1 ← get str 1
  if ch = 0x30 ∧ (ch1 = 0x78 ∨ ch1 = 0x58) then
    if (str.drop 2).all hex_char then .ok (0, strtoll str 16) else .ok (-1, rval)
  else if ch = 0x30 then
    if (str.drop 1).all octal_char then .ok (0, strtoll str 8) else .ok (-1, rval)
  else if str.all decimal_char then .ok (0, strtoll str 10) else .ok (-1, rval)

/-- A string without the white space around it. -/
def trimmed (str : List UInt8) : List UInt8 := (str.dropWhile isspace).rdropWhile isspace

/-- The number that an integer literal stands for. -/
def literal : List UInt8 → Option Nat
  | [] => none
  | [c] => if is_digit 10 c then some (digits_value 10 [c]) else none
  | c :: x :: ds =>
    if c = 0x30 then
      if x = 0x78 ∨ x = 0x58 then
        if ds ≠ [] ∧ ds.all (is_digit 16) = true then some (digits_value 16 ds) else none
      else if (x :: ds).all (is_digit 8) then some (digits_value 8 (x :: ds)) else none
    else if (c :: x :: ds).all (is_digit 10) then some (digits_value 10 (c :: x :: ds)) else none

/-- The string is converted if it is an integer literal whose value is an `int64`,
and otherwise rejected. -/
def Exact (str : CString) (rval : Int) : Prop :=
  string_to_int64 str rval =
    match literal (trimmed str.bytes) with
    | none => .ok (-1, rval)
    | some v => if v < 2 ^ 63 then .ok (0, (v : Int)) else .ok (-1, rval)

section trim

theorem trim_tail_eq {c : UInt8} (hc : isspace c = false) (cs : List UInt8) :
    trim_tail (cs ++ [c]) = (cs ++ [c]).dropWhile isspace := by
  induction cs with
  | nil => rw [List.nil_append, trim_tail, List.dropWhile_cons_of_neg (by simp [hc])]
  | cons d cs ih =>
    obtain ⟨e, es, heq⟩ := List.exists_cons_of_ne_nil (List.append_ne_nil_of_right_ne_nil cs
      (List.cons_ne_nil c []))
    rw [List.cons_append]
    rw [heq] at ih ⊢
    rw [trim_tail]
    split
    · next hd => rw [ih, List.dropWhile_cons_of_pos hd]
    · next hd => rw [List.dropWhile_cons_of_neg hd]

theorem head_of_dropWhile {str cs : List UInt8} {c : UInt8}
    (hdrop : str.dropWhile isspace = c :: cs) : isspace c = false := by
  have hhead := List.head?_dropWhile_not isspace str
  rw [hdrop] at hhead
  exact hhead

theorem string_trim_eq (str : List UInt8) : string_trim str = trimmed str := by
  unfold string_trim trimmed
  cases hdrop : str.dropWhile isspace with
  | nil => rfl
  | cons c cs =>
    have hc : isspace c = false := head_of_dropWhile hdrop
    dsimp only
    rw [List.reverse_cons, trim_tail_eq hc, List.rdropWhile, List.reverse_cons]

/-- What is trimmed starts with no space. -/
theorem trimmed_head (str : List UInt8) : ∀ c ∈ (trimmed str).head?, isspace c = false := by
  intro c hc
  unfold trimmed at hc
  cases hdrop : str.dropWhile isspace with
  | nil =>
    rw [hdrop] at hc
    cases hc
  | cons d ds =>
    have hd : isspace d = false := head_of_dropWhile hdrop
    rw [hdrop] at hc
    have hprefix := List.rdropWhile_prefix isspace (d :: ds)
    obtain ⟨rest, hrest⟩ := hprefix
    obtain ⟨cs, hcs⟩ := List.head?_eq_some_iff.mp hc
    rw [hcs] at hrest
    rw [(List.cons.inj hrest).1]
    exact hd

end trim

section digits

variable {c : UInt8} {t ds : List UInt8}

theorem decimal_char_eq : decimal_char = is_digit 10 := by
  funext c
  simp only [decimal_char, is_digit, UInt8.le_iff_toNat_le, UInt8.reduceToNat]
  congr 1
  exact decide_eq_decide.mpr Nat.lt_succ_iff.symm

theorem octal_char_eq : octal_char = is_digit 8 := by
  funext c
  simp only [octal_char, is_digit, UInt8.le_iff_toNat_le, UInt8.reduceToNat]
  congr 1
  exact decide_eq_decide.mpr Nat.lt_succ_iff.symm

/-- The loop does not accept the last digit. -/
theorem hex_char_iff : hex_char c = true ↔ is_digit 16 c = true ∧ c ≠ 0x46 := by
  simp only [hex_char, is_digit, if_true, Bool.or_eq_true, Bool.and_eq_true, decide_eq_true_eq,
    UInt8.le_iff_toNat_le, UInt8.lt_iff_toNat_lt, UInt8.reduceToNat, Ne, ← UInt8.toNat_inj]
  omega

theorem all_hex_char : ds.all hex_char = true ↔ ds.all (is_digit 16) = true ∧ 0x46 ∉ ds := by
  rw [List.all_eq_true, List.all_eq_true]
  constructor
  · intro h
    exact ⟨fun d hd => (hex_char_iff.mp (h d hd)).1, fun hmem => (hex_char_iff.mp (h _ hmem)).2 rfl⟩
  · rintro ⟨h, hnot⟩ d hd
    refine hex_char_iff.mpr ⟨h d hd, ?_⟩
    rintro rfl
    exact hnot hd

/-- A digit is no space and no sign. -/
theorem digit_plain {base : Nat} (hbase : base = 8 ∨ base = 10 ∨ base = 16)
    (hc : is_digit base c = true) : isspace c = false ∧ c ≠ 0x2d ∧ c ≠ 0x2b := by
  have hge : 0x30 ≤ c.toNat := by
    rcases hbase with rfl | rfl | rfl <;>
      simp only [is_digit, if_true, Nat.reduceEqDiff, if_false, Bool.or_eq_true, Bool.and_eq_true,
        decide_eq_true_eq, UInt8.le_iff_toNat_le, UInt8.reduceToNat] at hc <;>
      omega
  refine ⟨?_, ?_, ?_⟩
  · by_contra hspace
    rw [Bool.not_eq_false] at hspace
    simp only [isspace, Bool.or_eq_true, Bool.and_eq_true, decide_eq_true_eq,
      UInt8.le_iff_toNat_le, UInt8.reduceToNat, ← UInt8.toNat_inj] at hspace
    omega
  · rintro rfl
    exact absurd hge (by decide)
  · rintro rfl
    exact absurd hge (by decide)

/-- What starts with a digit is converted without a sign. -/
theorem strtoll_digit {base : Nat} (hbase : base = 8 ∨ base = 10 ∨ base = 16)
    (hc : is_digit base c = true) (cs : List UInt8) : strtoll (c :: cs) base =
      min (digits_value base ((if base = 16 then skip_prefix (c :: cs) else c :: cs).takeWhile
        (is_digit base)) : Int) (2 ^ 63 - 1) := by
  obtain ⟨hspace, hminus, hplus⟩ := digit_plain hbase hc
  unfold strtoll
  rw [List.dropWhile_cons_of_neg (by rw [hspace]; exact Bool.false_ne_true)]
  simp [hminus, hplus]

theorem takeWhile_digits {base : Nat} (h : t.all (is_digit base) = true) :
    t.takeWhile (is_digit base) = t :=
  List.takeWhile_eq_self_iff.mpr (List.all_eq_true.mp h)

theorem strtoll_digits {base : Nat} (hbase : base = 8 ∨ base = 10) (cs : List UInt8)
    (h : (c :: cs).all (is_digit base) = true) :
    strtoll (c :: cs) base = min (digits_value base (c :: cs) : Int) (2 ^ 63 - 1) := by
  have hc : is_digit base c = true := List.all_eq_true.mp h c List.mem_cons_self
  have hne : base ≠ 16 := by omega
  rw [strtoll_digit (by omega) hc, if_neg hne, takeWhile_digits h]

theorem strtoll_prefix {x d : UInt8} (hx : x = 0x78 ∨ x = 0x58)
    (h : (d :: ds).all (is_digit 16) = true) :
    strtoll (0x30 :: x :: d :: ds) 16 = min (digits_value 16 (d :: ds) : Int) (2 ^ 63 - 1) := by
  have hd : is_digit 16 d = true := List.all_eq_true.mp h d List.mem_cons_self
  rw [strtoll_digit (by decide) (by decide), if_pos rfl, skip_prefix, if_pos ⟨hx, hd⟩,
    takeWhile_digits h]

theorem strtoll_bare {x : UInt8} (hx : x = 0x78 ∨ x = 0x58) : strtoll [0x30, x] 16 = 0 := by
  rcases hx with rfl | rfl <;> decide

/-- Octal and decimal digits are none of the last hexadecimal digit. -/
theorem not_mem_digits {base : Nat} (hbase : base = 8 ∨ base = 10)
    (h : t.all (is_digit base) = true) : (0x46 : UInt8) ∉ t := by
  intro hmem
  have hdigit := List.all_eq_true.mp h _ hmem
  rcases hbase with rfl | rfl
  · exact absurd hdigit (by decide)
  · exact absurd hdigit (by decide)

end digits

section convert

variable {str : CString} {rval : Int}

/-- What the code does with a trimmed string: the number of a literal without the
last hexadecimal digit, up to the greatest `int64`. -/
def converted (t : List UInt8) (rval : Int) : Int × Int :=
  match literal t with
  | none => (-1, rval)
  | some v => if 0x46 ∈ t then (-1, rval) else (0, min (v : Int) (2 ^ 63 - 1))

theorem get_nil : get [] 1 = .error .bounds := rfl

/-- Neither empty nor a prefix alone. -/
def Readable (t : List UInt8) : Prop := t ≠ [] ∧ t ≠ [0x30, 0x78] ∧ t ≠ [0x30, 0x58]

theorem convert_decimal {c : UInt8} {cs : List UInt8} (hliteral : literal (c :: cs) =
    if (c :: cs).all (is_digit 10) then some (digits_value 10 (c :: cs)) else none) :
    (if (c :: cs).all decimal_char then .ok (0, strtoll (c :: cs) 10) else .ok (-1, rval)) =
      (.ok (converted (c :: cs) rval) : Res (Int × Int)) := by
  rw [decimal_char_eq, converted, hliteral]
  split
  · next hall =>
    dsimp only
    rw [if_neg (not_mem_digits (Or.inr rfl) hall), strtoll_digits (Or.inr rfl) cs hall]
  · rfl

/-- A string that is neither empty nor a prefix alone is converted. -/
theorem string_to_int64_eq (hread : Readable (trimmed str.bytes)) :
    string_to_int64 str rval = .ok (converted (trimmed str.bytes) rval) := by
  unfold string_to_int64
  rw [string_trim_eq]
  generalize trimmed str.bytes = t at hread
  obtain ⟨hne, hlower, hupper⟩ := hread
  cases t with
  | nil => exact absurd rfl hne
  | cons c cs =>
    cases cs with
    | nil =>
      have hget : get [c] 0 = .ok c ∧ get [c] 1 = .ok 0 := ⟨rfl, rfl⟩
      dsimp only
      rw [hget.1, hget.2, ok_bind, ok_bind, if_neg fun h => absurd h.2 (by decide)]
      by_cases hc : c = 0x30
      · subst hc
        rfl
      · rw [if_neg hc]
        refine convert_decimal ?_
        rw [literal, List.all_cons, List.all_nil, Bool.and_true]
    | cons x ds =>
      have hget : get (c :: x :: ds) 0 = .ok c ∧ get (c :: x :: ds) 1 = .ok x := ⟨rfl, rfl⟩
      dsimp only
      rw [hget.1, hget.2, ok_bind, ok_bind]
      by_cases hc : c = 0x30
      · subst hc
        by_cases hx : x = 0x78 ∨ x = 0x58
        · have hds : ds ≠ [] := by
            rintro rfl
            rcases hx with rfl | rfl
            · exact hlower rfl
            · exact hupper rfl
          rw [if_pos ⟨rfl, hx⟩, converted, literal, if_pos rfl, if_pos hx, List.drop_succ_cons,
            List.drop_succ_cons, List.drop_zero]
          have hmem : (0x46 : UInt8) ∈ 0x30 :: x :: ds ↔ 0x46 ∈ ds := by
            have hfirst : (0x46 : UInt8) ≠ 0x30 := by decide
            have hsecond : (0x46 : UInt8) ≠ x := by rcases hx with rfl | rfl <;> decide
            rw [List.mem_cons, List.mem_cons, or_iff_right hfirst, or_iff_right hsecond]
          by_cases hall : ds.all (is_digit 16) = true
          · rw [if_pos (show ds ≠ [] ∧ ds.all (is_digit 16) = true from ⟨hds, hall⟩)]
            dsimp only
            by_cases hlast : (0x46 : UInt8) ∈ ds
            · rw [if_pos (hmem.mpr hlast), if_neg fun h => (all_hex_char.mp h).2 hlast]
            · obtain ⟨d, ds, rfl⟩ := List.exists_cons_of_ne_nil hds
              rw [if_neg fun h => hlast (hmem.mp h), if_pos (all_hex_char.mpr ⟨hall, hlast⟩),
                strtoll_prefix hx hall]
          · rw [if_neg fun h => hall (all_hex_char.mp h).1, if_neg fun h => hall h.2]
        · rw [if_neg fun h => hx h.2, if_pos rfl, converted, literal, if_pos rfl, if_neg hx,
            List.drop_succ_cons, List.drop_zero, octal_char_eq]
          split
          · next hall =>
            have hwhole : (0x30 :: x :: ds).all (is_digit 8) = true := by
              rw [List.all_cons, hall]
              rfl
            dsimp only
            rw [if_neg (not_mem_digits (Or.inl rfl) hwhole), strtoll_digits (Or.inl rfl) _ hwhole]
            rfl
          · rfl
      · rw [if_neg fun h => hc h.1, if_neg hc]
        refine convert_decimal ?_
        rw [literal, if_neg hc]

/-- The result is exact if and only if the string is neither empty nor a prefix
alone, and a literal has the last hexadecimal digit exactly where its value is no
`int64`. -/
theorem string_to_int64_iff (str : CString) (rval : Int) : Exact str rval ↔
    Readable (trimmed str.bytes) ∧
      ∀ v, literal (trimmed str.bytes) = some v → (v < 2 ^ 63 ↔ 0x46 ∉ trimmed str.bytes) := by
  by_cases hread : Readable (trimmed str.bytes)
  · unfold Exact
    rw [string_to_int64_eq hread, converted]
    cases literal (trimmed str.bytes) with
    | none => exact iff_of_true rfl ⟨hread, nofun⟩
    | some v =>
      simp only [Option.some.injEq, forall_eq', hread, true_and]
      by_cases hlast : (0x46 : UInt8) ∈ trimmed str.bytes
      · rw [if_pos hlast]
        by_cases hlt : v < 2 ^ 63
        · rw [if_pos hlt]
          exact iff_of_false (by simp) fun h => h.mp hlt hlast
        · rw [if_neg hlt]
          exact iff_of_true rfl (iff_of_false hlt (not_not_intro hlast))
      · rw [if_neg hlast]
        by_cases hlt : v < 2 ^ 63
        · rw [if_pos hlt, min_eq_left (by omega)]
          exact iff_of_true rfl (iff_of_true hlt hlast)
        · rw [if_neg hlt]
          exact iff_of_false (by simp) fun h => hlt (h.mpr hlast)
  · refine iff_of_false (fun hexact => hread ?_) fun h => hread h.1
    unfold Exact string_to_int64 at hexact
    rw [string_trim_eq] at hexact
    refine ⟨fun heq => ?_, fun heq => ?_, fun heq => ?_⟩
    · rw [heq] at hexact
      cases hexact
    · rw [heq] at hexact
      cases hexact
    · rw [heq] at hexact
      cases hexact

/-- The string `0xF`. -/
def last_digit : CString := ⟨[0x30, 0x78, 0x46], by decide⟩

def empty : CString := ⟨[], by decide⟩

def bare_prefix : CString := ⟨[0x30, 0x78], by decide⟩

/-- The digits of 2⁶³. -/
def too_great : CString := ⟨[0x39, 0x32, 0x32, 0x33, 0x33, 0x37, 0x32, 0x30, 0x33, 0x36, 0x38, 0x35,
  0x34, 0x37, 0x37, 0x35, 0x38, 0x30, 0x38], by decide⟩

/-- `0xF` is rejected, a prefix alone and 2⁶³ are converted, and for an empty string
the character after its NUL is read. -/
theorem not_exact : string_to_int64 last_digit 5 = .ok (-1, 5) ∧ ¬ Exact last_digit 5 ∧
    string_to_int64 bare_prefix 5 = .ok (0, 0) ∧ ¬ Exact bare_prefix 5 ∧
    string_to_int64 too_great 5 = .ok (0, 2 ^ 63 - 1) ∧ ¬ Exact too_great 5 ∧
    string_to_int64 empty 5 = .error .bounds ∧ ¬ Exact empty 5 := by
  refine ⟨by decide, ?_, by decide, ?_, by decide, ?_, by decide, ?_⟩ <;>
    · unfold Exact
      decide

end convert

end koala.stringex
