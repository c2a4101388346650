import Koala.Parser.Symbol
import Mathlib.Data.List.Basic

open koala.parser (Position)

namespace koala.lexer

set_option linter.style.nameCheck false

def LINE_MAX_LEN : Nat := 256

/-- The cached line, how long it is and how much of it is left, with the length
and the position of the token and the last position of the line before. -/
structure LineBuffer where
  buf : List UInt8
  linelen : Nat
  lineleft : Nat
  len : Nat
  pos : Position
  lastpos : Position

/-- What `fgets` reads, at most `n` bytes, and what it leaves. -/
def fgets : Nat → List UInt8 → List UInt8 × List UInt8
  | 0, file => ([], file)
  | _ + 1, [] => ([], [])
  | n + 1, c :: file =>
    if c = 0x0a then ([c], file) else (c :: (fgets n file).1, (fgets n file).2)

/-- The bytes that are put into the buffer, which are none at the end of the file;
the line after it, and what is left of the file. -/
def Lexer_DoYYInput (linebuf : LineBuffer) (size : Nat) (file : List UInt8) :
    List UInt8 × LineBuffer × List UInt8 :=
  if linebuf.lineleft = 0 then
    if file = [] then ([], linebuf, [])
    else
      let ⟨buf, file⟩ := fgets (LINE_MAX_LEN - 1) file
      let linelen := (buf.takeWhile (· ≠ 0)).length
      let lastpos := ⟨linebuf.pos.row, linebuf.pos.col + linebuf.len⟩
      let sz := min linelen size
      (buf.take sz, ⟨buf, linelen, linelen - sz, 0, ⟨linebuf.pos.row + 1, 0⟩, lastpos⟩, file)
  else
    let sz := min linebuf.lineleft size
    (linebuf.buf.take sz, { linebuf with lineleft := linebuf.lineleft - sz }, file)

/-- What is delivered by the calls from number `i` on, up to that which delivers
nothing. -/
def delivered (sizes : Nat → Nat) : Nat → Nat → LineBuffer → List UInt8 → Option (List UInt8)
  | 0, _, _, _ => none
  | fuel + 1, i, linebuf, file =>
    match Lexer_DoYYInput linebuf (sizes i) file with
    | ⟨[], _, _⟩ => some []
    | ⟨c :: cs, linebuf, file⟩ =>
      (delivered sizes fuel (i + 1) linebuf file).map (c :: cs ++ ·)

/-- The parser's buffer before the first call. -/
def new_line : LineBuffer := ⟨[], 0, 0, 0, ⟨0, 0⟩, ⟨0, 0⟩⟩

/-- The calls end, and deliver the text. -/
def SeesWhole (sizes : Nat → Nat) (text : List UInt8) : Prop :=
  ∃ fuel, delivered sizes fuel 0 new_line text = some text

section fgets

variable {n : Nat} {file : List UInt8}

theorem fgets_append (n : Nat) (file : List UInt8) : (fgets n file).1 ++ (fgets n file).2 = file := by
  induction n generalizing file with
  | zero => rfl
  | succ n ih =>
    cases file with
    | nil => rfl
    | cons c file =>
      rw [fgets]
      split
      · rfl
      · exact congrArg (c :: ·) (ih file)

theorem fgets_ne_nil (hfile : file ≠ []) : (fgets (n + 1) file).1 ≠ [] := by
  obtain ⟨c, file, rfl⟩ := List.exists_cons_of_ne_nil hfile
  rw [fgets]
  split <;> exact List.cons_ne_nil _ _

theorem fgets_length (n : Nat) (file : List UInt8) :
    (fgets n file).1.length + (fgets n file).2.length = file.length := by
  rw [← List.length_append, fgets_append]

theorem fgets_rest_lt (hfile : file ≠ []) : (fgets (n + 1) file).2.length < file.length := by
  have hlen := fgets_length (n + 1) file
  have hpos := List.length_pos_iff.mpr (fgets_ne_nil (n := n) hfile)
  omega

end fgets

/-- The lengths of the pieces that `n` bytes are cut into from call `i` on. -/
def cut (sizes : Nat → Nat) (i n : Nat) : List Nat :=
  if _h : n = 0 ∨ sizes i = 0 then []
  else min n (sizes i) :: cut sizes (i + 1) (n - min n (sizes i))
termination_by n
decreasing_by omega

/-- Each of the pieces that start at byte `k` of a line is what the line starts with. -/
def Repeats (line : List UInt8) : Nat → List Nat → Prop
  | _, [] => True
  | k, n :: ns => (line.drop k).take n = line.take n ∧ Repeats line (k + n) ns

/-- The lines of a text, of at most 255 bytes. -/
def lines (text : List UInt8) : List (List UInt8) :=
  if _h : text = [] then []
  else (fgets (LINE_MAX_LEN - 1) text).1 :: lines (fgets (LINE_MAX_LEN - 1) text).2
termination_by text.length
decreasing_by exact fgets_rest_lt _h

/-- The pieces of each line repeat its start. -/
def AllRepeat (sizes : Nat → Nat) : Nat → List (List UInt8) → Prop
  | _, [] => True
  | i, line :: rest =>
    Repeats line 0 (cut sizes i line.length) ∧
      AllRepeat sizes (i + (cut sizes i line.length).length) rest

/-- What is left of the line and the lines after it repeat. -/
def LeftRepeat (sizes : Nat → Nat) (i : Nat) (line : List UInt8) (left : Nat)
    (file : List UInt8) : Prop :=
  Repeats line (line.length - left) (cut sizes i left) ∧
    AllRepeat sizes (i + (cut sizes i left).length) (lines file)

section left

variable {sizes : Nat → Nat} {i left n : Nat} {line file : List UInt8}

theorem cut_zero : cut sizes i 0 = [] := by
  rw [cut, dif_pos (Or.inl rfl)]

theorem cut_pos (hleft : left ≠ 0) (hsize : 0 < sizes i) :
    cut sizes i left =
      min left (sizes i) :: cut sizes (i + 1) (left - min left (sizes i)) := by
  rw [cut, dif_neg (by omega)]

theorem lines_cons (hfile : file ≠ []) :
    lines file = (fgets (LINE_MAX_LEN - 1) file).1 :: lines (fgets (LINE_MAX_LEN - 1) file).2 := by
  rw [lines, dif_neg hfile]

theorem LeftRepeat.zero_nil : LeftRepeat sizes i line 0 [] := by
  refine ⟨?_, ?_⟩
  · rw [cut_zero]
    trivial
  · rw [lines, dif_pos rfl]
    trivial

/-- With nothing left of a line, it is the next one that counts. -/
theorem leftRepeat_zero (hfile : file ≠ []) :
    LeftRepeat sizes i line 0 file ↔
      LeftRepeat sizes i (fgets (LINE_MAX_LEN - 1) file).1
        (fgets (LINE_MAX_LEN - 1) file).1.length (fgets (LINE_MAX_LEN - 1) file).2 := by
  rw [LeftRepeat, LeftRepeat, cut_zero, lines_cons hfile, Nat.sub_self]
  exact ⟨fun h => h.2, fun h => ⟨trivial, h⟩⟩

theorem leftRepeat_pos (hleft : left ≠ 0) (hle : left ≤ line.length) (hsize : 0 < sizes i)
    (hn : n = min left (sizes i)) :
    LeftRepeat sizes i line left file ↔
      (line.drop (line.length - left)).take n = line.take n ∧
        LeftRepeat sizes (i + 1) line (left - n) file := by
  have hk : line.length - left + n = line.length - (left - n) := by omega
  have hi : i + ((cut sizes (i + 1) (left - n)).length + 1) =
      i + 1 + (cut sizes (i + 1) (left - n)).length := by omega
  rw [LeftRepeat, LeftRepeat, cut_pos hleft hsize, ← hn, Repeats, List.length_cons, hk, hi,
    and_assoc]

end left

section delivered

variable {sizes : Nat → Nat} {fuel i m : Nat} {linebuf : LineBuffer} {out file : List UInt8}

theorem delivered_succ (h : delivered sizes fuel i linebuf file = some out) :
    delivered sizes (fuel + 1) i linebuf file = some out := by
  induction fuel generalizing i linebuf out file with
  | zero => cases h
  | succ fuel ih =>
    rw [delivered] at h ⊢
    split at h
    · exact h
    · obtain ⟨rest, hrest, rfl⟩ := Option.map_eq_some_iff.mp h
      rw [ih hrest]
      rfl

theorem delivered_add (h : delivered sizes fuel i linebuf file = some out) :
    delivered sizes (fuel + m) i linebuf file = some out := by
  induction m with
  | zero => exact h
  | succ m ih => exact delivered_succ ih

theorem delivered_unique {fuel' : Nat} {out' : List UInt8}
    (h : delivered sizes fuel i linebuf file = some out)
    (h' : delivered sizes fuel' i linebuf file = some out') : out = out' := by
  have hadd := delivered_add (m := fuel') h
  rw [Nat.add_comm, delivered_add h'] at hadd
  exact (Option.some.inj hadd).symm

/-- A line that is read first and then handed out is handed out as if it had been
there. -/
theorem Lexer_DoYYInput_line (hfile : file ≠ []) (hzero : 0 ∉ file)
    (hleft : linebuf.lineleft = 0) (size : Nat) :
    ∃ linebuf', linebuf'.buf = (fgets (LINE_MAX_LEN - 1) file).1 ∧
      linebuf'.lineleft = (fgets (LINE_MAX_LEN - 1) file).1.length ∧
      Lexer_DoYYInput linebuf size file =
        Lexer_DoYYInput linebuf' size (fgets (LINE_MAX_LEN - 1) file).2 := by
  have hne : (fgets (LINE_MAX_LEN - 1) file).1 ≠ [] := fgets_ne_nil hfile
  have hlen : ((fgets (LINE_MAX_LEN - 1) file).1.takeWhile (· ≠ 0)).length =
      (fgets (LINE_MAX_LEN - 1) file).1.length := by
    rw [List.takeWhile_eq_self_iff.mpr]
    intro c hc
    have hmem : c ∈ file := by
      rw [← fgets_append (LINE_MAX_LEN - 1) file]
      exact List.mem_append_left _ hc
    exact decide_eq_true fun heq => hzero (heq ▸ hmem)
  refine ⟨⟨(fgets (LINE_MAX_LEN - 1) file).1, (fgets (LINE_MAX_LEN - 1) file).1.length,
    (fgets (LINE_MAX_LEN - 1) file).1.length, 0, ⟨linebuf.pos.row + 1, 0⟩,
    ⟨linebuf.pos.row, linebuf.pos.col + linebuf.len⟩⟩, rfl, rfl, ?_⟩
  rw [Lexer_DoYYInput, if_pos hleft, if_neg hfile, Lexer_DoYYInput,
    if_neg (fun h => hne (List.length_eq_zero_iff.mp h))]
  simp only [hlen]

/-- One call that hands out a piece of a line. -/
theorem delivered_left {rest : List UInt8} {n : Nat} (hleft : linebuf.lineleft ≠ 0)
    (hle : linebuf.lineleft ≤ linebuf.buf.length) (hsize : 0 < sizes i)
    (hn : n = min linebuf.lineleft (sizes i))
    (h : delivered sizes fuel (i + 1) { linebuf with lineleft := linebuf.lineleft - n } file =
      some rest) :
    delivered sizes (fuel + 1) i linebuf file = some (linebuf.buf.take n ++ rest) := by
  have hpos : 0 < (linebuf.buf.take n).length := by
    rw [List.length_take]
    omega
  obtain ⟨c, cs, hcs⟩ := List.exists_cons_of_ne_nil (List.length_pos_iff.mp hpos)
  rw [delivered, Lexer_DoYYInput, if_neg hleft]
  simp only [← hn, hcs, h]
  rfl

/-- What a run delivers is as long as what there is, and is that where the pieces
repeat. -/
def Delivers (sizes : Nat → Nat) (fuel i : Nat) (linebuf : LineBuffer) (file : List UInt8) :
    Prop :=
  ∃ out, delivered sizes fuel i linebuf file = some out ∧
    out.length = linebuf.lineleft + file.length ∧
    (out = linebuf.buf.drop (linebuf.buf.length - linebuf.lineleft) ++ file ↔
      LeftRepeat sizes i linebuf.buf linebuf.lineleft file)

theorem Delivers.nil (hleft : linebuf.lineleft = 0) : Delivers sizes (fuel + 1) i linebuf [] := by
  refine ⟨[], ?_, ?_, ?_⟩
  · rw [delivered, Lexer_DoYYInput, if_pos hleft]
    rfl
  · rw [hleft]
    rfl
  · rw [hleft, Nat.sub_zero, List.drop_length]
    exact iff_of_true rfl LeftRepeat.zero_nil

theorem Delivers.piece {n : Nat} (hleft : linebuf.lineleft ≠ 0)
    (hle : linebuf.lineleft ≤ linebuf.buf.length) (hsize : 0 < sizes i)
    (hn : n = min linebuf.lineleft (sizes i))
    (h : Delivers sizes fuel (i + 1) { linebuf with lineleft := linebuf.lineleft - n } file) :
    Delivers sizes (fuel + 1) i linebuf file := by
  obtain ⟨rest, hrest, hlen, hiff⟩ := h
  simp only at hlen hiff
  have hdrop : linebuf.buf.drop (linebuf.buf.length - linebuf.lineleft) =
      (linebuf.buf.drop (linebuf.buf.length - linebuf.lineleft)).take n ++
        linebuf.buf.drop (linebuf.buf.length - (linebuf.lineleft - n)) := by
    have hk : linebuf.buf.length - (linebuf.lineleft - n) =
        linebuf.buf.length - linebuf.lineleft + n := by omega
    rw [hk, ← List.drop_drop, List.take_append_drop]
  have hsame : (linebuf.buf.take n).length =
      ((linebuf.buf.drop (linebuf.buf.length - linebuf.lineleft)).take n).length := by
    rw [List.length_take, List.length_take, List.length_drop]
    omega
  refine ⟨linebuf.buf.take n ++ rest, delivered_left hleft hle hsize hn hrest, ?_, ?_⟩
  · rw [List.length_append, List.length_take, hlen]
    omega
  · rw [leftRepeat_pos hleft hle hsize hn, ← hiff]
    constructor
    · intro heq
      rw [hdrop, List.append_assoc] at heq
      obtain ⟨hpiece, hafter⟩ := List.append_inj heq hsame
      exact ⟨hpiece.symm, hafter⟩
    · rintro ⟨hpiece, hafter⟩
      rw [hdrop, List.append_assoc, hpiece, hafter]

theorem Delivers.line {linebuf' : LineBuffer} (hfile : file ≠ [])
    (hleft : linebuf.lineleft = 0)
    (hbuf : linebuf'.buf = (fgets (LINE_MAX_LEN - 1) file).1)
    (hleft' : linebuf'.lineleft = (fgets (LINE_MAX_LEN - 1) file).1.length)
    (hcall : Lexer_DoYYInput linebuf (sizes i) file =
      Lexer_DoYYInput linebuf' (sizes i) (fgets (LINE_MAX_LEN - 1) file).2)
    (h : Delivers sizes (fuel + 1) i linebuf' (fgets (LINE_MAX_LEN - 1) file).2) :
    Delivers sizes (fuel + 1) i linebuf file := by
  obtain ⟨out, hout, hlen, hiff⟩ := h
  refine ⟨out, ?_, ?_, ?_⟩
  · rw [delivered] at hout ⊢
    rw [hcall]
    exact hout
  · rw [hlen, hleft, hleft', fgets_length, Nat.zero_add]
  · rw [hbuf, hleft', Nat.sub_self, List.drop_zero, fgets_append] at hiff
    rw [hleft, Nat.sub_zero, List.drop_length, List.nil_append, hiff]
    exact (leftRepeat_zero hfile).symm

theorem delivers (hsizes : ∀ i, 0 < sizes i) (hzero : 0 ∉ file)
    (hle : linebuf.lineleft ≤ linebuf.buf.length)
    (hm : linebuf.lineleft + file.length ≤ m) : Delivers sizes (m + 1) i linebuf file := by
  induction m generalizing i linebuf file with
  | zero =>
    obtain rfl : file = [] := List.length_eq_zero_iff.mp (by omega)
    exact Delivers.nil (by omega)
  | succ m ih =>
    have hpiece : ∀ {linebuf : LineBuffer} {file : List UInt8}, 0 ∉ file →
        linebuf.lineleft ≠ 0 → linebuf.lineleft ≤ linebuf.buf.length →
        linebuf.lineleft + file.length ≤ m + 1 → Delivers sizes (m + 2) i linebuf file := by
      intro linebuf file hzero hleft hle hm
      have hsize := hsizes i
      refine Delivers.piece hleft hle hsize rfl (ih hzero ?_ ?_)
      · exact (Nat.sub_le _ _).trans hle
      · simp only
        omega
    by_cases hleft : linebuf.lineleft = 0
    · by_cases hfile : file = []
      · subst hfile
        exact Delivers.nil hleft
      · obtain ⟨linebuf', hbuf, hleft', hcall⟩ :=
          Lexer_DoYYInput_line hfile hzero hleft (sizes i)
        have hne := List.length_pos_iff.mpr (fgets_ne_nil (n := LINE_MAX_LEN - 2) hfile)
        have hlen := fgets_length (LINE_MAX_LEN - 1) file
        refine Delivers.line hfile hleft hbuf hleft' hcall (hpiece ?_ ?_ ?_ ?_)
        · intro hmem
          rw [← fgets_append (LINE_MAX_LEN - 1) file] at hzero
          exact hzero (List.mem_append_right _ hmem)
        · rw [hleft']
          exact Nat.ne_of_gt hne
        · rw [hleft', hbuf]
        · rw [hleft', hlen]
          omega
    · exact hpiece hzero hleft hle hm

end delivered

/-- The scanner sees the whole of a text where each piece of a line after the first
is what the line starts with. -/
theorem seesWhole_iff (sizes : Nat → Nat) (text : List UInt8) (hsizes : ∀ i, 0 < sizes i)
    (hzero : 0 ∉ text) : SeesWhole sizes text ↔ AllRepeat sizes 0 (lines text) := by
  have hdelivers : Delivers sizes (new_line.lineleft + text.length + 1) 0 new_line text :=
    delivers hsizes hzero (Nat.le_refl 0) (Nat.le_refl _)
  obtain ⟨out, hout, _, hiff⟩ := hdelivers
  have hall : LeftRepeat sizes 0 new_line.buf new_line.lineleft text ↔
      AllRepeat sizes 0 (lines text) := by
    rw [LeftRepeat, show new_line.lineleft = 0 from rfl, cut_zero]
    exact and_iff_right trivial
  rw [← hall, ← hiff, SeesWhole]
  constructor
  · rintro ⟨fuel, hfuel⟩
    exact delivered_unique hout hfuel
  · intro heq
    exact ⟨_, hout.trans (congrArg some heq)⟩

theorem seesWhole_iff_a : SeesWhole (fun _ => 8) [0x61, 0x0a] ↔
    AllRepeat (fun _ => 8) 0 (lines [0x61, 0x0a]) :=
  seesWhole_iff _ _ (fun _ => by decide) (by decide)

/-- The last piece of a line handed out in two is its start. -/
theorem not_seesWhole : ¬ ∀ (sizes : Nat → Nat) (text : List UInt8), (∀ i, 0 < sizes i) →
    0 ∉ text → SeesWhole sizes text := by
  intro h
  obtain ⟨fuel, hfuel⟩ := h (fun _ => 2) [0x61, 0x62, 0x0a] (fun _ => by decide) (by decide)
  have hrun : delivered (fun _ => 2) 3 0 new_line [0x61, 0x62, 0x0a] =
      some [0x61, 0x62, 0x61] := by decide
  exact absurd (delivered_unique hfuel hrun) (by decide)

end koala.lexer
