import Koala.Buffer
import Mathlib.Data.List.ReduceOption

open koala.buffer

namespace koala.tuple

set_option linter.style.nameCheck false

/-- The objects that are rendered: strings and 64-bit integers. -/
inductive Object where
  | String (str : CString)
  | Int (value : BitVec 64)

/-- `"%lld"`. -/
def lld (value : Int) : List UInt8 :=
  let digits := (Nat.toDigits 10 value.natAbs).map Char.toUInt8
  if value < 0 then '-'.toUInt8 :: digits else digits

/-- The text of a string that starts at some memory. A NUL is looked for. -/
def String_New (memory : List UInt8) : Res CString :=
  if 0 ∈ memory then .ok (.ofData memory) else .error .bounds

def quote : UInt8 := 0x27

/-- What is written for an object. The text of an integer is that of its own string. -/
def Object.write (buf : Buffer) : Object → Buffer
  | .String str => Buffer_Write (Buffer_Write (Buffer_Write buf [quote]) str.bytes) [quote]
  | .Int value => Buffer_Write buf (lld value.toInt)

def separator : List UInt8 := [','.toUInt8, ' '.toUInt8]

/-- The loop over the items. It stops behind 512 bytes. -/
def Tuple_ToString.loop (buf : Buffer) (count : Nat) : List (Option Object) → Buffer
  | [] => buf
  | none :: items => loop buf count items
  | some o :: items =>
    let buf := if count > 0 then Buffer_Write buf separator else buf
    if Buffer_Size buf > 512 then Buffer_Write buf ['.'.toUInt8, '.'.toUInt8, '.'.toUInt8]
    else loop (o.write buf) (count + 1) items

/-- The memory that is passed to `String_New`. -/
def Tuple_ToString.data (items : List (Option Object)) : List UInt8 :=
  let buf := Buffer_Write (Buffer_Init 64 (by decide)) ['['.toUInt8]
  Buffer_RawData.memory (Buffer_Write (Tuple_ToString.loop buf 0 items) [']'.toUInt8])

def Tuple_ToString (items : List (Option Object)) : Res CString :=
  String_New (Tuple_ToString.data items)

/-- A string is in quotes. -/
def Object.text : Object → List UInt8
  | .String str => quote :: str.bytes ++ [quote]
  | .Int value => lld value.toInt

/-- The items that are set, separated, and in brackets. -/
def rendering (items : List (Option Object)) : List UInt8 :=
  '['.toUInt8 :: separator.intercalate (items.reduceOption.map Object.text) ++ [']'.toUInt8]

/-- The length of the rendering: two brackets, the texts, and two bytes between them. -/
def rendered_length (items : List (Option Object)) : Nat :=
  2 + (items.reduceOption.map fun o => o.text.length).sum + 2 * (items.reduceOption.length - 1)

/-- A tuple is rendered: a NUL ends the text inside of its memory, and the text is that of the
items. -/
def Renders (items : List (Option Object)) : Prop :=
  0 ∈ Tuple_ToString.data items ∧
    ∃ s, Tuple_ToString items = .ok s ∧ s.bytes = rendering items

section length

theorem length_intercalate (sep : List UInt8) (texts : List (List UInt8)) :
    (sep.intercalate texts).length =
      (texts.map List.length).sum + sep.length * (texts.length - 1) := by
  induction texts with
  | nil => rfl
  | cons t texts ih =>
    cases texts with
    | nil => simp [List.intercalate]
    | cons t' texts =>
      rw [List.intercalate_cons_cons, List.length_append, List.length_append, ih]
      simp only [List.map_cons, List.sum_cons, List.length_cons, Nat.add_sub_cancel, Nat.mul_succ]
      omega

theorem length_rendering (items : List (Option Object)) :
    (rendering items).length = rendered_length items := by
  rw [rendering, List.length_append, List.length_cons, length_intercalate, rendered_length,
    List.map_map, List.length_map, List.length_singleton]
  simp only [separator, List.length_cons, List.length_nil, Function.comp_def]
  omega

end length

section nonul

theorem digit_ne_zero {c : Char} (h : c.isDigit = true) : c.toUInt8 ≠ 0 := by
  intro hzero
  have hrange : 48 ≤ c.val.toNat ∧ c.val.toNat ≤ 57 := by
    simpa [Char.isDigit, UInt32.le_iff_toNat_le] using h
  have hnat := congrArg UInt8.toNat hzero
  simp only [Char.toUInt8, UInt32.toNat_toUInt8, UInt8.toNat_zero] at hnat
  omega

theorem zero_not_mem_lld (value : Int) : 0 ∉ lld value := by
  have hdigits : 0 ∉ (Nat.toDigits 10 value.natAbs).map Char.toUInt8 := by
    intro hzero
    obtain ⟨c, hc, hzero⟩ := List.mem_map.mp hzero
    exact digit_ne_zero (Nat.isDigit_of_mem_toDigits (by decide) (by decide) hc) hzero
  rw [lld]
  split
  · exact List.not_mem_cons_of_ne_of_not_mem (by decide) hdigits
  · exact hdigits

theorem Object.zero_not_mem_text (o : Object) : 0 ∉ o.text := by
  cases o with
  | String str =>
    rw [Object.text, List.mem_append, List.mem_cons, List.mem_singleton]
    rintro ((hquote | hstr) | hquote)
    · exact absurd hquote (by decide)
    · exact str.nonul hstr
    · exact absurd hquote (by decide)
  | Int value => exact zero_not_mem_lld _

theorem zero_not_mem_intercalate {sep : List UInt8} (hsep : 0 ∉ sep) {texts : List (List UInt8)}
    (h : ∀ t ∈ texts, 0 ∉ t) : 0 ∉ sep.intercalate texts := by
  induction texts with
  | nil => exact List.not_mem_nil
  | cons t texts ih =>
    obtain ⟨ht, htexts⟩ := List.forall_mem_cons.mp h
    cases texts with
    | nil => simpa [List.intercalate] using ht
    | cons t' texts =>
      rw [List.intercalate_cons_cons, List.mem_append, List.mem_append]
      rintro ((hzero | hzero) | hzero)
      · exact ht hzero
      · exact hsep hzero
      · exact ih htexts hzero

theorem zero_not_mem_rendering (items : List (Option Object)) : 0 ∉ rendering items := by
  have hitems : 0 ∉ separator.intercalate (items.reduceOption.map Object.text) := by
    refine zero_not_mem_intercalate (by decide) fun t ht => ?_
    obtain ⟨o, _, rfl⟩ := List.mem_map.mp ht
    exact o.zero_not_mem_text
  rw [rendering, List.mem_append, List.mem_cons, List.mem_singleton]
  rintro ((hzero | hzero) | hzero)
  · exact absurd hzero (by decide)
  · exact hitems hzero
  · exact absurd hzero (by decide)

end nonul

section written

@[simp] theorem Object.rawData_write (o : Object) (buf : Buffer) :
    Buffer_RawData (o.write buf) = Buffer_RawData buf ++ o.text := by
  cases o <;> simp [Object.write, Object.text]

/-- What the loop writes behind some bytes and `count` items. -/
def behind (count : Nat) (texts : List (List UInt8)) : List UInt8 :=
  if count > 0 ∧ texts ≠ [] then separator ++ separator.intercalate texts
  else separator.intercalate texts

theorem behind_cons (count : Nat) (t : List UInt8) (texts : List (List UInt8)) :
    behind count (t :: texts) =
      (if count > 0 then separator else []) ++ t ++ behind (count + 1) texts := by
  have hpos : count + 1 > 0 := Nat.succ_pos _
  cases texts with
  | nil =>
    rw [behind, behind]
    split <;> simp_all [List.intercalate]
  | cons t' texts =>
    rw [behind, behind, List.intercalate_cons_cons]
    simp only [hpos, ne_eq, reduceCtorEq, not_false_eq_true, and_true, if_true]
    split <;> simp

/-- Items that end within 512 bytes are all written. -/
theorem rawData_loop {items : List (Option Object)} {buf : Buffer} {count : Nat}
    (hlength : (Buffer_RawData buf ++
      behind count (items.reduceOption.map Object.text)).length ≤ 512) :
    Buffer_RawData (Tuple_ToString.loop buf count items) =
      Buffer_RawData buf ++ behind count (items.reduceOption.map Object.text) := by
  induction items generalizing buf count with
  | nil => simp [Tuple_ToString.loop, behind, List.intercalate, List.reduceOption]
  | cons item items ih =>
    cases item with
    | none =>
      rw [List.reduceOption_cons_of_none] at hlength ⊢
      exact ih hlength
    | some o =>
      rw [List.reduceOption_cons_of_some, List.map_cons, behind_cons] at hlength ⊢
      rw [Tuple_ToString.loop]
      have hbuf : Buffer_RawData (if count > 0 then Buffer_Write buf separator else buf) =
          Buffer_RawData buf ++ if count > 0 then separator else [] := by
        split <;> simp
      have hsmall : ¬ Buffer_Size (if count > 0 then Buffer_Write buf separator else buf) > 512 := by
        rw [Buffer_Size_eq, hbuf]
        simp only [List.length_append] at hlength ⊢
        omega
      rw [if_neg hsmall, ih]
      · rw [Object.rawData_write, hbuf]
        simp only [List.append_assoc]
      · rw [Object.rawData_write, hbuf]
        simpa only [List.append_assoc] using hlength

end written

/-- The memory holds the rendering, and up to three zeros behind it. -/
theorem data_eq {items : List (Option Object)} (h : rendered_length items ≤ 512) :
    Tuple_ToString.data items = rendering items ++
      List.replicate (ALIGN (rendered_length items) 4 - rendered_length items) 0 := by
  rw [← length_rendering] at h ⊢
  have hinit : Buffer_RawData (Buffer_Write (Buffer_Init 64 (by decide)) ['['.toUInt8]) =
      ['['.toUInt8] := by
    rw [rawData_write]
    rfl
  have hbehind : behind 0 (items.reduceOption.map Object.text) =
      separator.intercalate (items.reduceOption.map Object.text) :=
    if_neg fun hpos => absurd hpos.1 (Nat.lt_irrefl 0)
  have hraw : Buffer_RawData (Buffer_Write (Tuple_ToString.loop
      (Buffer_Write (Buffer_Init 64 (by decide)) ['['.toUInt8]) 0 items) [']'.toUInt8]) =
      rendering items := by
    rw [rawData_write, rawData_loop, hinit, hbehind]
    · rfl
    · rw [hinit, hbehind]
      rw [rendering, List.length_append] at h
      exact Nat.le_of_add_right_le h
  rw [Tuple_ToString.data, Buffer_RawData.memory, Buffer_Size_eq, hraw]

/-- A tuple is rendered exactly when the length is no multiple of four. -/
theorem renders_iff {items : List (Option Object)} (h : rendered_length items ≤ 512) :
    Renders items ↔ rendered_length items % 4 ≠ 0 := by
  have hzero := zero_not_mem_rendering items
  rw [Renders, data_eq h]
  constructor
  · rintro ⟨hmem, _⟩ hfour
    have halign : ALIGN (rendered_length items) 4 - rendered_length items = 0 := by
      rw [ALIGN]
      omega
    rw [halign, List.replicate_zero, List.append_nil] at hmem
    exact hzero hmem
  · intro hfour
    obtain ⟨n, hn⟩ : ∃ n, ALIGN (rendered_length items) 4 - rendered_length items = n + 1 := by
      refine ⟨ALIGN (rendered_length items) 4 - rendered_length items - 1, ?_⟩
      rw [ALIGN]
      omega
    have hmem : 0 ∈ rendering items ++
        List.replicate (ALIGN (rendered_length items) 4 - rendered_length items) (0 : UInt8) := by
      rw [hn]
      exact List.mem_append_right _ List.mem_cons_self
    refine ⟨hmem, ⟨rendering items, hzero⟩, ?_, rfl⟩
    rw [Tuple_ToString, data_eq h, String_New, if_pos hmem, hn, List.replicate_succ]
    exact congrArg Except.ok (CString.ofData_append_nul ⟨rendering items, hzero⟩ _)

/-- A tuple of the number 100, a string and an empty slot. -/
theorem renders_iff_hello :
    Renders [some (.Int 100), none, some (.String ⟨"hello".toList.map Char.toUInt8, by decide⟩)] :=
  (renders_iff (by decide)).mpr (by decide)

/-- The text of a tuple of the number 12 has no end. -/
theorem not_renders_twelve : rendered_length [some (.Int 12)] ≤ 512 ∧
    Tuple_ToString [some (.Int 12)] = .error .bounds ∧ ¬ Renders [some (.Int 12)] := by
  have hlength : rendered_length [some (.Int 12)] ≤ 512 := by decide
  have herror : Tuple_ToString [some (.Int 12)] = .error .bounds := by
    rw [Tuple_ToString, data_eq hlength]
    decide
  refine ⟨hlength, herror, ?_⟩
  rintro ⟨_, s, hs, _⟩
  rw [herror] at hs
  cases hs

end koala.tuple
