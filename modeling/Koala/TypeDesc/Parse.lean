import Koala.TypeDesc.Text

open koala.stringbuf

namespace koala.typedesc

set_option linter.style.nameCheck false

/-- `string_ndup` of a part of a string. -/
def AtomString_New_NStr (str : List UInt8) (len : Nat) : CString := CString.ofData (str.take len)

/-- The class whose name is at the start of the text, up to `len`; the dot is sought
in all that follows. -/
def string_to_klass (s : List UInt8) (len : Nat) : Res TypeDesc :=
  match s.idxOf? '.'.toUInt8 with
  | none => .error .null
  | some dot =>
    if dot < len then
      .ok (.klass (some (AtomString_New_NStr s dot))
        (AtomString_New_NStr (s.drop (dot + 1)) (len - dot - 1)))
    else .error .bounds

mutual

/-- The descriptor at the start of a text, and the text after it. A length that is no
`int` is an overflow; the NUL behind the text is the letter of no primitive type. -/
def String_To_TypeDesc : Nat → List UInt8 → Nat → Nat → Res (TypeDesc × List UInt8)
  | 0, _, _, _ => .error .fuel
  | _ + 1, [], _, _ => .error .assertion
  | fuel + 1, ch :: s, _dims, _varg =>
    if ch = 'L'.toUInt8 then
      match s.idxOf? ';'.toUInt8 with
      | none => .error .bounds
      | some len =>
        if len ≤ INT_MAX then do
          let desc ← string_to_klass s len
          .ok (desc, s.drop (len + 1))
        else .error .overflow
    else if ch = '['.toUInt8 then
      if _dims = 0 ∧ _varg = 0 then
        let dims := ((ch :: s).takeWhile (· = '['.toUInt8)).length
        if dims ≤ INT_MAX then do
          let (base, s) ← String_To_TypeDesc fuel ((ch :: s).dropWhile (· = '['.toUInt8)) dims 0
          .ok (.array (BitVec.ofNat 32 dims) base, s)
        else .error .overflow
      else .error .assertion
    else if ch = 'M'.toUInt8 then do
      let (key, s) ← String_To_TypeDesc fuel s 0 0
      let (val, s) ← String_To_TypeDesc fuel s 0 0
      .ok (.map key val, s)
    else if ch = 'S'.toUInt8 then do
      let (base, s) ← String_To_TypeDesc fuel s 0 0
      .ok (.set base, s)
    else if ch = 'P'.toUInt8 then do
      let (args, s) ← types_until fuel ':'.toUInt8 s
      let (rets, s) ← types_until fuel ';'.toUInt8 s
      .ok (.proto args rets, s)
    else if ch = '.'.toUInt8 then
      if _dims = 0 ∧ _varg = 0 then
        if s.take 2 = ['.'.toUInt8, '.'.toUInt8] then
          let s := s.drop 2
          if s.head? = some 'A'.toUInt8 then .ok (.varg (.base .BASE_ANY), s.tail)
          else do
            let (base, s) ← String_To_TypeDesc fuel s 0 1
            .ok (.varg base, s)
        else .error .assertion
      else .error .assertion
    else
      match get_basic ch with
      | none => .error .assertion
      | some p => if _dims > 0 ∧ _varg > 0 then .error .assertion else .ok (.base p, s)

/-- The loops over the arguments and the results of a function. -/
def types_until : Nat → UInt8 → List UInt8 → Res (List TypeDesc × List UInt8)
  | 0, _, _ => .error .fuel
  | fuel + 1, stop, s =>
    if s.head? = some stop then .ok ([], s.tail)
    else do
      let (base, s) ← String_To_TypeDesc fuel s 0 0
      let (vec, s) ← types_until fuel stop s
      .ok (base :: vec, s)

end

/-- The loop of `String_ToTypeList`. -/
def typelist : Nat → List UInt8 → Res (List TypeDesc)
  | 0, _ => .error .fuel
  | _ + 1, [] => .ok []
  | fuel + 1, ch :: s => do
    let (desc, s) ← String_To_TypeDesc fuel (ch :: s) 0 0
    let vec ← typelist fuel s
    .ok (desc :: vec)

def String_ToTypeList (s : CString) : Res (List TypeDesc) :=
  typelist (2 * s.bytes.length + 2) s.bytes

namespace TypeDesc

mutual

/-- A descriptor as the parser reads it. -/
def spelling : TypeDesc → List UInt8
  | .base type => [type.letter]
  | .klass path type =>
    'L'.toUInt8 :: (Str.bytes path ++ '.'.toUInt8 :: (type.bytes ++ [';'.toUInt8]))
  | .proto arg ret =>
    'P'.toUInt8 :: (spellings arg ++ ':'.toUInt8 :: (spellings ret ++ [';'.toUInt8]))
  | .array dims t => List.replicate dims.toInt.toNat '['.toUInt8 ++ spelling t
  | .map key val => 'M'.toUInt8 :: (spelling key ++ spelling val)
  | .set t => 'S'.toUInt8 :: spelling t
  | .varg t => '.'.toUInt8 :: '.'.toUInt8 :: '.'.toUInt8 :: spelling t

def spellings : List TypeDesc → List UInt8
  | [] => []
  | t :: l => spelling t ++ spellings l

end

end TypeDesc

/-- The parser returns descriptors that are spelled by the whole text, or stops at an
assertion. -/
def Safe (s : CString) : Prop :=
  match String_ToTypeList s with
  | .ok vec => TypeDesc.spellings vec = s.bytes
  | .error e => e = .assertion

end koala.typedesc

open koala.stringbuf

namespace koala.typedesc

set_option linter.style.nameCheck false

/-- A class name as the comment in the source has it, with a path that has no dot. -/
structure Named (path type : List UInt8) : Prop where
  dot_notMem : '.'.toUInt8 ∉ path
  notMem_path : ';'.toUInt8 ∉ path
  notMem_type : ';'.toUInt8 ∉ type
  length_le : path.length + 1 + type.length ≤ INT_MAX

/-- Neither brackets nor dots follow those of an array or a variable argument. -/
def Plain (s : List UInt8) : Prop :=
  s.head? ≠ some '['.toUInt8 ∧ s.head? ≠ some '.'.toUInt8

namespace TypeDesc

/-- The descriptors that the parser builds. -/
inductive Grammatical : TypeDesc → Prop where
  | base (b : BaseType) : Grammatical (.base b)
  | klass {path type : CString} (h : Named path.bytes type.bytes) :
    Grammatical (.klass (some path) type)
  | proto {arg ret : List TypeDesc} (harg : ∀ t ∈ arg, Grammatical t)
    (hret : ∀ t ∈ ret, Grammatical t) : Grammatical (.proto arg ret)
  | array {dims : BitVec 32} {t : TypeDesc} (hdims : 0 < dims.toInt) (ht : Grammatical t)
    (hplain : Plain t.spelling) : Grammatical (.array dims t)
  | map {key val : TypeDesc} (hkey : Grammatical key) (hval : Grammatical val) :
    Grammatical (.map key val)
  | set {t : TypeDesc} (ht : Grammatical t) : Grammatical (.set t)
  | varg {t : TypeDesc} (ht : Grammatical t) (hplain : Plain t.spelling) :
    Grammatical (.varg t)

end TypeDesc

/-- A text in which the parser, reading one descriptor, comes to a class that has no
proper name or to more brackets than an `int` counts. -/
inductive Breaks : List UInt8 → Prop where
  | klass {s : List UInt8}
    (h : ¬ ∃ path type rest : List UInt8, Named path type ∧
      s = path ++ '.'.toUInt8 :: (type ++ ';'.toUInt8 :: rest)) : Breaks ('L'.toUInt8 :: s)
  | dims {s : List UInt8} {n : Nat} (hn : INT_MAX < n) (hs : s.head? ≠ some '['.toUInt8) :
    Breaks (List.replicate n '['.toUInt8 ++ s)
  | array {s : List UInt8} {n : Nat} (hzero : 0 < n) (hn : n ≤ INT_MAX) (hplain : Plain s)
    (h : Breaks s) : Breaks (List.replicate n '['.toUInt8 ++ s)
  | key {s : List UInt8} (h : Breaks s) : Breaks ('M'.toUInt8 :: s)
  | val {s : List UInt8} {key : TypeDesc} (hkey : key.Grammatical) (h : Breaks s) :
    Breaks ('M'.toUInt8 :: (key.spelling ++ s))
  | set {s : List UInt8} (h : Breaks s) : Breaks ('S'.toUInt8 :: s)
  | arg {s : List UInt8} {args : List TypeDesc} (hargs : ∀ t ∈ args, t.Grammatical)
    (h : Breaks s) : Breaks ('P'.toUInt8 :: (TypeDesc.spellings args ++ s))
  | ret {s : List UInt8} {args rets : List TypeDesc} (hargs : ∀ t ∈ args, t.Grammatical)
    (hrets : ∀ t ∈ rets, t.Grammatical) (h : Breaks s) :
    Breaks ('P'.toUInt8 :: (TypeDesc.spellings args ++
      ':'.toUInt8 :: (TypeDesc.spellings rets ++ s)))
  | varg {s : List UInt8} (hplain : Plain s) (h : Breaks s) :
    Breaks ('.'.toUInt8 :: '.'.toUInt8 :: '.'.toUInt8 :: s)

/-- Such a text after a list of descriptors. -/
def BreaksList (s : List UInt8) : Prop :=
  ∃ (vec : List TypeDesc) (rest : List UInt8), (∀ t ∈ vec, t.Grammatical) ∧ Breaks rest ∧
    s = TypeDesc.spellings vec ++ rest

/-- The characters that are no letters of primitive types but start a descriptor. -/
def marks : List UInt8 :=
  ['L'.toUInt8, '['.toUInt8, 'M'.toUInt8, 'S'.toUInt8, 'P'.toUInt8, '.'.toUInt8]

theorem length_lt_append_cons (x : List UInt8) (c : UInt8) (y : List UInt8) :
    y.length < (x ++ c :: y).length := by
  rw [List.length_append, List.length_cons]
  omega

section spelling

open TypeDesc

variable {t : TypeDesc} {l : List TypeDesc} {s : List UInt8}

theorem letter_mem (b : BaseType) :
    b.letter ∉ marks ∧ b.letter ≠ ':'.toUInt8 ∧ b.letter ≠ ';'.toUInt8 := by
  cases b <;> decide

theorem brackets_cons {n : Nat} (hn : 0 < n) :
    List.replicate n '['.toUInt8 ++ s = '['.toUInt8 :: (List.replicate (n - 1) '['.toUInt8 ++ s) := by
  obtain ⟨m, rfl⟩ := Nat.exists_eq_add_of_lt hn
  rw [Nat.zero_add, List.replicate_succ, Nat.add_sub_cancel, List.cons_append]

/-- A descriptor starts with none of the characters that end a list. -/
theorem TypeDesc.Grammatical.spelling_cons (ht : t.Grammatical) :
    ∃ c x, t.spelling = c :: x ∧ c ≠ ':'.toUInt8 ∧ c ≠ ';'.toUInt8 := by
  cases ht with
  | base b => exact ⟨_, _, rfl, (letter_mem b).2⟩
  | klass h => exact ⟨_, _, by rw [spelling], by decide, by decide⟩
  | proto harg hret => exact ⟨_, _, by rw [spelling], by decide, by decide⟩
  | array hdims ht hplain =>
    exact ⟨_, _, by rw [spelling, brackets_cons (by omega)], by decide, by decide⟩
  | map hkey hval => exact ⟨_, _, by rw [spelling], by decide, by decide⟩
  | set ht => exact ⟨_, _, by rw [spelling], by decide, by decide⟩
  | varg ht hplain => exact ⟨_, _, by rw [spelling], by decide, by decide⟩

theorem Breaks.cons (h : Breaks s) : ∃ c x, s = c :: x ∧ c ∈ marks := by
  cases h with
  | klass h => exact ⟨_, _, rfl, by decide⟩
  | dims hn hs => exact ⟨_, _, brackets_cons (by omega), by decide⟩
  | array hzero hn hplain h => exact ⟨_, _, brackets_cons hzero, by decide⟩
  | key h => exact ⟨_, _, rfl, by decide⟩
  | val hkey h => exact ⟨_, _, rfl, by decide⟩
  | set h => exact ⟨_, _, rfl, by decide⟩
  | arg hargs h => exact ⟨_, _, rfl, by decide⟩
  | ret hargs hrets h => exact ⟨_, _, rfl, by decide⟩
  | varg hplain h => exact ⟨_, _, rfl, by decide⟩

/-- A text that breaks starts with a mark. -/
theorem Breaks.head_ne {c : UInt8} (h : Breaks s) (hc : c ∉ marks) : s.head? ≠ some c := by
  obtain ⟨d, x, rfl, hd⟩ := h.cons
  exact fun heq => hc (Option.some.inj heq ▸ hd)

theorem Plain.append {x : List UInt8} (hx : x ≠ []) : Plain (x ++ s) ↔ Plain x := by
  obtain ⟨c, x, rfl⟩ := List.exists_cons_of_ne_nil hx
  exact Iff.rfl

theorem TypeDesc.Grammatical.spelling_ne_nil (ht : t.Grammatical) : t.spelling ≠ [] := by
  obtain ⟨c, x, heq, -, -⟩ := ht.spelling_cons
  rw [heq]
  exact List.cons_ne_nil c x

end spelling

end koala.typedesc
