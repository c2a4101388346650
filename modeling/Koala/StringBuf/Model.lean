import Koala.Basic

namespace koala.stringbuf

set_option linter.style.nameCheck false

/-- A `String` holds nothing but the pointer to its text. -/
abbrev Str := Option CString

/-- `strlen` as an `int`. -/
def AtomString_Length : Str → Int
  | none => 0
  | some s => (BitVec.ofNat 32 s.bytes.length).toInt

/-- What `Malloc` returns. -/
def zeros (size : Nat) : List UInt8 := List.replicate size 0

def strcpy (dst src : List UInt8) : Res (List UInt8) :=
  let text := (CString.ofData src).bytes
  if text.length < src.length ∧ text.length < dst.length then
    .ok (text ++ 0 :: dst.drop (text.length + 1))
  else .error .bounds

def strcat (dst : List UInt8) (s : CString) : Res (List UInt8) :=
  let text := (CString.ofData dst).bytes ++ s.bytes
  if text.length < dst.length then .ok (text ++ 0 :: dst.drop (text.length + 1))
  else .error .bounds

structure StringBuf where
  length : Nat
  size : Nat
  data : Option (List UInt8)
  deriving DecidableEq

def DeclareStringBuf : StringBuf := ⟨0, 0, none⟩

def EXPAND_SIZE : Nat := 32

/-- The loop of `expand`. -/
def expand_loop (size bufsize : Nat) : Res Nat :=
  if bufsize < size then
    if bufsize + EXPAND_SIZE ≤ INT_MAX then expand_loop size (bufsize + EXPAND_SIZE)
    else .error .overflow
  else .ok bufsize
termination_by size - bufsize
decreasing_by
  rw [EXPAND_SIZE]
  omega

/-- The new block with the old text. -/
def move (bufsize : Nat) : Option (List UInt8) → Res (List UInt8)
  | none => .ok (zeros bufsize)
  | some data => strcpy (zeros bufsize) data

def expand (buf : StringBuf) (min : Nat) : Res StringBuf := do
  let size ← addInt (buf.length + min) 1
  let bufsize ← expand_loop size buf.size
  let data ← move bufsize buf.data
  .ok { buf with size := bufsize, data := some data }

/-- The characters there is room for behind the text and its NUL. -/
def StringBuf.left (buf : StringBuf) : Int := (buf.size : Int) - buf.length - 1

/-- The room that is left behind `min` more characters, and the buffer. -/
def available (buf : StringBuf) (min : Nat) : Res (Int × StringBuf) :=
  if buf.left < min then do
    let buf ← expand buf min
    .ok (buf.left - min, buf)
  else .ok (buf.left - min, buf)

/-- `strcat` and the store of the new length. -/
def append (buf : StringBuf) (s : CString) (len : Nat) : Res StringBuf :=
  match buf.data with
  | none => .error .null
  | some data => do
    let data ← strcat data s
    .ok { buf with length := buf.length + len, data := some data }

def __StringBuf_Append (buf : StringBuf) (s : Str) : Res StringBuf :=
  let len := AtomString_Length s
  match s with
  | none => .ok buf
  | some s =>
    if len ≤ 0 then .ok buf
    else do
      let (left, buf) ← available buf len.toNat
      if left ≤ 0 then .ok buf else append buf s len.toNat

def __StringBuf_Append_CStr (buf : StringBuf) (s : Option CString) : Res StringBuf :=
  __StringBuf_Append buf s

/-- The store of a character behind the text. -/
def put_char (buf : StringBuf) (ch : UInt8) : Res StringBuf :=
  match buf.data with
  | none => .error .null
  | some data =>
    if buf.length < data.length then
      .ok { buf with length := buf.length + 1, data := some (data.set buf.length ch) }
    else .error .bounds

def __StringBuf_Append_Char (buf : StringBuf) (ch : UInt8) : Res StringBuf := do
  let (left, buf) ← available buf 1
  if left ≤ 0 then .ok buf else put_char buf ch

def HASH : UInt8 := '#'.toUInt8

/-- The loop over the characters of a format. An argument is a string or a
pointer to its text, which comes to the same. -/
def __StringBuf_Format (buf : StringBuf) : List UInt8 → List Str → Res StringBuf
  | [], _ => .ok buf
  | ch :: fmt, args =>
    if ch = HASH then
      match args with
      | [] => .error .bounds
      | s :: args => do
        let buf ← __StringBuf_Append buf s
        __StringBuf_Format buf fmt args
    else do
      let buf ← __StringBuf_Append_Char buf ch
      __StringBuf_Format buf fmt args

/-- A call with its arguments. A format is given an argument for each `#`. -/
inductive Call where
  | Append (s : Str)
  | Append_CStr (s : Option CString)
  | Append_Char (ch : UInt8)
  | Format (fmt : CString) (args : List Str) (hargs : fmt.bytes.count HASH ≤ args.length)

def Call.exec (buf : StringBuf) : Call → Res StringBuf
  | .Append s => __StringBuf_Append buf s
  | .Append_CStr s => __StringBuf_Append_CStr buf s
  | .Append_Char ch => __StringBuf_Append_Char buf ch
  | .Format fmt args _ => __StringBuf_Format buf fmt.bytes args

/-- The calls in their order. -/
def run (calls : List Call) (buf : StringBuf) : Res StringBuf := calls.foldlM Call.exec buf

/-- The text of the buffer: none is stored when there is no data. -/
def StringBuf.text (buf : StringBuf) : List UInt8 :=
  buf.data.elim [] fun data => (CString.ofData data).bytes

/-- The greatest size that a buffer can have. -/
def MAX_SIZE : Nat := 2 ^ 31 - EXPAND_SIZE

/-- The least size in whole steps. -/
def roundup (n : Nat) : Nat := (n + 31) / 32 * 32

/-- A buffer with a text without NUL in the room it needs. -/
structure StringBuf.Stores (buf : StringBuf) (text : List UInt8) : Prop where
  length : buf.length = text.length
  size : buf.size = roundup (text.length + 1)
  data : buf.data = some (text ++ zeros (buf.size - text.length))
  bound : buf.size ≤ MAX_SIZE
  nonul : 0 ∉ text

/-- The state of a buffer behind a text: nothing is allocated at first. -/
inductive StringBuf.Holds (buf : StringBuf) : List UInt8 → Prop where
  | empty (h : buf = DeclareStringBuf) : buf.Holds []
  | stores {text : List UInt8} (h : buf.Stores text) : buf.Holds text

@[simp] theorem length_zeros (n : Nat) : (zeros n).length = n := List.length_replicate

theorem drop_zeros (n m : Nat) : (zeros n).drop m = zeros (n - m) := List.drop_replicate

theorem cons_zeros {n : Nat} (h : 0 < n) : 0 :: zeros (n - 1) = zeros n := by
  obtain ⟨m, rfl⟩ : ∃ m, n = m + 1 := ⟨n - 1, by omega⟩
  rfl

theorem text_append_zeros {text : List UInt8} {n : Nat} (hnonul : 0 ∉ text) (hn : 0 < n) :
    (CString.ofData (text ++ zeros n)).bytes = text := by
  rw [← cons_zeros hn]
  exact congrArg CString.bytes (CString.ofData_append_nul ⟨text, hnonul⟩ _)

theorem roundup_mod (n : Nat) : roundup n % 32 = 0 := by
  unfold roundup
  omega

theorem le_roundup (n : Nat) : n ≤ roundup n := by
  unfold roundup
  omega

theorem roundup_le {n m : Nat} (h : n ≤ m) (hm : m % 32 = 0) : roundup n ≤ m := by
  unfold roundup
  omega

theorem roundup_mono {n m : Nat} (h : n ≤ m) : roundup n ≤ roundup m :=
  roundup_le (h.trans (le_roundup m)) (roundup_mod m)

theorem MAX_SIZE_mod : MAX_SIZE % 32 = 0 := by decide

namespace StringBuf

variable {buf buf' : StringBuf} {text : List UInt8} {min : Nat}

theorem Holds.length (h : buf.Holds text) : buf.length = text.length := by
  cases h with
  | empty h =>
    rw [h]
    rfl
  | stores h => exact h.length

theorem Holds.nonul (h : buf.Holds text) : 0 ∉ text := by
  cases h with
  | empty h => simp
  | stores h => exact h.nonul

theorem Holds.size_mod (h : buf.Holds text) : buf.size % 32 = 0 := by
  cases h with
  | empty h => simp [h, DeclareStringBuf]
  | stores h =>
    rw [h.size]
    exact roundup_mod _

theorem Holds.size_le (h : buf.Holds text) : buf.size ≤ roundup (text.length + 1) := by
  cases h with
  | empty h => simp [h, DeclareStringBuf]
  | stores h => exact h.size.le

theorem Holds.bound (h : buf.Holds text) : buf.size ≤ MAX_SIZE := by
  cases h with
  | empty h => simp [h, DeclareStringBuf]
  | stores h => exact h.bound

end StringBuf

theorem expand_loop_ok {size bufsize : Nat} (hmod : bufsize % 32 = 0) (hle : bufsize ≤ roundup size)
    (hsize : size ≤ MAX_SIZE) : expand_loop size bufsize = .ok (roundup size) := by
  have hmax : roundup size ≤ MAX_SIZE := roundup_le hsize MAX_SIZE_mod
  fun_induction expand_loop size bufsize with
  | case1 bufsize hlt hint ih =>
    apply ih
    · rw [EXPAND_SIZE]
      omega
    · have hround := le_roundup size
      have hround_mod := roundup_mod size
      rw [EXPAND_SIZE]
      omega
  | case2 bufsize hlt hint =>
    have hround := le_roundup size
    have hround_mod := roundup_mod size
    rw [EXPAND_SIZE, INT_MAX] at hint
    rw [MAX_SIZE, EXPAND_SIZE] at hmax
    omega
  | case3 bufsize hlt =>
    have hround : roundup size ≤ bufsize := roundup_le (by omega) hmod
    rw [Nat.le_antisymm hround hle]

theorem expand_loop_bound {size bufsize n : Nat} (h : expand_loop size bufsize = .ok n)
    (hmod : bufsize % 32 = 0) (hmax : bufsize ≤ MAX_SIZE) : size ≤ MAX_SIZE := by
  fun_induction expand_loop size bufsize with
  | case1 bufsize hlt hint ih =>
    apply ih h
    · rw [EXPAND_SIZE]
      omega
    · rw [EXPAND_SIZE, INT_MAX] at hint
      rw [MAX_SIZE, EXPAND_SIZE]
      omega
  | case2 bufsize hlt hint => cases h
  | case3 bufsize hlt => omega

/-- Copying a stored text into a larger block keeps it. -/
theorem strcpy_zeros {text : List UInt8} {size n : Nat} (hnonul : 0 ∉ text) (hn : 0 < n)
    (hsize : text.length < size) :
    strcpy (zeros size) (text ++ zeros n) = .ok (text ++ zeros (size - text.length)) := by
  have hlt : text.length < (text ++ zeros n).length := by simpa using hn
  have hroom : text.length < (zeros size).length := by simpa using hsize
  have hdrop : 0 :: (zeros size).drop (text.length + 1) = zeros (size - text.length) := by
    rw [drop_zeros, ← Nat.sub_sub]
    apply cons_zeros
    omega
  rw [strcpy, text_append_zeros hnonul hn]
  rw [if_pos ⟨hlt, hroom⟩, hdrop]

section expand

variable {buf buf' : StringBuf} {text : List UInt8} {min : Nat}

theorem expand_ok (h : buf.Holds text) (hmax : text.length + min + 1 ≤ MAX_SIZE) :
    ∃ buf', expand buf min = .ok buf' ∧ buf'.length = text.length ∧
      buf'.size = roundup (text.length + min + 1) ∧
      buf'.data = some (text ++ zeros (buf'.size - text.length)) := by
  have hsize : addInt (buf.length + min) 1 = .ok (text.length + min + 1) := by
    rw [h.length, addInt_eq_ok_iff]
    rw [MAX_SIZE, EXPAND_SIZE] at hmax
    rw [INT_MAX]
    omega
  have hle : buf.size ≤ roundup (text.length + min + 1) :=
    h.size_le.trans (roundup_mono (by omega))
  have hloop := expand_loop_ok h.size_mod hle hmax
  have hround := le_roundup (text.length + min + 1)
  have hlength := h.length
  rw [expand, hsize, ok_bind, hloop, ok_bind]
  cases h with
  | empty h =>
    subst h
    exact ⟨_, rfl, rfl, rfl, rfl⟩
  | stores h =>
    have hroom := le_roundup (text.length + 1)
    have hsize := h.size
    rw [h.data, move, strcpy_zeros h.nonul (by omega) (by omega)]
    exact ⟨_, rfl, hlength, rfl, rfl⟩

theorem length_of_expand (h : expand buf min = .ok buf') : buf'.length = buf.length := by
  obtain ⟨size, _, h⟩ := bind_eq_ok_iff.mp h
  obtain ⟨bufsize, _, h⟩ := bind_eq_ok_iff.mp h
  obtain ⟨data, _, h⟩ := bind_eq_ok_iff.mp h
  cases h
  rfl

theorem bound_of_expand (hbuf : buf.Holds text) (h : expand buf min = .ok buf') :
    text.length + min + 1 ≤ MAX_SIZE := by
  obtain ⟨size, hsize, h⟩ := bind_eq_ok_iff.mp h
  obtain ⟨bufsize, hloop, _⟩ := bind_eq_ok_iff.mp h
  obtain ⟨_, rfl⟩ := addInt_eq_ok_iff.mp hsize
  rw [hbuf.length] at hloop
  exact expand_loop_bound hloop hbuf.size_mod hbuf.bound

/-- Whether or not the buffer has to grow, it has the least size for the text
and `min` more characters. -/
theorem available_ok (h : buf.Holds text) (hmin : 0 < min)
    (hmax : text.length + min + 1 ≤ MAX_SIZE) :
    ∃ buf', available buf min = .ok (buf'.left - min, buf') ∧
      buf'.length = text.length ∧ buf'.size = roundup (text.length + min + 1) ∧
      buf'.data = some (text ++ zeros (buf'.size - text.length)) := by
  by_cases hleft : buf.left < min
  · obtain ⟨buf', hexpand, hlength, hsize, hdata⟩ := expand_ok h hmax
    refine ⟨buf', ?_, hlength, hsize, hdata⟩
    rw [available, if_pos hleft, hexpand, ok_bind]
  · refine ⟨buf, ?_, h.length, ?_, ?_⟩
    · rw [available, if_neg hleft]
    · have hsize := h.size_le
      have hlength := h.length
      rw [StringBuf.left] at hleft
      apply Nat.le_antisymm
      · exact hsize.trans (roundup_mono (by omega))
      · exact roundup_le (by omega) h.size_mod
    · cases h with
      | empty h =>
        rw [h] at hleft
        simp only [StringBuf.left, DeclareStringBuf] at hleft
        omega
      | stores h => exact h.data

theorem length_of_available {r : Int × StringBuf} (h : available buf min = .ok r) :
    r.2.length = buf.length := by
  rw [available] at h
  split at h
  · obtain ⟨grown, hgrown, h⟩ := bind_eq_ok_iff.mp h
    cases h
    exact length_of_expand hgrown
  · cases h
    rfl

theorem bound_of_available {r : Int × StringBuf} (hbuf : buf.Holds text)
    (h : available buf min = .ok r) : text.length + min + 1 ≤ MAX_SIZE := by
  rw [available] at h
  split at h
  · obtain ⟨grown, hgrown, _⟩ := bind_eq_ok_iff.mp h
    exact bound_of_expand hbuf hgrown
  · next hleft =>
    have hlength := hbuf.length
    have hbound := hbuf.bound
    rw [StringBuf.left] at hleft
    omega

end expand

end koala.stringbuf
