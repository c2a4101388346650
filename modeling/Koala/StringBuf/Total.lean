import Koala.Post
import Koala.StringBuf.Exact

namespace koala.stringbuf

set_option linter.style.nameCheck false

/-- A buffer with a text and room for its NUL, and more room where something
that was lost has made it grow. -/
structure StringBuf.Room (buf : StringBuf) (text : List UInt8) : Prop where
  length : buf.length = text.length
  room : text.length < buf.size
  data : buf.data = some (text ++ zeros (buf.size - text.length))
  bound : buf.size ≤ INT_MAX
  nonul : 0 ∉ text

/-- The state of a buffer behind any calls. -/
inductive StringBuf.Sound (buf : StringBuf) : List UInt8 → Prop where
  | empty (h : buf = DeclareStringBuf) : buf.Sound []
  | room {text : List UInt8} (h : buf.Room text) : buf.Sound text

/-- A function that can only fail by an overflow, and only appends. -/
structure Total (f : StringBuf → Res StringBuf) : Prop where
  safe {buf : StringBuf} {text : List UInt8} (h : buf.Sound text) :
    Safe (fun buf' => ∃ more, buf'.Sound (text ++ more)) (f buf)

theorem Total.spells {f : StringBuf → Res StringBuf} (hf : Total f) :
    Safe (fun buf => ∃ text, buf.Sound text) (f DeclareStringBuf) :=
  (hf.safe (.empty rfl)).mono fun _ ⟨_, hmore⟩ => ⟨_, hmore⟩

theorem Total.nil : Total .ok where
  safe h := .ok ⟨[], by rwa [List.append_nil]⟩

theorem Total.bind {f g : StringBuf → Res StringBuf} (hf : Total f) (hg : Total g) :
    Total (fun buf => f buf >>= g) := by
  refine ⟨fun h => (hf.safe h).bind ?_⟩
  rintro mid - ⟨more, hmid⟩
  refine (hg.safe hmid).mono ?_
  rintro buf' ⟨more', hbuf'⟩
  exact ⟨more ++ more', by rwa [← List.append_assoc]⟩

section available

variable {buf buf' : StringBuf} {text : List UInt8} {min : Nat}

theorem expand_loop_safe (size bufsize : Nat) (hmax : bufsize ≤ INT_MAX) :
    Safe (fun n => size ≤ n ∧ n ≤ INT_MAX) (expand_loop size bufsize) := by
  fun_induction expand_loop size bufsize with
  | case1 bufsize hlt hint ih => exact ih hint
  | case2 bufsize hlt hint => exact .overflow
  | case3 bufsize hlt => exact .ok ⟨by omega, hmax⟩

theorem StringBuf.Sound.size_le (h : buf.Sound text) : buf.size ≤ INT_MAX := by
  cases h with
  | empty h =>
    subst h
    exact Nat.zero_le _
  | room h => exact h.bound

theorem StringBuf.Sound.length (h : buf.Sound text) : buf.length = text.length := by
  cases h with
  | empty h =>
    subst h
    rfl
  | room h => exact h.length

theorem StringBuf.Sound.nonul (h : buf.Sound text) : 0 ∉ text := by
  cases h with
  | empty h => exact List.not_mem_nil
  | room h => exact h.nonul

theorem expand_safe (h : buf.Sound text) :
    Safe (fun buf' => buf'.Room text ∧ text.length + min + 1 ≤ buf'.size) (expand buf min) := by
  refine (Safe.addInt _ _).bind ?_
  rintro size - rfl
  refine (expand_loop_safe _ _ h.size_le).bind ?_
  rintro bufsize - ⟨hsize, hbound⟩
  have hlength := h.length
  rw [hlength] at hsize
  cases h with
  | empty h =>
    subst h
    exact .ok ⟨⟨rfl, by simp only [List.length_nil]; omega, rfl, hbound, List.not_mem_nil⟩, hsize⟩
  | room h =>
    have hroom := h.room
    rw [h.data, move, strcpy_zeros h.nonul (by omega) (by omega)]
    exact .ok ⟨⟨h.length, by show _ < bufsize; omega, rfl, hbound, h.nonul⟩, hsize⟩

theorem available_safe (h : buf.Sound text) (hmin : 0 < min) :
    Safe (fun r : Int × StringBuf => r.2.Room text ∧ r.1 = r.2.left - min) (available buf min) := by
  rw [available]
  split
  · refine (expand_safe h).bind ?_
    rintro buf' - ⟨hroom, _⟩
    exact .ok ⟨hroom, rfl⟩
  · next hleft =>
    cases h with
    | empty h =>
      subst h
      simp only [StringBuf.left, DeclareStringBuf] at hleft
      omega
    | room h => exact .ok ⟨h, rfl⟩

end available

/-- The lengths of the strings at hand fit an `int`. -/
def Str.Short (s : Str) : Prop := s.bytes.length ≤ INT_MAX

theorem __StringBuf_Append_total {s : Str} (hs : s.Short) : Total (__StringBuf_Append · s) := by
  refine ⟨fun {buf text} h => ?_⟩
  cases s with
  | none => exact Total.nil.safe h
  | some s =>
    have hint : AtomString_Length (some s) = s.bytes.length := by
      apply AtomString_Length_eq
      rw [Str.Short, INT_MAX] at hs
      exact Nat.lt_of_le_pred (by decide) hs
    by_cases hlen : 0 < AtomString_Length (some s)
    · show Safe _ (__StringBuf_Append buf (some s))
      rw [__StringBuf_Append_some hlen, hint, Int.toNat_natCast]
      refine (available_safe h (by omega)).bind ?_
      rintro ⟨left, mid⟩ - ⟨hmid, hleft⟩
      dsimp only at hmid hleft ⊢
      split
      · exact .ok ⟨[], by rw [List.append_nil]; exact .room hmid⟩
      · next hpos =>
        have hlength := hmid.length
        have hroom : s.bytes.length < mid.size - text.length := by
          rw [hleft, StringBuf.left, hlength] at hpos
          omega
        simp only [append, hmid.data]
        rw [strcat_zeros hmid.nonul hroom, ok_bind]
        refine .ok ⟨s.bytes, .room ⟨?_, ?_, ?_, hmid.bound, ?_⟩⟩
        · simp only [hlength, List.length_append]
        · simp only [List.length_append]
          omega
        · simp only [List.length_append, Nat.sub_sub]
        · simp only [List.mem_append, not_or]
          exact ⟨hmid.nonul, s.nonul⟩
    · show Safe _ (__StringBuf_Append buf (some s))
      rw [__StringBuf_Append_empty (Int.not_lt.mp hlen)]
      exact Total.nil.safe h

theorem __StringBuf_Append_Char_total {ch : UInt8} (hch : ch ≠ 0) :
    Total (__StringBuf_Append_Char · ch) := by
  refine ⟨fun {buf text} h => ?_⟩
  show Safe _ (__StringBuf_Append_Char buf ch)
  rw [__StringBuf_Append_Char_eq]
  refine (available_safe h Nat.one_pos).bind ?_
  rintro ⟨left, mid⟩ - ⟨hmid, hleft⟩
  dsimp only at hmid hleft ⊢
  split
  · exact .ok ⟨[], by rw [List.append_nil]; exact .room hmid⟩
  · next hpos =>
    have hlength := hmid.length
    have hroom : text.length + 1 < mid.size := by
      rw [hleft, StringBuf.left, hlength] at hpos
      omega
    have hdata : text.length < (text ++ zeros (mid.size - text.length)).length := by
      rw [List.length_append, length_zeros]
      omega
    simp only [put_char, hmid.data, hlength]
    rw [if_pos hdata, set_zeros (by omega)]
    refine .ok ⟨[ch], .room ⟨?_, ?_, ?_, hmid.bound, ?_⟩⟩
    · simp only [List.length_append, List.length_singleton]
    · simp only [List.length_append, List.length_singleton]
      omega
    · simp only [List.length_append, List.length_singleton, Nat.sub_sub]
    · simp only [List.mem_append, List.mem_singleton, not_or]
      exact ⟨hmid.nonul, hch.symm⟩

theorem __StringBuf_Format_total {fmt : List UInt8} {args : List Str} (hfmt : 0 ∉ fmt)
    (hargs : fmt.count HASH ≤ args.length) (hshort : ∀ s ∈ args, s.Short) :
    Total (__StringBuf_Format · fmt args) := by
  induction fmt generalizing args with
  | nil => exact Total.nil
  | cons ch fmt ih =>
    rw [List.mem_cons, not_or] at hfmt
    by_cases hch : ch = HASH
    · subst hch
      rw [List.count_cons_self] at hargs
      cases args with
      | nil => cases hargs
      | cons s args =>
        have hrest := ih hfmt.2 (Nat.le_of_succ_le_succ hargs)
          fun t ht => hshort t (List.mem_cons_of_mem s ht)
        simp only [__StringBuf_Format, if_true]
        exact (__StringBuf_Append_total (hshort s List.mem_cons_self)).bind hrest
    · rw [List.count_cons_of_ne hch] at hargs
      simp only [__StringBuf_Format, if_neg hch]
      exact (__StringBuf_Append_Char_total (Ne.symm hfmt.1)).bind (ih hfmt.2 hargs hshort)

/-- Everything the calls were given, in order, with each `#` of a format replaced
by its argument. -/
def given (calls : List Call) : List UInt8 := (calls.flatMap Call.pieces).flatten

/-- The data of a buffer is the text of some bytes, its length theirs, and what
is allocated has room for the terminating NUL. -/
structure StringBuf.Exact (buf : StringBuf) (bytes : List UInt8) : Prop where
  text : buf.text = bytes
  length : buf.length = bytes.length
  room : ∀ data, buf.data = some data → data.length = buf.size ∧ buf.length < buf.size

theorem StringBuf.Holds.exact {buf : StringBuf} {text : List UInt8} (h : buf.Holds text) :
    buf.Exact text := by
  cases h with
  | empty h =>
    subst h
    refine ⟨rfl, rfl, ?_⟩
    intro data hdata
    cases hdata
  | stores h =>
    have hroom := le_roundup (text.length + 1)
    have hsize := h.size
    have hlength := h.length
    refine ⟨?_, hlength, ?_⟩
    · rw [StringBuf.text, h.data]
      exact text_append_zeros h.nonul (by omega)
    · intro data hdata
      rw [h.data] at hdata
      cases hdata
      rw [List.length_append, length_zeros]
      omega

theorem StringBuf.text_nonul (buf : StringBuf) : 0 ∉ buf.text := by
  rw [StringBuf.text]
  cases buf.data with
  | none => exact List.not_mem_nil
  | some data => exact (CString.ofData data).nonul

theorem run_puts (calls : List Call) : Puts (run calls) (calls.flatMap Call.pieces) := by
  induction calls with
  | nil => exact Puts.nil
  | cons c calls ih => exact c.exec_puts.bind ih

theorem Str.bytes_nonul (s : Str) : 0 ∉ s.bytes := by
  cases s with
  | none => exact List.not_mem_nil
  | some s => exact s.nonul

theorem format_pieces_nonul {fmt : List UInt8} {args : List Str} (hfmt : 0 ∉ fmt) :
    0 ∉ (format_pieces fmt args).flatten := by
  induction fmt generalizing args with
  | nil => exact List.not_mem_nil
  | cons ch fmt ih =>
    rw [List.mem_cons, not_or] at hfmt
    by_cases hch : ch = HASH
    · cases args with
      | nil => simp [format_pieces, hch]
      | cons s args =>
        simp only [format_pieces, if_pos hch, List.flatten_cons, List.mem_append, not_or]
        exact ⟨s.bytes_nonul, ih hfmt.2⟩
    · simp only [format_pieces, if_neg hch, List.flatten_cons, List.mem_append, not_or,
        List.mem_singleton]
      exact ⟨hfmt.1, ih hfmt.2⟩

theorem Call.nul_mem_pieces_iff (c : Call) : 0 ∈ c.pieces.flatten ↔ c = .Append_Char 0 := by
  cases c with
  | Append s => simpa [Call.pieces] using s.bytes_nonul
  | Append_CStr s => simpa [Call.pieces] using Str.bytes_nonul s
  | Append_Char ch => simp [Call.pieces, eq_comm]
  | Format fmt args hargs => simpa [Call.pieces] using format_pieces_nonul fmt.nonul

theorem nul_mem_given_iff (calls : List Call) : 0 ∈ given calls ↔ .Append_Char 0 ∈ calls := by
  induction calls with
  | nil => simp [given]
  | cons c calls ih =>
    have hcons : given (c :: calls) = c.pieces.flatten ++ given calls := by
      rw [given, List.flatMap_cons, List.flatten_append]
      rfl
    rw [hcons, List.mem_append, c.nul_mem_pieces_iff, ih, List.mem_cons, eq_comm]

/-- The buffer is exact when no NUL is appended as a character and every piece
fits, and in no other case. -/
theorem StringBuf.exact_iff (calls : List Call) :
    (∃ buf, run calls DeclareStringBuf = .ok buf ∧ buf.Exact (given calls)) ↔
      .Append_Char 0 ∉ calls ∧ AllFit 0 (calls.flatMap Call.pieces) := by
  have hempty : DeclareStringBuf.Holds [] := .empty rfl
  rw [← nul_mem_given_iff]
  constructor
  · rintro ⟨buf, hrun, hexact⟩
    have hnonul : 0 ∉ given calls := hexact.text ▸ buf.text_nonul
    refine ⟨hnonul, ?_⟩
    by_contra hfit
    have hlt := (run_puts calls).loses hempty hnonul hfit hrun
    have hlength := hexact.length
    rw [given] at hlength
    rw [hempty.length, List.length_nil] at hlt
    omega
  · rintro ⟨hnonul, hfit⟩
    obtain ⟨buf, hrun, hholds⟩ := (run_puts calls).appends hempty hnonul hfit
    exact ⟨buf, hrun, hholds.exact⟩

/-- A path of 31 characters. -/
def long_path : CString := ⟨List.replicate 31 'k'.toUInt8, by decide⟩

/-- A string of 31 characters is not appended at all. -/
theorem StringBuf.long_path_lost :
    ¬ ∃ buf, run [.Append (some long_path)] DeclareStringBuf = .ok buf ∧
      buf.Exact (given [.Append (some long_path)]) := by
  rintro ⟨buf, hrun, hexact⟩
  have hnonul : 0 ∉ given [.Append (some long_path)] := hexact.text ▸ buf.text_nonul
  have hfit : ¬ AllFit 0 [long_path.bytes] := by
    rw [allFit_singleton]
    decide
  have hlt := (run_puts _).loses (.empty rfl) hnonul hfit hrun
  have hlength := hexact.length
  rw [given] at hlength
  rw [DeclareStringBuf, Nat.zero_add] at hlt
  omega

/-- The text of the repository's own test fits. -/
example : AllFit 0 [List.replicate 32 'h'.toUInt8] := by
  rw [allFit_singleton]
  decide

end koala.stringbuf
