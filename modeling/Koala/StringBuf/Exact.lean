import Koala.StringBuf.Model

namespace koala.stringbuf

set_option linter.style.nameCheck false

/-- A piece that is put behind `n` characters keeps a byte for its NUL, and one
more, in the size of the buffer. -/
def Fits (n : Nat) (piece : List UInt8) : Prop :=
  piece ≠ [] → (n + piece.length + 1) % 32 ≠ 0 ∧ n + piece.length + 1 ≤ MAX_SIZE

/-- Every piece fits behind the pieces before it. -/
def AllFit : Nat → List (List UInt8) → Prop
  | _, [] => True
  | n, piece :: pieces => Fits n piece ∧ AllFit (n + piece.length) pieces

instance (n : Nat) (piece : List UInt8) : Decidable (Fits n piece) :=
  inferInstanceAs (Decidable (_ → _))

theorem allFit_append {n : Nat} {ps qs : List (List UInt8)} :
    AllFit n (ps ++ qs) ↔ AllFit n ps ∧ AllFit (n + ps.flatten.length) qs := by
  induction ps generalizing n with
  | nil => simp [AllFit]
  | cons p ps ih => simp [AllFit, ih, and_assoc, Nat.add_assoc]

theorem allFit_singleton {n : Nat} {piece : List UInt8} : AllFit n [piece] ↔ Fits n piece := by
  simp [AllFit]

/-- A function puts some pieces into a buffer: when they fit it appends them,
it never makes the text longer than they are, and a piece that does not fit is
lost for good. -/
structure Puts (f : StringBuf → Res StringBuf) (pieces : List (List UInt8)) : Prop where
  appends {buf : StringBuf} {text : List UInt8} (hbuf : buf.Holds text)
    (hnonul : 0 ∉ pieces.flatten) (hfit : AllFit text.length pieces) :
    ∃ buf', f buf = .ok buf' ∧ buf'.Holds (text ++ pieces.flatten)
  grows {buf buf' : StringBuf} (h : f buf = .ok buf') :
    buf'.length ≤ buf.length + pieces.flatten.length
  loses {buf buf' : StringBuf} {text : List UInt8} (hbuf : buf.Holds text)
    (hnonul : 0 ∉ pieces.flatten) (hfit : ¬ AllFit text.length pieces) (h : f buf = .ok buf') :
    buf'.length < buf.length + pieces.flatten.length

theorem Puts.nil : Puts .ok [] where
  appends hbuf _ _ := ⟨_, rfl, by simpa using hbuf⟩
  grows h := by
    cases h
    exact Nat.le_add_right _ _
  loses _ _ hfit _ := absurd trivial hfit

/-- An empty piece is not looked at. -/
theorem Puts.empty : Puts .ok [[]] where
  appends hbuf _ _ := ⟨_, rfl, by simpa using hbuf⟩
  grows h := by
    cases h
    exact Nat.le_add_right _ _
  loses _ _ hfit _ := absurd (allFit_singleton.mpr fun h => absurd rfl h) hfit

theorem Puts.bind {f g : StringBuf → Res StringBuf} {ps qs : List (List UInt8)} (hf : Puts f ps)
    (hg : Puts g qs) : Puts (fun buf => f buf >>= g) (ps ++ qs) where
  appends {buf text} hbuf hnonul hfit := by
    rw [List.flatten_append, List.mem_append, not_or] at hnonul
    obtain ⟨hps, hqs⟩ := allFit_append.mp hfit
    obtain ⟨mid, hmid, hmid_holds⟩ := hf.appends hbuf hnonul.1 hps
    rw [← List.length_append] at hqs
    obtain ⟨buf', hbuf', hholds⟩ := hg.appends hmid_holds hnonul.2 hqs
    refine ⟨buf', ?_, ?_⟩
    · rw [hmid, ok_bind, hbuf']
    · rwa [List.flatten_append, ← List.append_assoc]
  grows {buf buf'} h := by
    obtain ⟨mid, hmid, h⟩ := bind_eq_ok_iff.mp h
    have hle := hf.grows hmid
    have hle' := hg.grows h
    rw [List.flatten_append, List.length_append]
    omega
  loses {buf buf' text} hbuf hnonul hfit h := by
    obtain ⟨mid, hmid, h⟩ := bind_eq_ok_iff.mp h
    rw [List.flatten_append, List.mem_append, not_or] at hnonul
    rw [List.flatten_append, List.length_append]
    rw [allFit_append, not_and_or] at hfit
    by_cases hps : AllFit text.length ps
    · have hqs := hfit.resolve_left (not_not_intro hps)
      obtain ⟨mid', hmid', hholds⟩ := hf.appends hbuf hnonul.1 hps
      rw [hmid] at hmid'
      cases hmid'
      rw [← List.length_append] at hqs
      have hlt := hg.loses hholds hnonul.2 hqs h
      have hle := hf.grows hmid
      omega
    · have hlt := hf.loses hbuf hnonul.1 hps hmid
      have hle := hg.grows h
      omega

theorem AtomString_Length_le (s : CString) :
    (AtomString_Length (some s)).toNat ≤ s.bytes.length := by
  rw [AtomString_Length, BitVec.toInt_eq_toNat_cond]
  have hmod := Nat.mod_le s.bytes.length (2 ^ 32)
  simp only [BitVec.toNat_ofNat]
  split <;> omega

theorem AtomString_Length_eq {s : CString} (h : s.bytes.length < 2 ^ 31) :
    AtomString_Length (some s) = s.bytes.length := by
  rw [AtomString_Length, BitVec.toInt_eq_toNat_cond]
  have hmod : s.bytes.length % 2 ^ 32 = s.bytes.length := Nat.mod_eq_of_lt (by omega)
  simp only [BitVec.toNat_ofNat, hmod]
  split <;> omega

/-- The string is written behind the text when room for it and its NUL is
there. -/
theorem strcat_zeros {text : List UInt8} {s : CString} {n : Nat} (hnonul : 0 ∉ text)
    (hn : s.bytes.length < n) :
    strcat (text ++ zeros n) s =
      .ok (text ++ s.bytes ++ zeros (n - s.bytes.length)) := by
  have hlt : (text ++ s.bytes).length < (text ++ zeros n).length := by simpa using hn
  have hdrop : (text ++ zeros n).drop ((text ++ s.bytes).length + 1) =
      zeros (n - s.bytes.length - 1) := by
    rw [List.length_append, Nat.add_assoc, List.drop_append, drop_zeros]
    rw [List.drop_of_length_le (by omega), List.nil_append]
    congr 1
    omega
  rw [strcat, text_append_zeros hnonul (by omega)]
  rw [if_pos hlt, hdrop, cons_zeros (by omega)]

/-- Room that is not used up in whole steps is left over. -/
theorem left_pos_iff {buf : StringBuf} {n min : Nat} (hlength : buf.length = n)
    (hsize : buf.size = roundup (n + min + 1)) :
    0 < buf.left - min ↔ (n + min + 1) % 32 ≠ 0 := by
  have hle := le_roundup (n + min + 1)
  have hmod := roundup_mod (n + min + 1)
  have hstep : roundup (n + min + 1) < n + min + 1 + 32 := by
    rw [roundup]
    omega
  rw [StringBuf.left, hlength, hsize]
  omega

section append

variable {buf buf' : StringBuf} {text : List UInt8} {s : CString} {len : Nat}

theorem __StringBuf_Append_some (hlen : 0 < AtomString_Length (some s)) :
    __StringBuf_Append buf (some s) =
      available buf (AtomString_Length (some s)).toNat >>= fun r =>
        if r.1 ≤ 0 then .ok r.2 else append r.2 s (AtomString_Length (some s)).toNat := by
  simp only [__StringBuf_Append, if_neg (Int.not_le.mpr hlen)]

theorem __StringBuf_Append_empty (hlen : AtomString_Length (some s) ≤ 0) :
    __StringBuf_Append buf (some s) = .ok buf := by
  simp only [__StringBuf_Append, if_pos hlen]

theorem length_of_append (h : append buf s len = .ok buf') : buf'.length = buf.length + len := by
  rw [append] at h
  split at h
  · cases h
  · obtain ⟨data, _, h⟩ := bind_eq_ok_iff.mp h
    cases h
    rfl

theorem __StringBuf_Append_grows (h : __StringBuf_Append buf (some s) = .ok buf') :
    buf'.length ≤ buf.length + s.bytes.length := by
  have hle := AtomString_Length_le s
  by_cases hlen : 0 < AtomString_Length (some s)
  · rw [__StringBuf_Append_some hlen] at h
    obtain ⟨r, havail, h⟩ := bind_eq_ok_iff.mp h
    have hmid := length_of_available havail
    split at h
    · cases h
      omega
    · have happend := length_of_append h
      omega
  · rw [__StringBuf_Append_empty (by omega)] at h
    cases h
    omega

/-- A string that fits is appended. -/
theorem __StringBuf_Append_appends (hbuf : buf.Holds text) (hs : s.bytes ≠ [])
    (hfit : Fits text.length s.bytes) :
    ∃ buf', __StringBuf_Append buf (some s) = .ok buf' ∧ buf'.Holds (text ++ s.bytes) := by
  obtain ⟨hmod, hmax⟩ := hfit hs
  have hpos : 0 < s.bytes.length := List.length_pos_iff.mpr hs
  have hint : AtomString_Length (some s) = s.bytes.length := by
    apply AtomString_Length_eq
    rw [MAX_SIZE, EXPAND_SIZE] at hmax
    omega
  obtain ⟨mid, havail, hlength, hsize, hdata⟩ := available_ok hbuf hpos hmax
  have hleft : 0 < mid.left - s.bytes.length := (left_pos_iff hlength hsize).mpr hmod
  have hroom : s.bytes.length < mid.size - text.length := by
    rw [StringBuf.left, hlength] at hleft
    omega
  have hnonul := hbuf.nonul
  rw [__StringBuf_Append_some (by omega)]
  rw [hint, Int.toNat_natCast, havail, ok_bind, if_neg (Int.not_le.mpr hleft)]
  simp only [append, hdata]
  rw [strcat_zeros hnonul hroom, ok_bind]
  refine ⟨_, rfl, .stores ⟨?_, ?_, ?_, ?_, ?_⟩⟩
  · simp only [hlength, List.length_append]
  · simp only [hsize, List.length_append]
  · simp only [List.length_append, Nat.sub_sub]
  · simp only [hsize]
    exact roundup_le hmax MAX_SIZE_mod
  · simp only [List.mem_append, not_or]
    exact ⟨hnonul, s.nonul⟩

/-- A string that does not fit is dropped, or only counted in part. -/
theorem __StringBuf_Append_loses (hbuf : buf.Holds text) (hfit : ¬ Fits text.length s.bytes)
    (h : __StringBuf_Append buf (some s) = .ok buf') :
    buf'.length < buf.length + s.bytes.length := by
  have hle := AtomString_Length_le s
  rw [Fits, Classical.not_imp] at hfit
  obtain ⟨hs, hfit⟩ := hfit
  have hpos : 0 < s.bytes.length := List.length_pos_iff.mpr hs
  by_cases hlen : 0 < AtomString_Length (some s)
  · rw [__StringBuf_Append_some hlen] at h
    obtain ⟨r, havail, h⟩ := bind_eq_ok_iff.mp h
    have hmid := length_of_available havail
    split at h
    · cases h
      omega
    · next hleft =>
      have hbound := bound_of_available hbuf havail
      have happend := length_of_append h
      have hne : (AtomString_Length (some s)).toNat ≠ s.bytes.length := by
        intro heq
        rw [heq] at hbound havail
        obtain ⟨mid', havail', hlength, hsize, _⟩ := available_ok hbuf hpos hbound
        rw [havail] at havail'
        cases havail'
        have hmod := (left_pos_iff hlength hsize).mp (Int.not_le.mp hleft)
        exact hfit ⟨hmod, hbound⟩
      omega
  · rw [__StringBuf_Append_empty (by omega)] at h
    cases h
    omega

end append

section char

variable {buf buf' : StringBuf} {text : List UInt8} {ch : UInt8}

theorem __StringBuf_Append_Char_eq :
    __StringBuf_Append_Char buf ch =
      available buf 1 >>= fun r => if r.1 ≤ 0 then .ok r.2 else put_char r.2 ch := rfl

theorem length_of_put_char (h : put_char buf ch = .ok buf') : buf'.length = buf.length + 1 := by
  rw [put_char] at h
  split at h
  · cases h
  · split at h
    · cases h
      rfl
    · cases h

theorem __StringBuf_Append_Char_grows (h : __StringBuf_Append_Char buf ch = .ok buf') :
    buf'.length ≤ buf.length + 1 := by
  rw [__StringBuf_Append_Char_eq] at h
  obtain ⟨r, havail, h⟩ := bind_eq_ok_iff.mp h
  have hmid := length_of_available havail
  split at h
  · cases h
    omega
  · have hput := length_of_put_char h
    omega

/-- Storing a character in front of zeros appends it. -/
theorem set_zeros {n : Nat} (hn : 0 < n) :
    (text ++ zeros n).set text.length ch = text ++ [ch] ++ zeros (n - 1) := by
  rw [List.set_append_right _ _ (Nat.le_refl _), Nat.sub_self, ← cons_zeros hn]
  rw [List.set_cons_zero, List.append_assoc]
  rfl

theorem __StringBuf_Append_Char_appends (hbuf : buf.Holds text) (hch : ch ≠ 0)
    (hfit : Fits text.length [ch]) :
    ∃ buf', __StringBuf_Append_Char buf ch = .ok buf' ∧ buf'.Holds (text ++ [ch]) := by
  obtain ⟨hmod, hmax⟩ := hfit (List.cons_ne_nil _ _)
  obtain ⟨mid, havail, hlength, hsize, hdata⟩ := available_ok hbuf Nat.one_pos hmax
  have hleft : 0 < mid.left - (1 : Nat) := (left_pos_iff hlength hsize).mpr hmod
  have hround := le_roundup (text.length + 1 + 1)
  have hnonul := hbuf.nonul
  have hroom : text.length < (text ++ zeros (mid.size - text.length)).length := by
    rw [List.length_append, length_zeros]
    omega
  rw [__StringBuf_Append_Char_eq, havail, ok_bind, if_neg (Int.not_le.mpr hleft)]
  simp only [put_char, hdata, hlength]
  rw [if_pos hroom, set_zeros (by omega)]
  refine ⟨_, rfl, .stores ⟨?_, ?_, ?_, ?_, ?_⟩⟩
  · simp only [List.length_append, List.length_singleton]
  · simp only [hsize, List.length_append, List.length_singleton]
  · simp only [List.length_append, List.length_singleton, Nat.sub_sub]
  · simp only [hsize]
    exact roundup_le hmax MAX_SIZE_mod
  · simp only [List.mem_append, List.mem_singleton, not_or]
    exact ⟨hnonul, hch.symm⟩

theorem __StringBuf_Append_Char_loses (hbuf : buf.Holds text) (hfit : ¬ Fits text.length [ch])
    (h : __StringBuf_Append_Char buf ch = .ok buf') : buf'.length < buf.length + 1 := by
  rw [Fits, Classical.not_imp] at hfit
  rw [__StringBuf_Append_Char_eq] at h
  obtain ⟨r, havail, h⟩ := bind_eq_ok_iff.mp h
  have hmid := length_of_available havail
  split at h
  · cases h
    omega
  · next hleft =>
    have hbound := bound_of_available hbuf havail
    obtain ⟨mid', havail', hlength, hsize, _⟩ := available_ok hbuf Nat.one_pos hbound
    rw [havail] at havail'
    cases havail'
    have hmod := (left_pos_iff hlength hsize).mp (Int.not_le.mp hleft)
    exact absurd ⟨hmod, hbound⟩ hfit.2

end char

/-- The text a string stands for. -/
def Str.bytes (s : Str) : List UInt8 := s.elim [] CString.bytes

@[simp] theorem Str.bytes_some (s : CString) : Str.bytes (some s) = s.bytes := rfl

theorem __StringBuf_Append_puts (s : Str) : Puts (__StringBuf_Append · s) [s.bytes] := by
  cases s with
  | none => exact Puts.empty
  | some s =>
    by_cases hs : s.bytes = []
    · have hlen : AtomString_Length (some s) ≤ 0 := by simp [AtomString_Length, hs]
      have hfun : (__StringBuf_Append · (some s)) = Except.ok := by
        funext buf
        exact __StringBuf_Append_empty hlen
      rw [hfun, Str.bytes_some, hs]
      exact Puts.empty
    · refine ⟨?_, ?_, ?_⟩
      · intro buf text hbuf _ hfit
        simpa using __StringBuf_Append_appends hbuf hs (allFit_singleton.mp hfit)
      · intro buf buf' h
        simpa using __StringBuf_Append_grows h
      · intro buf buf' text hbuf _ hfit h
        simpa using __StringBuf_Append_loses hbuf (allFit_singleton.not.mp hfit) h

theorem __StringBuf_Append_Char_puts (ch : UInt8) :
    Puts (__StringBuf_Append_Char · ch) [[ch]] := by
  refine ⟨?_, ?_, ?_⟩
  · intro buf text hbuf hnonul hfit
    have hch : ch ≠ 0 := by simpa [eq_comm] using hnonul
    simpa using __StringBuf_Append_Char_appends hbuf hch (allFit_singleton.mp hfit)
  · intro buf buf' h
    simpa using __StringBuf_Append_Char_grows h
  · intro buf buf' text hbuf _ hfit h
    simpa using __StringBuf_Append_Char_loses hbuf (allFit_singleton.not.mp hfit) h

/-- A format with an argument in place of each `#`. -/
def format_pieces : List UInt8 → List Str → List (List UInt8)
  | [], _ => []
  | ch :: fmt, args =>
    if ch = HASH then
      match args with
      | [] => []
      | s :: args => s.bytes :: format_pieces fmt args
    else [ch] :: format_pieces fmt args

/-- The text of a format. -/
def substitute : List UInt8 → List (List UInt8) → List UInt8
  | [], _ => []
  | ch :: fmt, args =>
    if ch = HASH then
      match args with
      | [] => []
      | s :: args => s ++ substitute fmt args
    else ch :: substitute fmt args

theorem format_pieces_flatten (fmt : List UInt8) (args : List Str) :
    (format_pieces fmt args).flatten = substitute fmt (args.map Str.bytes) := by
  induction fmt generalizing args with
  | nil => cases args <;> rfl
  | cons ch fmt ih =>
    by_cases hch : ch = HASH
    · cases args with
      | nil => simp [format_pieces, substitute, hch]
      | cons s args => simp [format_pieces, substitute, hch, ih]
    · simp [format_pieces, substitute, hch, ih]

theorem __StringBuf_Format_puts {fmt : List UInt8} {args : List Str}
    (hargs : fmt.count HASH ≤ args.length) :
    Puts (__StringBuf_Format · fmt args) (format_pieces fmt args) := by
  induction fmt generalizing args with
  | nil => exact Puts.nil
  | cons ch fmt ih =>
    by_cases hch : ch = HASH
    · subst hch
      rw [List.count_cons_self] at hargs
      cases args with
      | nil => cases hargs
      | cons s args =>
        have hfmt := ih (Nat.le_of_succ_le_succ hargs)
        simp only [__StringBuf_Format, format_pieces, if_true]
        exact (__StringBuf_Append_puts s).bind hfmt
    · rw [List.count_cons_of_ne (Ne.symm (Ne.symm hch))] at hargs
      simp only [__StringBuf_Format, format_pieces, if_neg hch]
      exact (__StringBuf_Append_Char_puts ch).bind (ih hargs)

/-- What a call appends at once: a string, a character, and for a format its
characters and arguments one by one. -/
def Call.pieces : Call → List (List UInt8)
  | .Append s => [s.bytes]
  | .Append_CStr s => [Str.bytes s]
  | .Append_Char ch => [[ch]]
  | .Format fmt args _ => format_pieces fmt.bytes args

theorem Call.exec_puts (c : Call) : Puts (c.exec ·) c.pieces := by
  cases c with
  | Append s => exact __StringBuf_Append_puts s
  | Append_CStr s => exact __StringBuf_Append_puts s
  | Append_Char ch => exact __StringBuf_Append_Char_puts ch
  | Format fmt args hargs => exact __StringBuf_Format_puts hargs

end koala.stringbuf
