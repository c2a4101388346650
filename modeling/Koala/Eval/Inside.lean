import Koala.Eval.Run
import Koala.Eval.Slots

namespace koala.eval

set_option linter.style.nameCheck false

variable {α : Type}

/-- The bytes behind the last one fetched. -/
def left (codes : List UInt8) (cf : CallFrame α) : List UInt8 := codes.drop (cf.index + 1).toNat

/-- These bytes are enough for the fetches of a pass: there is an opcode, and
the operands that its case fetches. -/
def complete : List UInt8 → Bool
  | [] => false
  | op :: rest =>
    match OpCode.ofNumber op with
    | some .LOAD_CONST | some .LOAD | some .STORE | some .LOAD_FIELD => 2 ≤ rest.length
    | some .CALL => 3 ≤ rest.length
    | _ => true

/-- The fetches of the next pass read no byte outside the code; an assertion may
stop them. -/
def Inside (codes : List UInt8) (cf : CallFrame α) : Prop :=
  -1 ≤ cf.index ∧ fetch_inst codes cf ≠ .error .bounds

section position

variable {codes rest : List UInt8} {cf cf' : CallFrame α}

theorem Remaining.left_eq (hrest : Remaining cf codes rest) : left codes cf = rest := by
  obtain ⟨fetched, rfl, hindex⟩ := hrest
  rw [left, hindex, Int.toNat_natCast, List.drop_left]

theorem Remaining.neg_one_le (hrest : Remaining cf codes rest) : -1 ≤ cf.index := by
  obtain ⟨fetched, _, hindex⟩ := hrest
  omega

theorem Remaining.of_index {cf₁ : CallFrame α} (hrest : Remaining cf codes rest)
    (hindex : cf₁.index = cf.index) : Remaining cf₁ codes rest := by
  obtain ⟨fetched, hcodes, hlength⟩ := hrest
  exact ⟨fetched, hcodes, by rw [hindex, hlength]⟩

theorem fetch_byte_nil (hrest : Remaining cf codes []) : fetch_byte cf codes = .error .bounds := by
  rw [fetch_byte, if_pos hrest.index_lt]
  exact NEXT_CODE_nil hrest

theorem fetch_2bytes_nil (hrest : Remaining cf codes []) :
    fetch_2bytes cf codes = .error .bounds := by
  rw [fetch_2bytes, if_pos hrest.index_lt, NEXT_CODE_nil hrest]
  rfl

/-- Two bytes are fetched where two are left, and else one outside is read. -/
theorem fetch_2bytes_cases (hrest : Remaining cf codes rest) :
    (2 ≤ rest.length ∧ ∃ index cf' l h rest', fetch_2bytes cf codes = .ok (index, cf') ∧
        rest = l :: h :: rest' ∧ Remaining cf' codes rest') ∨
      (¬ 2 ≤ rest.length ∧ fetch_2bytes cf codes = .error .bounds) := by
  match rest with
  | [] => exact .inr ⟨by simp, fetch_2bytes_nil hrest⟩
  | [l] => exact .inr ⟨by simp, fetch_2bytes_single hrest⟩
  | l :: h :: rest' =>
    obtain ⟨cf', hfetch, hrest'⟩ := fetch_2bytes_cons hrest
    exact .inl ⟨by simp, _, cf', l, h, rest', hfetch, rfl, hrest'⟩

/-- The fetches of a pass stay inside the code if and only if what is left is
enough for them. -/
theorem Remaining.inside_iff (hrest : Remaining cf codes rest) :
    Inside codes cf ↔ complete rest = true := by
  have hiff : Inside codes cf ↔ fetch_inst codes cf ≠ .error .bounds :=
    and_iff_right hrest.neg_one_le
  rw [hiff]
  cases rest with
  | nil =>
    rw [fetch_inst, fetch_byte_nil hrest]
    simp [complete]
  | cons op rest =>
    obtain ⟨cf₁, hbyte, hrest₁⟩ := fetch_byte_cons hrest
    rw [fetch_inst, hbyte, ok_bind, complete]
    dsimp only
    cases OpCode.ofNumber op with
    | none => simp
    | some code =>
      cases code with
      | LOAD_CONST | LOAD | STORE | LOAD_FIELD =>
        obtain ⟨htwo, index, cf', l, h, rest', hfetch, -⟩ | ⟨htwo, hfetch⟩ :=
          fetch_2bytes_cases hrest₁
        · dsimp only
          rw [hfetch]
          simp [htwo]
        · dsimp only
          rw [hfetch]
          simp [htwo]
      | CALL =>
        cases rest with
        | nil =>
          dsimp only
          rw [fetch_byte_nil hrest₁]
          simp
        | cons argc rest =>
          obtain ⟨cf₂, hargc, hrest₂⟩ := fetch_byte_cons hrest₁
          obtain ⟨htwo, index, cf', l, h, rest', hfetch, -⟩ | ⟨htwo, hfetch⟩ :=
            fetch_2bytes_cases hrest₂
          · dsimp only
            rw [hargc, ok_bind]
            dsimp only
            rw [hfetch]
            simp [htwo]
          · dsimp only
            rw [hargc, ok_bind]
            dsimp only
            rw [hfetch]
            simp [htwo]
      | _ => simp

theorem fetch_byte_ok {b : UInt8} (hrest : Remaining cf codes rest)
    (h : fetch_byte cf codes = .ok (b, cf')) :
    ∃ rest', rest = b :: rest' ∧ Remaining cf' codes rest' := by
  cases rest with
  | nil =>
    rw [fetch_byte_nil hrest] at h
    cases h
  | cons b' rest' =>
    obtain ⟨cf₁, hbyte, hrest₁⟩ := fetch_byte_cons hrest
    rw [hbyte] at h
    cases h
    exact ⟨rest', rfl, hrest₁⟩

theorem fetch_2bytes_ok {index : Nat} (hrest : Remaining cf codes rest)
    (h : fetch_2bytes cf codes = .ok (index, cf')) :
    ∃ rest', rest' = rest.drop 2 ∧ Remaining cf' codes rest' := by
  obtain ⟨-, index', cf₁, l, r, rest', hfetch, hbytes, hrest'⟩ | ⟨-, hfetch⟩ :=
    fetch_2bytes_cases hrest
  · rw [hfetch] at h
    cases h
    exact ⟨rest', by rw [hbytes]; rfl, hrest'⟩
  · rw [hfetch] at h
    cases h

/-- The bytes that the case of an opcode fetches. -/
def operand_size : OpCode → Nat
  | .LOAD_CONST | .LOAD | .STORE | .LOAD_FIELD => 2
  | .CALL => 3
  | _ => 0

/-- The opcodes that `eval_frame` has a case for. -/
def has_case : OpCode → Bool
  | .POP_TOP | .POP_TOPN | .LOAD_CONST | .LOAD | .STORE | .LOAD_FIELD | .STORE_FIELD | .CALL
  | .RETURN | .JMP | .NEW => true
  | _ => false

/-- A pass fetches an opcode and its operands. -/
theorem fetch_inst_ok {i : OpCode × List Nat} (hrest : Remaining cf codes rest)
    (h : fetch_inst codes cf = .ok (i, cf')) :
    ∃ op, rest.head? = some op ∧ OpCode.ofNumber op = some i.1 ∧ has_case i.1 = true ∧
      Remaining cf' codes (rest.drop (1 + operand_size i.1)) := by
  obtain ⟨⟨op, cf₁⟩, hbyte, h⟩ := bind_eq_ok_iff.mp h
  obtain ⟨rest₁, rfl, hrest₁⟩ := fetch_byte_ok hrest hbyte
  refine ⟨op, rfl, ?_⟩
  dsimp only at h
  cases hop : OpCode.ofNumber op with
  | none =>
    rw [hop] at h
    cases h
  | some code =>
    rw [hop] at h
    cases code with
    | LOAD_CONST | LOAD | STORE | LOAD_FIELD =>
      obtain ⟨⟨index, cf₂⟩, hindex, heq⟩ := bind_eq_ok_iff.mp h
      cases heq
      obtain ⟨_, rfl, hrest₂⟩ := fetch_2bytes_ok hrest₁ hindex
      exact ⟨rfl, rfl, hrest₂⟩
    | CALL =>
      obtain ⟨⟨argc, cf₂⟩, hargc, h⟩ := bind_eq_ok_iff.mp h
      obtain ⟨⟨index, cf₃⟩, hindex, heq⟩ := bind_eq_ok_iff.mp h
      cases heq
      obtain ⟨rest₂, rfl, hrest₂⟩ := fetch_byte_ok hrest₁ hargc
      obtain ⟨_, rfl, hrest₃⟩ := fetch_2bytes_ok hrest₂ hindex
      exact ⟨rfl, rfl, hrest₃⟩
    | POP_TOP | POP_TOPN | STORE_FIELD | JMP | NEW | RETURN =>
      cases h
      exact ⟨rfl, rfl, hrest₁⟩
    | _ => cases h

end position

section passes

variable [Objects α] {codeinfo : CodeInfo α} {m m' m'' : Machine α} {rest : List UInt8}

/-- The machine at the starts of the passes of `eval_frame`. -/
inductive Passes (codeinfo : CodeInfo α) (m : Machine α) : Machine α → Prop where
  | start : Passes codeinfo m m
  | next {m' m'' : Machine α} (hpasses : Passes codeinfo m m')
      (hinst : eval_inst codeinfo m' = .ok (true, m'')) : Passes codeinfo m m''

omit [Objects α] in
theorem store_index {cf cf' : CallFrame α} {index : Nat} {ob : Option α}
    (h : store cf index ob = .ok cf') : cf'.index = cf.index := by
  cases ob with
  | none => cases h
  | some val =>
    rw [store] at h
    split at h
    · cases h
      rfl
    · cases h

/-- Executing an instruction fetches nothing. -/
theorem pushed_index {consts : Option α} {i : OpCode × List Nat} {ob : Option α}
    (h : pushed consts i m = .ok (ob, m')) : m'.1.index = m.1.index := by
  unfold pushed at h
  split at h
  · obtain ⟨_, -, h⟩ := bind_eq_ok_iff.mp h
    obtain ⟨_, -, heq⟩ := bind_eq_ok_iff.mp h
    cases heq
    rfl
  · obtain ⟨⟨ob, cf⟩, hload, h⟩ := bind_eq_ok_iff.mp h
    obtain ⟨_, -, heq⟩ := bind_eq_ok_iff.mp h
    cases heq
    unfold load at hload
    split at hload
    · cases hload
      rfl
    · cases hload
  · obtain ⟨m₁, hlocal, heq⟩ := bind_eq_ok_iff.mp h
    cases heq
    obtain ⟨cf, hstore, heq'⟩ := bind_eq_ok_iff.mp hlocal
    cases heq'
    exact store_index hstore
  · obtain ⟨_, -, h⟩ := bind_eq_ok_iff.mp h
    obtain ⟨_, -, h⟩ := bind_eq_ok_iff.mp h
    obtain ⟨_, -, h⟩ := bind_eq_ok_iff.mp h
    obtain ⟨_, -, heq⟩ := bind_eq_ok_iff.mp h
    cases heq
    rfl
  · obtain ⟨_, -, heq⟩ := bind_eq_ok_iff.mp h
    cases heq
    rfl
  · cases h
    rfl

/-- A pass goes on behind the instruction that it fetched. -/
theorem Remaining.eval_inst {loopflag : Bool} (hrest : Remaining m.1 codeinfo.codes rest)
    (h : eval_inst codeinfo m = .ok (loopflag, m')) :
    ∃ rest', Remaining m'.1 codeinfo.codes rest' := by
  obtain ⟨i, cf, ob, m₁, stack, hfetch, hpushed, -, -, rfl⟩ := eval_inst_ok h
  obtain ⟨-, -, -, -, hrest'⟩ := fetch_inst_ok hrest hfetch
  exact ⟨_, hrest'.of_index (pushed_index hpushed)⟩

theorem Passes.remaining (hindex : m.1.index = -1) (h : Passes codeinfo m m') :
    ∃ rest, Remaining m'.1 codeinfo.codes rest := by
  induction h with
  | start => exact ⟨_, .start hindex⟩
  | next _ hinst ih =>
    obtain ⟨rest, hrest⟩ := ih
    exact hrest.eval_inst hinst

/-- Code that comes to a `RETURN` or to a byte without a case, one complete
instruction after the other. -/
inductive Closed : List UInt8 → Prop where
  | last {op : UInt8} {rest : List UInt8}
      (hlast : ∀ code, OpCode.ofNumber op = some code → has_case code = true → code = .RETURN) :
      Closed (op :: rest)
  | next {op : UInt8} {code : OpCode} {rest : List UInt8} (hop : OpCode.ofNumber op = some code)
      (hsize : operand_size code ≤ rest.length) (hrest : Closed (rest.drop (operand_size code))) :
      Closed (op :: rest)

theorem Closed.complete {codes : List UInt8} (h : Closed codes) : complete codes = true := by
  cases h with
  | @last op rest hlast =>
    rw [koala.eval.complete]
    cases hop : OpCode.ofNumber op with
    | none => rfl
    | some code =>
      have hreturn := hlast code hop
      cases code <;> first | rfl | cases hreturn rfl
  | @next op code rest hop hsize hrest =>
    rw [koala.eval.complete, hop]
    cases code <;> first | rfl | exact decide_eq_true hsize

theorem Closed.remaining (hclosed : Closed codeinfo.codes) (hindex : m.1.index = -1)
    (h : Passes codeinfo m m') : ∃ rest, Remaining m'.1 codeinfo.codes rest ∧ Closed rest := by
  induction h with
  | start => exact ⟨_, .start hindex, hclosed⟩
  | next _ hinst ih =>
    obtain ⟨rest, hrest, hclosed'⟩ := ih
    obtain ⟨i, cf, ob, m₁, stack, hfetch, hpushed, -, hloop, rfl⟩ := eval_inst_ok hinst
    obtain ⟨op, hhead, hop, hcase, hrest'⟩ := fetch_inst_ok hrest hfetch
    refine ⟨_, hrest'.of_index (pushed_index hpushed), ?_⟩
    cases hclosed' with
    | last hlast =>
      obtain rfl := Option.some.inj hhead
      have hreturn := hlast i.1 hop hcase
      simp [hreturn] at hloop
    | next hop' hsize hrest'' =>
      obtain rfl := Option.some.inj hhead
      rw [hop, Option.some.injEq] at hop'
      subst hop'
      rw [Nat.add_comm, List.drop_succ_cons]
      exact hrest''

/-- Of such code enough is left at the start of every pass. -/
theorem Closed.complete_left (hclosed : Closed codeinfo.codes) (hindex : m.1.index = -1)
    (h : Passes codeinfo m m') : koala.eval.complete (left codeinfo.codes m'.1) = true := by
  obtain ⟨rest, hrest, hclosed'⟩ := hclosed.remaining hindex h
  rw [hrest.left_eq]
  exact hclosed'.complete

end passes

/-- For every code and every run of `eval_frame` from its first byte: the bytes
that are fetched lie in the code if and only if at the start of every pass
enough of it is left. -/
theorem fetches_inside_iff [Objects α] {codeinfo : CodeInfo α} {m : Machine α}
    (hindex : m.1.index = -1) :
    (∀ m', Passes codeinfo m m' → Inside codeinfo.codes m'.1) ↔
      ∀ m', Passes codeinfo m m' → complete (left codeinfo.codes m'.1) = true := by
  refine forall_congr' fun m' => imp_congr_right fun hpasses => ?_
  obtain ⟨rest, hrest⟩ := hpasses.remaining hindex
  rw [hrest.inside_iff, hrest.left_eq]

/-- A frame before its first instruction. -/
def starting : CallFrame Value where
  code := oneParameter
  ob := none
  args := none
  index := -1
  size := sizeofCallFrame
  locvars := fun _ => none
  touched := []

/-- Code that returns at once. -/
theorem fetches_inside_iff_return : Closed [OpCode.RETURN.number] ∧
    ∀ m', Passes ⟨none, [], [OpCode.RETURN.number]⟩ (starting, []) m' →
      Inside [OpCode.RETURN.number] m'.1 := by
  have hclosed : Closed [OpCode.RETURN.number] := by
    refine .last fun code hop _ => ?_
    rw [OpCode.ofNumber_number, Option.some.injEq] at hop
    exact hop.symm
  exact ⟨hclosed, (fetches_inside_iff rfl).mpr fun m' h => hclosed.complete_left rfl h⟩

/-- Of empty code the first byte is fetched. -/
theorem not_fetches_inside : ¬ ∀ (codeinfo : CodeInfo Value) (m : Machine Value),
    m.1.index = -1 → ∀ m', Passes codeinfo m m' → Inside codeinfo.codes m'.1 := by
  intro h
  exact (h ⟨none, [], []⟩ (starting, []) rfl _ .start).2 rfl

end koala.eval
