import Koala.Eval.Frame

open koala.typedesc

namespace koala.eval

set_option linter.style.nameCheck false

variable {α : Type}

inductive FrameCall (α : Type) where
  | push_frame (code : CodeObject α) (ob args : Option α)
  | pop_frame

def FrameCall.run (ks : KoalaState α) : FrameCall α → Res (KoalaState α)
  | .push_frame code ob args => koala.eval.push_frame code ob args ks
  | .pop_frame => do
    let ⟨_, ks⟩ ← koala.eval.pop_frame ks
    .ok ks

def run (ks : KoalaState α) : List (FrameCall α) → Res (KoalaState α)
  | [] => .ok ks
  | call :: calls => do
    let ks ← call.run ks
    run ks calls

/-- A state without frames. -/
def KoalaState.init : KoalaState α := ⟨[], 0, []⟩

def FrameCall.isPop : FrameCall α → Bool
  | .push_frame .. => false
  | .pop_frame => true

section depth

variable {ks ks' : KoalaState α} {code : CodeObject α} {ob args : Option α}

theorem push_frame_ok (h : push_frame code ob args ks = .ok ks') :
    ks.depth < MAX_FRAME_DEPTH ∧ ks'.depth = ks.depth + 1 ∧ ks'.stack = ks.stack ∧
      ks'.frame = ⟨code, ob, args, -1, sizeofCallFrame + nrslots code * sizeofObjectPtr,
        fun _ => none, []⟩ :: ks.frame := by
  unfold push_frame at h
  split at h
  · cases h
  · next hdepth =>
    cases h
    exact ⟨Nat.lt_of_not_le hdepth, rfl, rfl, rfl⟩

theorem push_frame_exit_iff :
    push_frame code ob args ks = .error .exit ↔ MAX_FRAME_DEPTH ≤ ks.depth := by
  unfold push_frame
  split
  · next hdepth => exact ⟨fun _ => hdepth, fun _ => rfl⟩
  · next hdepth => exact ⟨(nomatch ·), (absurd · hdepth)⟩

theorem pop_frame_ok {cf : CallFrame α} (h : pop_frame ks = .ok (cf, ks')) :
    ∃ top, ks.frame = top :: ks'.frame ∧ cf = free_frame top ∧ ks'.depth = ks.depth ∧
      ks'.stack = ks.stack := by
  unfold pop_frame at h
  split at h
  · cases h
  · next top back hframe =>
    cases h
    exact ⟨top, hframe, rfl, rfl, rfl⟩

/-- The counter runs ahead of the frames by one for every frame popped. -/
theorem run_depth {calls : List (FrameCall α)} (h : run ks calls = .ok ks') :
    ks'.depth + ks.frame.length = ks'.frame.length + ks.depth + calls.countP FrameCall.isPop := by
  induction calls generalizing ks with
  | nil =>
    cases h
    rw [List.countP_nil]
    omega
  | cons call calls ih =>
    obtain ⟨ks₁, hcall, hcalls⟩ := bind_eq_ok_iff.mp h
    have hrest := ih hcalls
    cases call with
    | push_frame code ob args =>
      obtain ⟨_, hdepth, _, hframe⟩ := push_frame_ok hcall
      have hcount : (FrameCall.push_frame code ob args :: calls).countP FrameCall.isPop =
          calls.countP FrameCall.isPop := List.countP_cons_of_neg Bool.false_ne_true
      rw [hframe, List.length_cons, hdepth] at hrest
      rw [hcount]
      omega
    | pop_frame =>
      obtain ⟨⟨cf, ks₂⟩, hpop, heq⟩ := bind_eq_ok_iff.mp hcall
      cases heq
      obtain ⟨top, hframe, _, hdepth, _⟩ := pop_frame_ok hpop
      have hcount : (FrameCall.pop_frame :: calls).countP FrameCall.isPop =
          calls.countP FrameCall.isPop + 1 := List.countP_cons_of_pos rfl
      rw [hcount, hframe, List.length_cons, ← hdepth]
      omega

/-- The counter is the number of frames linked from `ks->frame` as long as no
frame was popped; from the first pop on it is larger, and `push_frame` can
report an overflow without the frames. -/
theorem KoalaState.depth_iff {calls : List (FrameCall α)} (h : run .init calls = .ok ks) :
    (ks.depth = ks.frame.length ∧
        ∀ code ob args, push_frame code ob args ks = .error .exit →
          MAX_FRAME_DEPTH ≤ ks.frame.length) ↔
      ∀ call ∈ calls, call.isPop = false := by
  have hdepth : ks.depth + 0 = ks.frame.length + 0 + calls.countP FrameCall.isPop := run_depth h
  have hcount : calls.countP FrameCall.isPop = 0 ↔ ∀ call ∈ calls, call.isPop = false := by
    rw [List.countP_eq_zero]
    simp only [Bool.not_eq_true]
  rw [← hcount]
  constructor
  · rintro ⟨heq, _⟩
    omega
  · intro hzero
    have heq : ks.depth = ks.frame.length := by omega
    exact ⟨heq, fun code ob args hexit => heq ▸ push_frame_exit_iff.mp hexit⟩

/-- A function without parameters and locals. -/
def leaf : CodeObject α := ⟨⟨[], []⟩, .KCODE_KIND ⟨none, [], []⟩⟩

/-- One function called from another. -/
def nested : List (FrameCall Unit) := [.push_frame leaf none none, .push_frame leaf none none]

theorem KoalaState.depth_iff_nested :
    ∃ ks, run .init nested = .ok ks ∧ ks.frame.length = 2 ∧ ks.depth = ks.frame.length := by
  have hpushes : ∀ call ∈ nested, call.isPop = false := by decide
  exact ⟨_, rfl, rfl, ((depth_iff rfl).mpr hpushes).1⟩

/-- Sixteen functions called and returned from one after the other. -/
def sequential : List (FrameCall Unit) :=
  (List.replicate MAX_FRAME_DEPTH [.push_frame leaf none none, .pop_frame]).flatten

theorem push_frame_overflows :
    ∃ ks, run .init sequential = .ok ks ∧ ks.frame = [] ∧ ks.depth = MAX_FRAME_DEPTH ∧
      push_frame leaf none none ks = .error .exit :=
  ⟨_, rfl, rfl, rfl, rfl⟩

end depth

section calls

variable [Objects α] {ks ks' : KoalaState α} {cf : CallFrame α} {fuel : Nat}

theorem eval_frame_ok {codeinfo : CodeInfo α} {top : CallFrame α} {back : List (CallFrame α)}
    (h : eval_frame fuel codeinfo top back ks = .ok (cf, ks')) :
    ks'.frame = back ∧ ks'.depth = ks.depth ∧
      ∃ last stack, eval_loop codeinfo fuel (top, ks.stack) = .ok (last, stack) ∧
        cf = free_frame last := by
  obtain ⟨⟨last, stack⟩, hloop, hpop⟩ := bind_eq_ok_iff.mp h
  obtain ⟨last', hframe, hcf, hdepth, _⟩ := pop_frame_ok hpop
  obtain ⟨rfl, rfl⟩ := List.cons.inj hframe
  exact ⟨rfl, hdepth, last, stack, hloop, hcf⟩

theorem run_kfunction_ok {codeinfo : CodeInfo α} {top : CallFrame α} {back : List (CallFrame α)}
    (h : run_kfunction fuel codeinfo top back ks = .ok (cf, ks')) :
    ∃ ready, prepare_frame top = .ok ready ∧
      eval_frame fuel codeinfo ready back ks = .ok (cf, ks') :=
  bind_eq_ok_iff.mp h

theorem run_cfunction_ok {cfunc : Option α → Option α → Res (Option α)} {top : CallFrame α}
    (h : run_cfunction cfunc top ks = .ok (cf, ks')) :
    ∃ stack, pop_frame { ks with stack } = .ok (cf, ks') := by
  obtain ⟨_, _, h⟩ := bind_eq_ok_iff.mp h
  obtain ⟨ret, _, h⟩ := bind_eq_ok_iff.mp h
  cases ret with
  | none => exact ⟨ks.stack, h⟩
  | some ob =>
    dsimp only at h
    split at h
    · obtain ⟨stack, _, hpop⟩ := bind_eq_ok_iff.mp h
      exact ⟨stack, hpop⟩
    · obtain ⟨_, _, herror⟩ := bind_eq_ok_iff.mp h
      cases herror

/-- Running a frame frees it and leaves the counter. -/
theorem run_frame_ok (h : run_frame fuel ks = .ok (cf, ks')) :
    ks'.depth = ks.depth ∧ ∃ top, ks.frame = top :: ks'.frame := by
  unfold run_frame at h
  split at h
  · cases h
  · next top back hframe =>
    split at h
    · obtain ⟨ready, _, heval⟩ := run_kfunction_ok h
      obtain ⟨hback, hdepth, _⟩ := eval_frame_ok heval
      exact ⟨hdepth, top, by rw [hframe, hback]⟩
    · obtain ⟨stack, hpop⟩ := run_cfunction_ok h
      obtain ⟨top', htop, _, hdepth, _⟩ := pop_frame_ok hpop
      exact ⟨hdepth, top', htop⟩

theorem run_frames_ok {passes : Nat} (h : run_frames fuel passes ks = .ok ks') :
    ks'.depth = ks.depth ∧ ks'.frame = [] := by
  induction passes generalizing ks with
  | zero => cases h
  | succ passes ih =>
    rw [run_frames] at h
    split at h
    · next hframe =>
      cases h
      exact ⟨rfl, hframe⟩
    · obtain ⟨⟨cf, ks₁⟩, hrun, hrest⟩ := bind_eq_ok_iff.mp h
      obtain ⟨hdepth, hframe⟩ := ih hrest
      exact ⟨hdepth.trans (run_frame_ok hrun).1, hframe⟩

/-- A call that returns leaves no frame and one more in the counter. -/
theorem Koala_RunCode_depth {code : CodeObject α} {ob args : Option α}
    (h : Koala_RunCode fuel code ob args ks = .ok ks') :
    ks.depth < MAX_FRAME_DEPTH ∧ ks'.depth = ks.depth + 1 ∧ ks'.frame = [] := by
  obtain ⟨ks₁, hpush, hrun⟩ := bind_eq_ok_iff.mp h
  obtain ⟨hlt, hdepth, _⟩ := push_frame_ok hpush
  obtain ⟨hsame, hframe⟩ := run_frames_ok hrun
  exact ⟨hlt, hsame.trans hdepth, hframe⟩

end calls

end koala.eval

namespace koala.eval

set_option linter.style.nameCheck false

variable {α : Type}

/-- The fetches of one pass of `eval_frame`: an opcode and what its case
fetches. -/
def fetch_inst (codes : List UInt8) (cf : CallFrame α) :
    Res ((OpCode × List Nat) × CallFrame α) := do
  let ⟨op, cf⟩ ← fetch_byte cf codes
  match OpCode.ofNumber op with
  | some .POP_TOP => .ok ((.POP_TOP, []), cf)
  | some .POP_TOPN => .ok ((.POP_TOPN, []), cf)
  | some .STORE_FIELD => .ok ((.STORE_FIELD, []), cf)
  | some .JMP => .ok ((.JMP, []), cf)
  | some .NEW => .ok ((.NEW, []), cf)
  | some .LOAD_CONST => do
    let ⟨index, cf⟩ ← fetch_2bytes cf codes
    .ok ((.LOAD_CONST, [index]), cf)
  | some .LOAD => do
    let ⟨index, cf⟩ ← fetch_2bytes cf codes
    .ok ((.LOAD, [index]), cf)
  | some .STORE => do
    let ⟨index, cf⟩ ← fetch_2bytes cf codes
    .ok ((.STORE, [index]), cf)
  | some .LOAD_FIELD => do
    let ⟨index, cf⟩ ← fetch_2bytes cf codes
    .ok ((.LOAD_FIELD, [index]), cf)
  | some .CALL => do
    let ⟨argc, cf⟩ ← fetch_byte cf codes
    let ⟨index, cf⟩ ← fetch_2bytes cf codes
    .ok ((.CALL, [argc.toNat, index]), cf)
  | some .RETURN => .ok ((.RETURN, []), cf)
  | _ => .error .assertion

/-- The bytes are fetched instruction by instruction, up to the last byte. -/
def walk (codes : List UInt8) : Nat → CallFrame α → Res (List (OpCode × List Nat))
  | 0, _ => .error .fuel
  | fuel + 1, cf =>
    if cf.index + 1 = codes.length then .ok []
    else do
      let ⟨i, cf⟩ ← fetch_inst codes cf
      let insts ← walk codes fuel cf
      .ok (i :: insts)

section eval

variable [Objects α]

/-- What a pass does with what it fetched. -/
def execute (consts : Option α) : OpCode × List Nat → Machine α → Res (Bool × Machine α)
  | (.LOAD_CONST, [index]), m => do
    let m ← load_const index consts m
    .ok (true, m)
  | (.LOAD, [index]), m => do
    let m ← load_local index m
    .ok (true, m)
  | (.STORE, [index]), m => do
    let m ← store_local index m
    .ok (true, m)
  | (.LOAD_FIELD, [index]), m => do
    let m ← load_member index consts m
    .ok (true, m)
  | (.CALL, [_argc, index]), m => do
    let _name ← Tuple_Get consts index
    .ok (true, m)
  | (.RETURN, _), m => .ok (false, m)
  | _, m => .ok (true, m)

/-- A pass fetches an instruction and executes it. -/
theorem eval_inst_eq (codeinfo : CodeInfo α) (m : Machine α) :
    eval_inst codeinfo m =
      fetch_inst codeinfo.codes m.1 >>= fun r => execute codeinfo.consts r.1 (r.2, m.2) := by
  rw [eval_inst, fetch_inst]
  cases fetch_byte m.1 codeinfo.codes with
  | error e => rfl
  | ok r =>
    obtain ⟨op, cf⟩ := r
    simp only [ok_bind]
    cases OpCode.ofNumber op with
    | none => rfl
    | some op =>
      cases op with
      | LOAD_CONST | LOAD | STORE | LOAD_FIELD =>
        dsimp only
        cases fetch_2bytes cf codeinfo.codes <;> rfl
      | CALL =>
        dsimp only
        cases fetch_byte cf codeinfo.codes with
        | error e => rfl
        | ok r =>
          obtain ⟨argc, cf⟩ := r
          simp only [ok_bind]
          cases fetch_2bytes cf codeinfo.codes <;> rfl
      | _ => rfl

end eval

section position

variable {codes rest : List UInt8} {cf : CallFrame α} {b l h : UInt8}

/-- The bytes that are still to be fetched. -/
def Remaining (cf : CallFrame α) (codes rest : List UInt8) : Prop :=
  ∃ fetched : List UInt8, codes = fetched ++ rest ∧ cf.index + 1 = fetched.length

theorem Remaining.start (hindex : cf.index = -1) : Remaining cf codes codes :=
  ⟨[], rfl, by rw [hindex]; rfl⟩

theorem Remaining.nil_iff (hrest : Remaining cf codes rest) :
    cf.index + 1 = codes.length ↔ rest = [] := by
  obtain ⟨fetched, rfl, hindex⟩ := hrest
  rw [hindex, List.length_append, ← List.length_eq_zero_iff]
  omega

theorem NEXT_CODE_cons (hrest : Remaining cf codes (b :: rest)) :
    ∃ cf', NEXT_CODE cf codes = .ok (b, cf') ∧ Remaining cf' codes rest := by
  obtain ⟨fetched, rfl, hindex⟩ := hrest
  refine ⟨{ cf with index := cf.index + 1 }, ?_, fetched ++ [b], by simp, ?_⟩
  · rw [NEXT_CODE, hindex, Int.toNat_natCast, List.getElem?_append_right le_rfl, Nat.sub_self]
    rfl
  · dsimp only
    rw [hindex, List.length_append]
    rfl

theorem NEXT_CODE_nil (hrest : Remaining cf codes []) : NEXT_CODE cf codes = .error .bounds := by
  obtain ⟨fetched, rfl, hindex⟩ := hrest
  rw [NEXT_CODE, hindex, Int.toNat_natCast, List.append_nil, List.getElem?_eq_none le_rfl]

/-- The assertion of a fetch never fails at the end of the code: it looks at
the byte that was fetched last. -/
theorem Remaining.index_lt (hrest : Remaining cf codes rest) : cf.index < codes.length := by
  obtain ⟨fetched, rfl, hindex⟩ := hrest
  rw [List.length_append]
  omega

theorem fetch_byte_cons (hrest : Remaining cf codes (b :: rest)) :
    ∃ cf', fetch_byte cf codes = .ok (b, cf') ∧ Remaining cf' codes rest := by
  rw [fetch_byte, if_pos hrest.index_lt]
  exact NEXT_CODE_cons hrest

theorem fetch_2bytes_cons (hrest : Remaining cf codes (l :: h :: rest)) :
    ∃ cf', fetch_2bytes cf codes = .ok (h.toNat * 2 ^ 8 + l.toNat, cf') ∧
      Remaining cf' codes rest := by
  obtain ⟨cf₁, hlow, hrest₁⟩ := NEXT_CODE_cons hrest
  obtain ⟨cf₂, hhigh, hrest₂⟩ := NEXT_CODE_cons hrest₁
  rw [fetch_2bytes, if_pos hrest.index_lt, hlow, ok_bind]
  dsimp only
  rw [hhigh]
  exact ⟨cf₂, rfl, hrest₂⟩

theorem fetch_2bytes_single (hrest : Remaining cf codes [l]) :
    fetch_2bytes cf codes = .error .bounds := by
  obtain ⟨cf₁, hlow, hrest₁⟩ := NEXT_CODE_cons hrest
  rw [fetch_2bytes, if_pos hrest.index_lt, hlow, ok_bind]
  dsimp only
  rw [NEXT_CODE_nil hrest₁]
  rfl

theorem fetch_inst_cons (hrest : Remaining cf codes (b :: rest)) :
    ∃ cf', Remaining cf' codes rest ∧ fetch_byte cf codes = .ok (b, cf') ∧
      (OpCode.ofNumber b = none → fetch_inst codes cf = .error .assertion) := by
  obtain ⟨cf', hbyte, hrest'⟩ := fetch_byte_cons hrest
  refine ⟨cf', hrest', hbyte, fun hnone => ?_⟩
  rw [fetch_inst, hbyte, ok_bind]
  dsimp only
  rw [hnone]

theorem walk_nil_iff {fuel : Nat} (hrest : Remaining cf codes rest) :
    walk codes (fuel + 1) cf = .ok [] ↔ rest = [] := by
  rw [← hrest.nil_iff, walk]
  split
  · next hend => exact ⟨fun _ => hend, fun _ => rfl⟩
  · next hend =>
    refine ⟨fun h => ?_, fun h => absurd h hend⟩
    obtain ⟨⟨i, cf'⟩, -, h⟩ := bind_eq_ok_iff.mp h
    obtain ⟨insts, -, heq⟩ := bind_eq_ok_iff.mp h
    cases heq

/-- A walk that yields an instruction fetches it first. -/
theorem walk_cons {fuel : Nat} {i : OpCode × List Nat} {insts : List (OpCode × List Nat)}
    (h : walk codes fuel cf = .ok (i :: insts)) :
    ∃ fuel' cf', fetch_inst codes cf = .ok (i, cf') ∧ walk codes fuel' cf' = .ok insts := by
  cases fuel with
  | zero => cases h
  | succ fuel =>
    rw [walk] at h
    split at h
    · cases h
    · obtain ⟨⟨i', cf'⟩, hfetch, h⟩ := bind_eq_ok_iff.mp h
      obtain ⟨insts', hwalk, heq⟩ := bind_eq_ok_iff.mp h
      cases heq
      exact ⟨fuel, cf', hfetch, hwalk⟩

end position

end koala.eval
