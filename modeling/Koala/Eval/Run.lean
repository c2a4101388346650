import Koala.Eval.Fetch
import Koala.Stack

open koala.stack

namespace koala.eval

set_option linter.style.nameCheck false

variable {α : Type}

section pushed

variable [Objects α] (consts : Option α)

/-- What a pass does up to its push: the object it is going to push. -/
def pushed : OpCode × List Nat → Machine α → Res (Option α × Machine α)
  | (.LOAD_CONST, [index]), m => do
    let ob ← Tuple_Get consts index
    let ob ← OB_INCREF ob
    .ok (some ob, m)
  | (.LOAD, [index]), m => do
    let ⟨ob, cf⟩ ← load m.1 index
    let ob ← OB_INCREF ob
    .ok (some ob, cf, m.2)
  | (.STORE, [index]), m => do
    let m ← store_local index m
    .ok (none, m)
  | (.LOAD_FIELD, [index]), m => do
    let name ← Tuple_Get consts index
    let ob ← OB_INCREF (POP m.2).1
    let ret ← Objects.load_field ob name
    let ret ← OB_INCREF ret
    .ok (some ret, m.1, (POP m.2).2)
  | (.CALL, [_argc, index]), m => do
    let _name ← Tuple_Get consts index
    .ok (none, m)
  | _, m => .ok (none, m)

omit [Objects α] in
/-- The push that ends a pass, if there is one. -/
def push_last (stack : List α) : Option α → Res (List α)
  | none => .ok stack
  | some ob => PUSH stack ob

/-- A pass pushes at most one object, at its end. -/
theorem execute_eq (i : OpCode × List Nat) (m : Machine α) :
    execute consts i m = pushed consts i m >>= fun r => push_last r.2.2 r.1 >>= fun stack =>
      .ok (decide (i.1 ≠ .RETURN), r.2.1, stack) := by
  obtain ⟨op, operands⟩ := i
  cases op with
  | LOAD_CONST =>
    match operands with
    | [] => rfl
    | [index] =>
      simp only [execute, pushed, load_const]
      cases Tuple_Get consts index with
      | error e => rfl
      | ok ob =>
        simp only [ok_bind]
        cases OB_INCREF ob with
        | error e => rfl
        | ok ob =>
          simp only [ok_bind, push_last]
          cases PUSH m.2 ob <;> rfl
    | _ :: _ :: _ => rfl
  | LOAD =>
    match operands with
    | [] => rfl
    | [index] =>
      simp only [execute, pushed, load_local]
      cases load m.1 index with
      | error e => rfl
      | ok r =>
        simp only [ok_bind]
        cases OB_INCREF r.1 with
        | error e => rfl
        | ok ob =>
          simp only [ok_bind, push_last]
          cases PUSH m.2 ob <;> rfl
    | _ :: _ :: _ => rfl
  | STORE =>
    match operands with
    | [] => rfl
    | [index] =>
      simp only [execute, pushed]
      cases store_local index m <;> rfl
    | _ :: _ :: _ => rfl
  | LOAD_FIELD =>
    match operands with
    | [] => rfl
    | [index] =>
      simp only [execute, pushed, load_member]
      cases Tuple_Get consts index with
      | error e => rfl
      | ok name =>
        simp only [ok_bind]
        cases OB_INCREF (POP m.2).1 with
        | error e => rfl
        | ok ob =>
          simp only [ok_bind]
          cases Objects.load_field ob name with
          | error e => rfl
          | ok ret =>
            simp only [ok_bind]
            cases OB_INCREF ret with
            | error e => rfl
            | ok ret =>
              simp only [ok_bind, push_last]
              cases PUSH (POP m.2).2 ret <;> rfl
    | _ :: _ :: _ => rfl
  | CALL =>
    match operands with
    | [] => rfl
    | [_] => rfl
    | [argc, index] =>
      simp only [execute, pushed]
      cases Tuple_Get consts index <;> rfl
    | _ :: _ :: _ :: _ => rfl
  | _ => rfl

end pushed

/-- A run of `Koala_RunCode`: between two frames, at the start of a pass of
`eval_frame`, or with results of a C function that are still to be pushed. -/
inductive Config (α : Type) where
  | frames (ks : KoalaState α)
  | pass (codeinfo : CodeInfo α) (m : Machine α) (back : List (CallFrame α)) (depth : Nat)
  | results (items : List (Option α)) (ks : KoalaState α)

def Config.stack : Config α → List α
  | .frames ks => ks.stack
  | .pass _ m _ _ => m.2
  | .results _ ks => ks.stack

/-- What an instruction pops. -/
def popped (i : OpCode × List Nat) (stack : List α) : List (StackOp α) :=
  match i with
  | (.STORE, [_]) | (.LOAD_FIELD, [_]) => [.pop (POP stack).1]
  | _ => []

def pushing : Option α → List (StackOp α)
  | none => []
  | some ob => [.push ob]

section steps

variable [Objects α]

/-- The steps of a run, with the uses of the operand stack that each makes. -/
inductive Step : Config α → List (StackOp α) → Config α → Prop where
  | enter {ks : KoalaState α} {cf cf' : CallFrame α} {back : List (CallFrame α)}
      {codeinfo : CodeInfo α} (hframe : ks.frame = cf :: back)
      (hkind : cf.code.kind = .KCODE_KIND codeinfo) (hprepare : prepare_frame cf = .ok cf') :
      Step (.frames ks) [] (.pass codeinfo (cf', ks.stack) back ks.depth)
  | pass {codeinfo : CodeInfo α} {m m' : Machine α} {back : List (CallFrame α)} {depth : Nat}
      {i : OpCode × List Nat} {cf : CallFrame α} {ob : Option α} {stack : List α}
      (hfetch : fetch_inst codeinfo.codes m.1 = .ok (i, cf))
      (hpushed : pushed codeinfo.consts i (cf, m.2) = .ok (ob, m'))
      (hpush : push_last m'.2 ob = .ok stack) (hloop : i.1 ≠ .RETURN) :
      Step (.pass codeinfo m back depth) (popped i m.2 ++ pushing ob)
        (.pass codeinfo (m'.1, stack) back depth)
  | leave {codeinfo : CodeInfo α} {m m' : Machine α} {back : List (CallFrame α)} {depth : Nat}
      {i : OpCode × List Nat} {cf : CallFrame α} {ob : Option α} {stack : List α}
      (hfetch : fetch_inst codeinfo.codes m.1 = .ok (i, cf))
      (hpushed : pushed codeinfo.consts i (cf, m.2) = .ok (ob, m'))
      (hpush : push_last m'.2 ob = .ok stack) (hloop : i.1 = .RETURN) :
      Step (.pass codeinfo m back depth) (popped i m.2 ++ pushing ob)
        (.frames ⟨back, depth, stack⟩)
  | call_none {ks : KoalaState α} {cf : CallFrame α} {back : List (CallFrame α)}
      {cfunc : Option α → Option α → Res (Option α)} (hframe : ks.frame = cf :: back)
      (hkind : cf.code.kind = .CFUNC_KIND cfunc) (hargs : check_arguments cf = .ok ())
      (hret : cfunc cf.ob cf.args = .ok none) :
      Step (.frames ks) [] (.frames { ks with frame := back })
  | call_tuple {ks : KoalaState α} {cf : CallFrame α} {back : List (CallFrame α)}
      {cfunc : Option α → Option α → Res (Option α)} {ob : α} {items : List (Option α)}
      (hframe : ks.frame = cf :: back) (hkind : cf.code.kind = .CFUNC_KIND cfunc)
      (hargs : check_arguments cf = .ok ()) (hret : cfunc cf.ob cf.args = .ok (some ob))
      (hitems : Objects.items ob = some items) :
      Step (.frames ks) [] (.results items ks)
  | result {ks : KoalaState α} {items : List (Option α)} {ob : α} {stack : List α}
      (hpush : PUSH ks.stack ob = .ok stack) :
      Step (.results (items ++ [some ob]) ks) [.push ob] (.results items { ks with stack })
  | done {ks : KoalaState α} {cf : CallFrame α} {back : List (CallFrame α)}
      (hframe : ks.frame = cf :: back) :
      Step (.results [] ks) [] (.frames { ks with frame := back })

/-- A run, with its uses of the operand stack. -/
inductive Reaches (c : Config α) : List (StackOp α) → Config α → Prop where
  | refl : Reaches c [] c
  | step {ops ops' : List (StackOp α)} {c' c'' : Config α} (hreaches : Reaches c ops c')
      (hstep : Step c' ops' c'') : Reaches c (ops ++ ops') c''

variable {c c' c'' : Config α} {ops ops' : List (StackOp α)}

theorem Step.reaches (h : Step c ops c') : Reaches c ops c' := .step .refl h

theorem Reaches.trans (h : Reaches c ops c') (h' : Reaches c' ops' c'') :
    Reaches c (ops ++ ops') c'' := by
  induction h' with
  | refl => rwa [List.append_nil]
  | step _ hstep ih =>
    rw [← List.append_assoc]
    exact .step ih hstep

end steps

section adequate

variable [Objects α] {ks ks' : KoalaState α} {fuel : Nat}

/-- A pass that returns, step by step. -/
theorem eval_inst_ok {codeinfo : CodeInfo α} {m m'' : Machine α} {loopflag : Bool}
    (h : eval_inst codeinfo m = .ok (loopflag, m'')) :
    ∃ i cf ob m' stack, fetch_inst codeinfo.codes m.1 = .ok (i, cf) ∧
      pushed codeinfo.consts i (cf, m.2) = .ok (ob, m') ∧ push_last m'.2 ob = .ok stack ∧
      loopflag = decide (i.1 ≠ .RETURN) ∧ m'' = (m'.1, stack) := by
  rw [eval_inst_eq] at h
  obtain ⟨⟨i, cf⟩, hfetch, h⟩ := bind_eq_ok_iff.mp h
  rw [execute_eq] at h
  obtain ⟨⟨ob, m'⟩, hpushed, h⟩ := bind_eq_ok_iff.mp h
  obtain ⟨stack, hpush, heq⟩ := bind_eq_ok_iff.mp h
  cases heq
  exact ⟨i, cf, ob, m', stack, hfetch, hpushed, hpush, rfl, rfl⟩

theorem eval_loop_reaches {codeinfo : CodeInfo α} {m m' : Machine α} (back : List (CallFrame α))
    (depth : Nat) (h : eval_loop codeinfo fuel m = .ok m') :
    ∃ ops, Reaches (.pass codeinfo m back depth) ops (.frames ⟨back, depth, m'.2⟩) := by
  induction fuel generalizing m with
  | zero => cases h
  | succ fuel ih =>
    obtain ⟨⟨loopflag, m₁⟩, hinst, h⟩ := bind_eq_ok_iff.mp h
    obtain ⟨i, cf, ob, m₂, stack, hfetch, hpushed, hpush, hloop, rfl⟩ := eval_inst_ok hinst
    by_cases hreturn : i.1 = .RETURN
    · rw [hloop, decide_eq_false (not_not.mpr hreturn)] at h
      cases h
      exact ⟨_, (Step.leave hfetch hpushed hpush hreturn).reaches⟩
    · rw [hloop, decide_eq_true hreturn] at h
      obtain ⟨ops, hrest⟩ := ih h
      exact ⟨_, (Step.pass hfetch hpushed hpush hreturn).reaches.trans hrest⟩

theorem push_results_reaches {items : List (Option α)} {stack : List α}
    (h : push_results ks.stack items = .ok stack) (before : List (Option α)) :
    ∃ ops, Reaches (.results (before ++ items) ks) ops (.results before { ks with stack }) := by
  induction items generalizing before stack with
  | nil =>
    cases h
    rw [List.append_nil]
    exact ⟨[], .refl⟩
  | cons ob items ih =>
    obtain ⟨stack₁, hrest, h⟩ := bind_eq_ok_iff.mp h
    obtain ⟨o, hob, hpush⟩ := bind_eq_ok_iff.mp h
    obtain rfl := OB_INCREF_eq_ok_iff.mp hob
    obtain ⟨ops, hreaches⟩ := ih hrest (before ++ [some o])
    rw [List.append_assoc, List.singleton_append] at hreaches
    exact ⟨_, .step hreaches (.result hpush)⟩

theorem run_frame_reaches {cf : CallFrame α} (h : run_frame fuel ks = .ok (cf, ks')) :
    ∃ ops, Reaches (.frames ks) ops (.frames ks') := by
  unfold run_frame at h
  split at h
  · cases h
  · next top back hframe =>
    split at h
    · next codeinfo hkind =>
      obtain ⟨ready, hprepare, heval⟩ := run_kfunction_ok h
      obtain ⟨⟨last, stack⟩, hloop, hpop⟩ := bind_eq_ok_iff.mp heval
      cases hpop
      obtain ⟨ops, hreaches⟩ := eval_loop_reaches back ks.depth hloop
      exact ⟨_, (Step.enter hframe hkind hprepare).reaches.trans hreaches⟩
    · next cfunc hkind =>
      obtain ⟨_, hargs, h⟩ := bind_eq_ok_iff.mp h
      obtain ⟨ret, hret, h⟩ := bind_eq_ok_iff.mp h
      cases ret with
      | none =>
        dsimp only at h
        rw [pop_frame, hframe] at h
        cases h
        exact ⟨_, (Step.call_none hframe hkind hargs hret).reaches⟩
      | some ob =>
        dsimp only at h
        split at h
        · next items hitems =>
          obtain ⟨stack, hresults, hpop⟩ := bind_eq_ok_iff.mp h
          rw [pop_frame, hframe] at hpop
          cases hpop
          obtain ⟨ops, hreaches⟩ := push_results_reaches hresults []
          have hcall := (Step.call_tuple hframe hkind hargs hret hitems).reaches.trans hreaches
          exact ⟨_, .step hcall (.done hframe)⟩
        · obtain ⟨_, _, herror⟩ := bind_eq_ok_iff.mp h
          cases herror

theorem run_frames_reaches {passes : Nat} (h : run_frames fuel passes ks = .ok ks') :
    ∃ ops, Reaches (.frames ks) ops (.frames ks') := by
  induction passes generalizing ks with
  | zero => cases h
  | succ passes ih =>
    rw [run_frames] at h
    split at h
    · cases h
      exact ⟨[], .refl⟩
    · obtain ⟨⟨cf, ks₁⟩, hrun, hrest⟩ := bind_eq_ok_iff.mp h
      obtain ⟨ops, hreaches⟩ := run_frame_reaches hrun
      obtain ⟨ops', hreaches'⟩ := ih hrest
      exact ⟨_, hreaches.trans hreaches'⟩

/-- A call that returns has made the steps of a run. -/
theorem Koala_RunCode_reaches {code : CodeObject α} {ob args : Option α}
    (h : Koala_RunCode fuel code ob args ks = .ok ks') :
    ∃ ks₁ ops, push_frame code ob args ks = .ok ks₁ ∧
      Reaches (.frames ks₁) ops (.frames ks') := by
  obtain ⟨ks₁, hpush, hrun⟩ := bind_eq_ok_iff.mp h
  obtain ⟨ops, hreaches⟩ := run_frames_reaches hrun
  exact ⟨ks₁, ops, hpush, hreaches⟩

end adequate

end koala.eval