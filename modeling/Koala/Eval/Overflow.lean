import Koala.Eval.Run
import Koala.Eval.Slots

open koala.stack

namespace koala.eval

set_option linter.style.nameCheck false

variable {α : Type}

section config

variable [Objects α]

/-- At this point of a run an object is pushed, after something is popped. -/
inductive Config.Makes : Config α → List (StackOp α) → α → Prop where
  | pass {codeinfo : CodeInfo α} {m m' : Machine α} {back : List (CallFrame α)} {depth : Nat}
      {i : OpCode × List Nat} {cf : CallFrame α} {ob : α}
      (hfetch : fetch_inst codeinfo.codes m.1 = .ok (i, cf))
      (hpushed : pushed codeinfo.consts i (cf, m.2) = .ok (some ob, m')) :
      Makes (.pass codeinfo m back depth) (popped i m.2) ob
  | result {ks : KoalaState α} {items : List (Option α)} {ob : α} :
      Makes (.results (items ++ [some ob]) ks) [] ob
  | single {ks : KoalaState α} {cf : CallFrame α} {back : List (CallFrame α)}
      {cfunc : Option α → Option α → Res (Option α)} {ob : α} (hframe : ks.frame = cf :: back)
      (hkind : cf.code.kind = .CFUNC_KIND cfunc) (hargs : check_arguments cf = .ok ())
      (hret : cfunc cf.ob cf.args = .ok (some ob)) (hitems : Objects.items ob = none) :
      Makes (.frames ks) [] ob

/-- A constant or a local variable is loaded, or a C function gave a result. -/
inductive Config.Adds : Config α → Prop where
  | load {codeinfo : CodeInfo α} {m m' : Machine α} {back : List (CallFrame α)} {depth : Nat}
      {i : OpCode × List Nat} {cf : CallFrame α} {ob : α}
      (hfetch : fetch_inst codeinfo.codes m.1 = .ok (i, cf))
      (hop : i.1 = .LOAD_CONST ∨ i.1 = .LOAD)
      (hpushed : pushed codeinfo.consts i (cf, m.2) = .ok (some ob, m')) :
      Adds (.pass codeinfo m back depth)
  | result {ks : KoalaState α} {items : List (Option α)} {ob : α} :
      Adds (.results (items ++ [some ob]) ks)
  | single {ks : KoalaState α} {cf : CallFrame α} {back : List (CallFrame α)}
      {cfunc : Option α → Option α → Res (Option α)} {ob : α} (hframe : ks.frame = cf :: back)
      (hkind : cf.code.kind = .CFUNC_KIND cfunc) (hargs : check_arguments cf = .ok ())
      (hret : cfunc cf.ob cf.args = .ok (some ob)) (hitems : Objects.items ob = none) :
      Adds (.frames ks)

/-- Where an object is added, the stack is not full. -/
def Config.Room (c : Config α) : Prop := c.Adds → c.stack.length < MAX_STACK_SIZE

/-- After these uses of an array that held the objects `l`: the pops have given,
and the next pop and the top give, what was pushed last and not yet popped, and
no push writes outside the array. -/
def Config.Safe (c : Config α) (stk : Stack α) (l : List α) (ops : List (StackOp α)) : Prop :=
  LastIn l ops ∧ ∃ stk₁, stk.Uses ops stk₁ ∧ Stack_Top stk₁ = .ok (pending l ops).head? ∧
    (∃ stk₂, Stack_Pop stk₁ = .ok ((pending l ops).head?, stk₂)) ∧
    ∀ pops ob stk₂, c.Makes pops ob → stk₁.Uses pops stk₂ → Stack_Push stk₂ ob ≠ .error .bounds

end config

theorem PUSH_ok {stack stack' : List α} {ob : α} (h : PUSH stack ob = .ok stack') :
    stack.length < MAX_STACK_SIZE ∧ stack' = ob :: stack := by
  unfold PUSH at h
  split at h
  · next hroom =>
    cases h
    exact ⟨hroom, rfl⟩
  · cases h

section pushes

variable [Objects α] {consts : Option α} {i : OpCode × List Nat} {m m' : Machine α}

/-- What is left of the stack when an instruction has popped. -/
theorem pushed_stack {ob : Option α} (h : pushed consts i m = .ok (ob, m')) :
    pending m.2 (popped i m.2) = m'.2 ∧ LastIn m.2 (popped i m.2) := by
  have hpop : ∀ l : List α, pending l [.pop (POP l).1] = (POP l).2 ∧ LastIn l [.pop (POP l).1] := by
    intro l
    cases l with
    | nil => exact ⟨rfl, rfl, trivial⟩
    | cons ob l => exact ⟨rfl, rfl, trivial⟩
  unfold pushed at h
  split at h
  · obtain ⟨_, -, h⟩ := bind_eq_ok_iff.mp h
    obtain ⟨_, -, heq⟩ := bind_eq_ok_iff.mp h
    cases heq
    exact ⟨rfl, trivial⟩
  · obtain ⟨_, -, h⟩ := bind_eq_ok_iff.mp h
    obtain ⟨_, -, heq⟩ := bind_eq_ok_iff.mp h
    cases heq
    exact ⟨rfl, trivial⟩
  · obtain ⟨_, hlocal, heq⟩ := bind_eq_ok_iff.mp h
    cases heq
    obtain ⟨_, -, heq'⟩ := bind_eq_ok_iff.mp hlocal
    cases heq'
    exact hpop _
  · obtain ⟨_, -, h⟩ := bind_eq_ok_iff.mp h
    obtain ⟨_, -, h⟩ := bind_eq_ok_iff.mp h
    obtain ⟨_, -, h⟩ := bind_eq_ok_iff.mp h
    obtain ⟨_, -, heq⟩ := bind_eq_ok_iff.mp h
    cases heq
    exact hpop _
  · obtain ⟨_, -, heq⟩ := bind_eq_ok_iff.mp h
    cases heq
    exact ⟨rfl, trivial⟩
  · next hconst hload hstore hfield hcall =>
    cases h
    have hnone : popped i m.2 = [] := by
      unfold popped
      split
      · next index => exact absurd rfl (hstore index)
      · next index => exact absurd rfl (hfield index)
      · rfl
    rw [hnone]
    exact ⟨rfl, trivial⟩

/-- Only the loads push without popping first. -/
theorem pushed_some {ob : α} (h : pushed consts i m = .ok (some ob, m')) :
    (i.1 = .LOAD_CONST ∨ i.1 = .LOAD) ∧ popped i m.2 = [] ∨ m'.2.length < m.2.length := by
  unfold pushed at h
  split at h
  · exact .inl ⟨.inl rfl, rfl⟩
  · exact .inl ⟨.inr rfl, rfl⟩
  · obtain ⟨_, -, heq⟩ := bind_eq_ok_iff.mp h
    cases heq
  · obtain ⟨_, -, h⟩ := bind_eq_ok_iff.mp h
    obtain ⟨ob', hob, h⟩ := bind_eq_ok_iff.mp h
    obtain ⟨_, -, h⟩ := bind_eq_ok_iff.mp h
    obtain ⟨_, -, heq⟩ := bind_eq_ok_iff.mp h
    cases heq
    right
    rw [OB_INCREF_eq_ok_iff] at hob
    cases hstack : m.2 with
    | nil =>
      rw [hstack] at hob
      cases hob
    | cons ob l => simp [POP]
  · obtain ⟨_, -, heq⟩ := bind_eq_ok_iff.mp h
    cases heq
  · cases h

end pushes

section run

variable [Objects α] {c c' : Config α} {ops : List (StackOp α)} {stk : Stack α}

omit [Objects α] in
theorem inRoom_popped (n : Nat) (l : List α) (i : OpCode × List Nat) :
    InRoom n l (popped i l) := by
  unfold popped
  split <;> trivial

omit [Objects α] in
theorem push_last_ok {stack stack' : List α} {ob : Option α}
    (h : push_last stack ob = .ok stack') :
    pending stack (pushing ob) = stack' ∧ LastIn stack (pushing ob) ∧
      InRoom MAX_STACK_SIZE stack (pushing ob) := by
  cases ob with
  | none =>
    cases h
    exact ⟨rfl, trivial, trivial⟩
  | some ob =>
    obtain ⟨hroom, rfl⟩ := PUSH_ok h
    exact ⟨rfl, trivial, hroom, trivial⟩

/-- A pass changes the stack by its uses. -/
theorem pass_uses {consts : Option α} {i : OpCode × List Nat} {cf : CallFrame α} {l : List α}
    {m' : Machine α} {ob : Option α} {stack : List α}
    (hpushed : pushed consts i (cf, l) = .ok (ob, m')) (hpush : push_last m'.2 ob = .ok stack) :
    pending l (popped i l ++ pushing ob) = stack ∧ LastIn l (popped i l ++ pushing ob) ∧
      InRoom MAX_STACK_SIZE l (popped i l ++ pushing ob) := by
  obtain ⟨hstack, hlast⟩ := pushed_stack hpushed
  obtain ⟨hstack', hlast', hroom'⟩ := push_last_ok hpush
  dsimp only at hstack hlast
  rw [pending_append, lastIn_append, inRoom_append, hstack]
  exact ⟨hstack', ⟨hlast, hlast'⟩, inRoom_popped _ _ _, hroom'⟩

theorem Step.uses (h : Step c ops c') :
    pending c.stack ops = c'.stack ∧ LastIn c.stack ops ∧ InRoom MAX_STACK_SIZE c.stack ops := by
  cases h with
  | enter | call_none | call_tuple | done => exact ⟨rfl, trivial, trivial⟩
  | pass hfetch hpushed hpush => exact pass_uses hpushed hpush
  | leave hfetch hpushed hpush => exact pass_uses hpushed hpush
  | result hpush =>
    obtain ⟨hroom, rfl⟩ := PUSH_ok hpush
    exact ⟨rfl, trivial, hroom, trivial⟩

/-- The steps of a run write inside the array, and what they pop was pushed
last. -/
theorem Reaches.uses (h : Reaches c ops c') :
    pending c.stack ops = c'.stack ∧ LastIn c.stack ops ∧ InRoom MAX_STACK_SIZE c.stack ops := by
  induction h with
  | refl => exact ⟨rfl, trivial, trivial⟩
  | step _ hstep ih =>
    obtain ⟨hstack, hlast, hroom⟩ := ih
    obtain ⟨hstack', hlast', hroom'⟩ := hstep.uses
    rw [pending_append, lastIn_append, inRoom_append, hstack]
    exact ⟨hstack', ⟨hlast, hlast'⟩, hroom, hroom'⟩

/-- An object is pushed inside the array where the stack is not full when an
object is added. -/
theorem Config.Room.push {pops : List (StackOp α)} {ob : α} (h : c.Room)
    (hlength : c.stack.length ≤ MAX_STACK_SIZE) (hmakes : c.Makes pops ob) :
    (pending c.stack pops).length < MAX_STACK_SIZE := by
  cases hmakes with
  | pass hfetch hpushed =>
    obtain ⟨hstack, -⟩ := pushed_stack hpushed
    obtain ⟨hop, hnone⟩ | hlt := pushed_some hpushed
    · dsimp only at hnone
      rw [hnone]
      exact h (.load hfetch hop hpushed)
    · dsimp only at hstack hlt
      rw [Config.stack, hstack]
      exact Nat.lt_of_lt_of_le hlt hlength
  | result => exact h .result
  | single hframe hkind hargs hret hitems => exact h (.single hframe hkind hargs hret hitems)

/-- Where an object is added, it is pushed without a pop before. -/
theorem Config.Adds.makes (h : c.Adds) : ∃ ob, c.Makes [] ob := by
  cases h with
  | @load codeinfo m m' back depth i cf ob hfetch hop hpushed =>
    have hnone : popped i m.2 = [] := by
      obtain ⟨op, operands⟩ := i
      obtain rfl | rfl := hop <;> rfl
    exact ⟨ob, hnone ▸ .pass hfetch hpushed⟩
  | result => exact ⟨_, .result⟩
  | single hframe hkind hargs hret hitems => exact ⟨_, .single hframe hkind hargs hret hitems⟩

/-- A safe push finds a free cell. -/
theorem Config.Safe.room {l : List α} (h : c.Safe stk l ops)
    (hstk : stk.Holds MAX_STACK_SIZE l) (hstack : pending l ops = c.stack) : c.Room := by
  intro hadds
  obtain ⟨-, stk₁, huses, -, -, hinside⟩ := h
  obtain ⟨hholds, -⟩ := hstk.uses huses
  obtain ⟨ob, hmakes⟩ := hadds.makes
  by_contra hfull
  rw [← hstack] at hfull
  exact hinside [] ob stk₁ hmakes (.nil stk₁) (hholds.push_full hfull ob)

/-- For every run of `Koala_RunCode`, with an array that holds the stack: the
stack is used last in first out and no push writes outside the array if and only
if no object is added to a full stack. -/
theorem stack_safe_iff {ks ks₁ : KoalaState α} {code : CodeObject α} {ob args : Option α}
    (hstk : stk.Holds MAX_STACK_SIZE ks.stack) (hpush : push_frame code ob args ks = .ok ks₁) :
    (∀ ops c, Reaches (.frames ks₁) ops c → c.Safe stk ks.stack ops) ↔
      ∀ ops c, Reaches (.frames ks₁) ops c → c.Room := by
  have hstart : Config.stack (.frames ks₁) = ks.stack := by
    rw [push_frame] at hpush
    split at hpush
    · cases hpush
    · cases hpush
      rfl
  refine forall_congr' fun ops => forall_congr' fun c => imp_congr_right fun hreaches => ?_
  obtain ⟨hstack, hlast, hroom⟩ := hreaches.uses
  rw [hstart] at hstack hlast hroom
  obtain ⟨stk₁, huses⟩ := hstk.exists_uses hlast hroom
  obtain ⟨hholds, -⟩ := hstk.uses huses
  constructor
  · exact fun hsafe => hsafe.room hstk hstack
  · intro hRoom
    obtain ⟨stk₂, hpop, -⟩ := hholds.pop_ok
    refine ⟨hlast, stk₁, huses, hholds.top_ok, ⟨stk₂, hpop⟩, ?_⟩
    intro pops ob stk₃ hmakes huses' herror
    obtain ⟨hholds', -⟩ := hholds.uses huses'
    have hlt := hRoom.push (hstack ▸ hholds.length) hmakes
    rw [← hstack] at hlt
    obtain ⟨stk₄, hok, -⟩ := hholds'.push_ok hlt ob
    rw [hok] at herror
    cases herror

end run

section instances

/-- A C function without results, and its frame. -/
def silent : CodeObject Value := ⟨⟨[], []⟩, .CFUNC_KIND fun _ _ => .ok none⟩

def silent_frame : CallFrame Value where
  code := silent
  ob := none
  args := none
  index := -1
  size := sizeofCallFrame
  locvars := fun _ => none
  touched := []

theorem silent_reaches {ops : List (StackOp Value)} {c : Config Value}
    (h : Reaches (.frames ⟨[silent_frame], 1, []⟩) ops c) :
    c = .frames ⟨[silent_frame], 1, []⟩ ∨ c = .frames ⟨[], 1, []⟩ := by
  induction h with
  | refl => exact .inl rfl
  | step _ hstep ih =>
    obtain rfl | rfl := ih
    · cases hstep with
      | enter hframe hkind =>
        cases hframe
        cases hkind
      | call_none hframe hkind =>
        cases hframe
        exact .inr rfl
      | call_tuple hframe hkind _ hret =>
        cases hframe
        cases hkind
        cases hret
    · cases hstep with
      | enter hframe => cases hframe
      | call_none hframe => cases hframe
      | call_tuple hframe => cases hframe

/-- Its run pushes nothing. -/
theorem stack_safe_iff_silent : push_frame silent none none .init = .ok ⟨[silent_frame], 1, []⟩ ∧
    ∀ ops c, Reaches (.frames ⟨[silent_frame], 1, []⟩) ops c →
      c.Safe (Init_Stack 8 fun _ => none) [] ops := by
  have hstart : push_frame silent none none .init = .ok ⟨[silent_frame], 1, []⟩ := rfl
  refine ⟨hstart, (stack_safe_iff (.init 8 _) hstart).mpr fun ops c hreaches hadds => ?_⟩
  obtain rfl | rfl := silent_reaches hreaches
  · exact Nat.succ_pos 7
  · exact Nat.succ_pos 7

/-- A C function that gives a tuple of nine objects. -/
def nine : CodeObject Value :=
  ⟨⟨[], []⟩, .CFUNC_KIND fun _ _ => .ok (some (.Tuple (List.replicate 9 0)))⟩

theorem not_stack_safe : ¬ ∀ (code : CodeObject Value) (ks₁ : KoalaState Value),
    push_frame code none none .init = .ok ks₁ → ∀ ops c, Reaches (.frames ks₁) ops c →
      c.Safe (Init_Stack 8 fun _ => none) [] ops := by
  intro h
  let frame : CallFrame Value := ⟨nine, none, none, -1, sizeofCallFrame, fun _ => none, []⟩
  let ks : KoalaState Value := ⟨[frame], 1, []⟩
  -- Eight of the nine objects are pushed.
  have hresults : push_results ks.stack (List.replicate 8 (some (.Integer 0))) =
      .ok (List.replicate 8 (.Integer 0)) := rfl
  obtain ⟨ops, hreaches⟩ := push_results_reaches hresults [some (.Integer 0)]
  have hcall : Step (.frames ks) [] (.results (List.replicate 9 (some (.Integer 0))) ks) :=
    .call_tuple rfl rfl rfl rfl rfl
  have hrun := hcall.reaches.trans hreaches
  have hsafe := h nine ks rfl _ _ hrun
  have hroom := hsafe.room (.init 8 _) hrun.uses.1
  have hadds : Config.Adds (.results ([] ++ [some (.Integer 0)])
      { ks with stack := List.replicate 8 (Value.Integer 0) }) := .result
  exact absurd (hroom hadds) (by decide)

end instances

end koala.eval
