import Koala.Task.Interleaved
import Mathlib.Tactic.Common

namespace fifo

variable {A : Type}

/-- A queue that held `before` took in `ins` and let out `outs`, each at its end. -/
def Passes (before ins outs after : List A) : Prop := before ++ ins = outs ++ after

variable {before ins outs middle ins' outs' after : List A}

theorem Passes.refl (before : List A) : Passes before [] [] before := List.append_nil before

theorem Passes.enter (before ins : List A) : Passes before ins [] (before ++ ins) := rfl

theorem Passes.leave (a : A) (after : List A) : Passes (a :: after) [] [a] after :=
  List.append_nil _

theorem Passes.trans (h : Passes before ins outs middle) (h' : Passes middle ins' outs' after) :
    Passes before (ins ++ ins') (outs ++ outs') after := by
  rw [Passes] at h h' ⊢
  rw [← List.append_assoc, h, List.append_assoc, h', List.append_assoc]

theorem Passes.length_le (h : Passes before ins outs after) :
    before.length ≤ outs.length + after.length := by
  have hlength := congrArg List.length h
  simp only [List.length_append] at hlength
  omega

/-- What is in the queue comes out at its turn, or still waits and is as much nearer. -/
theorem Passes.turn (h : Passes before ins outs after) {i : Nat} {a : A}
    (hget : before[i]? = some a) :
    outs[i]? = some a ∨ outs.length ≤ i ∧ after[i - outs.length]? = some a := by
  have hlt : i < before.length := (List.getElem?_eq_some_iff.1 hget).1
  have hboth : (outs ++ after)[i]? = some a := by
    rw [← h, List.getElem?_append_left hlt, hget]
  obtain hout | hin := Nat.lt_or_ge i outs.length
  · rw [List.getElem?_append_left hout] at hboth
    exact .inl hboth
  · rw [List.getElem?_append_right hin] at hboth
    exact .inr ⟨hin, hboth⟩

end fifo

namespace koala.task

set_option linter.style.nameCheck false

open fifo

/-- The task that `task_switch_to` is about to make the current one. -/
def Pc.next : Pc → Option TaskId
  | .is_running _ to' => some to'
  | .set_ready _ _ to' => some to'
  | .requeue _ _ to' => some to'
  | .is_done _ _ to' => some to'
  | .is_waiting _ _ to' => some to'
  | .check_ready _ _ to' => some to'
  | .set_running _ _ to' => some to'
  | .set_current _ _ to' => some to'
  | _ => none

/-- The task that the next action makes the current one. -/
def Pc.switch : Pc → Option TaskId
  | .set_current _ _ to' => some to'
  | _ => none

/-- A processor owes a switch from the call by which the current task gives it
up until the next task is the current one, or until it has found no task. -/
def Pc.owed : Pc → Nat
  | .load_balance _ => 1
  | .balance _ _ _ => 1
  | .get _ => 1
  | .is_running _ _ => 1
  | .set_ready _ _ _ => 1
  | .requeue _ _ _ => 1
  | .is_done _ _ _ => 1
  | .is_waiting _ _ _ => 1
  | .check_ready _ _ _ => 1
  | .set_running _ _ _ => 1
  | .set_current _ _ _ => 1
  | .set_result _ => 1
  | .exit_swap _ => 1
  | .exit_unjoined => 1
  | .exit_take _ => 1
  | .exit_check _ _ => 1
  | .exit_clear _ _ => 1
  | .exit_ready _ _ => 1
  | .exit_result _ _ => 1
  | .exit_schedule _ => 1
  | .set_done => 1
  | _ => 0

/-- A single processor has none to steal from, and it looks for the idle task
only when the deque is empty. -/
def Pc.Alone (deque : List TaskId) : Pc → Prop
  | .steal _ _ _ _ => False
  | .keep _ _ _ _ _ => False
  | .no_task_done _ => deque = []
  | .no_task_waiting _ => deque = []
  | .no_task_routine => deque = []
  | _ => True

/-- The tasks that are to run, in their order. -/
def Proc.line (proc : Proc) : List TaskId := proc.pc.next.toList ++ proc.deque

/-- The calls by which the current task gives up its processor. -/
def Op.gives : Op → Nat
  | .create => 0
  | .yield => 1
  | .join _ => 0
  | .finish _ => 1

/-- A run of one processor in which tasks gave it up `gives` times, by
`task_yield` or as they finished, and which made the tasks `switches` the
current ones. -/
inductive Run (s : State) : Nat → List TaskId → State → Prop where
  | refl : Run s 0 [] s
  | op {gives : Nat} {switches : List TaskId} {s' : State} (h : Run s gives switches s')
    (hpc : (s'.procs 0).pc = .user) {op : Op} (hlegal : op.Legal 1 0 s') :
    Run s (gives + op.gives) switches (start 0 s' op)
  | run {gives : Nat} {switches : List TaskId} {s' : State} (h : Run s gives switches s')
    (hpc : (s'.procs 0).pc ≠ .user) :
    Run s gives (switches ++ (s'.procs 0).pc.switch.toList) (run 1 0 s')

@[simp] theorem State.setTask_procs (s : State) (t : TaskId) (f : Task → Task) :
    (s.setTask t f).procs = s.procs := rfl

@[simp] theorem State.log_procs (s : State) (e : Event) : (s.log e).procs = s.procs := rfl

@[simp] theorem State.goto_procs (s : State) (p : Nat) (pc : Pc) :
    (s.goto p pc).procs p = { s.procs p with pc } := by
  simp [goto, setProc]

@[simp] theorem State.setProc_procs (s : State) (p : Nat) (f : Proc → Proc) :
    (s.setProc p f).procs p = f (s.procs p) := by
  simp [setProc]

@[simp] theorem State.push_procs (s : State) (p : Nat) (t : TaskId) :
    (s.push p t).procs p = { s.procs p with deque := (s.procs p).deque ++ [t] } := by
  simp [push, setProc]

@[simp] theorem State.pop_procs (s : State) (p : Nat) :
    (s.pop p).procs p = { s.procs p with deque := (s.procs p).deque.tail } := by
  simp [pop, setProc]

/-- What actions do to the line of one processor: tasks join it at its end, and those
that become the current ones leave it at its head. A processor that owes a switch goes
on to owe it until then, unless nobody is left who stood in line. -/
structure Moves (proc proc' : Proc) (gives : Nat) (switches : List TaskId) : Prop where
  alone : proc'.pc.Alone proc'.deque
  line : ∃ ins, Passes proc.line ins switches proc'.line
  owed : proc.line.length ≤ switches.length ∨
    gives + proc.pc.owed ≤ switches.length + proc'.pc.owed

theorem Moves.refl {proc : Proc} (halone : proc.pc.Alone proc.deque) : Moves proc proc 0 [] :=
  ⟨halone, ⟨[], .refl _⟩, .inr (by simp)⟩

theorem Moves.trans {proc proc' proc'' : Proc} {gives gives' : Nat}
    {switches switches' : List TaskId} (h : Moves proc proc' gives switches)
    (h' : Moves proc' proc'' gives' switches') :
    Moves proc proc'' (gives + gives') (switches ++ switches') := by
  obtain ⟨ins, hpasses⟩ := h.line
  obtain ⟨ins', hpasses'⟩ := h'.line
  refine ⟨h'.alone, ⟨_, hpasses.trans hpasses'⟩, ?_⟩
  have hlength := hpasses.length_le
  have howed := h.owed
  have howed' := h'.owed
  rw [List.length_append]
  omega

/-- An action after which the same tasks are in line. -/
theorem Moves.stays {proc proc' : Proc} (halone : proc'.pc.Alone proc'.deque)
    (hline : proc'.line = proc.line) (howed : proc.pc.owed ≤ proc'.pc.owed) :
    Moves proc proc' 0 [] := by
  refine ⟨halone, ⟨[], ?_⟩, .inr ?_⟩
  · rw [hline]
    exact .refl _
  · simpa using howed

/-- An action by which a task joins the line. -/
theorem Moves.joins {proc proc' : Proc} (t : TaskId) (halone : proc'.pc.Alone proc'.deque)
    (hline : proc'.line = proc.line ++ [t])
    (howed : proc.line.length = 0 ∨ proc.pc.owed ≤ proc'.pc.owed) : Moves proc proc' 0 [] := by
  refine ⟨halone, ⟨[t], ?_⟩, ?_⟩
  · rw [hline]
    exact .enter ..
  · simpa using howed

/-- What each action of one processor does to its line. -/
theorem Moves.run {s : State} (halone : (s.procs 0).pc.Alone (s.procs 0).deque)
    (hfailed : ∀ routine, ((run 1 0 s).procs 0).pc ≠ .failed routine) :
    Moves (s.procs 0) ((run 1 0 s).procs 0) 0 (s.procs 0).pc.switch.toList := by
  rw [koala.task.run] at hfailed ⊢
  rcases hproc : s.procs 0 with ⟨current, stack, deque, pc⟩
  simp only [hproc] at halone hfailed ⊢
  cases pc with
  | steal k count i num_steal => exact halone.elim
  | keep k count i num_steal task => exact halone.elim
  | get k =>
    cases deque with
    | cons task rest =>
      -- the head of the deque is taken out and stays in line
      refine .stays ?_ ?_ ?_ <;> simp [exec, hproc, Pc.Alone, Proc.line, Pc.next, Pc.owed]
    | nil =>
      refine ⟨?_, ⟨[], ?_⟩, .inl le_rfl⟩ <;> cases k <;>
        simp [exec, hproc, Pc.Alone, Passes, Proc.line, Pc.next, Pc.switch]
  | no_task_done k =>
    have hempty : deque = [] := halone
    subst hempty
    by_cases hdone : (s.tasks current).state = .TASK_STATE_DONE
    · refine .joins 0 ?_ ?_ (.inl rfl) <;> simp [exec, hproc, hdone, Pc.Alone, Proc.line, Pc.next]
    · refine .stays ?_ ?_ ?_ <;>
        simp [exec, hproc, hdone, Pc.Alone, Proc.line, Pc.next, Pc.owed]
  | no_task_waiting k =>
    have hempty : deque = [] := halone
    subst hempty
    by_cases hwaiting : (s.tasks current).state = .TASK_STATE_WAITING
    · refine .joins 0 ?_ ?_ (.inl rfl) <;>
        simp [exec, hproc, hwaiting, Pc.Alone, Proc.line, Pc.next]
    · refine .stays ?_ ?_ ?_ <;> cases k <;>
        simp [exec, hproc, hwaiting, resume, Pc.Alone, Proc.line, Pc.next, Pc.owed]
  | requeue k from' to' =>
    by_cases hidle : from' = 0
    · refine .stays ?_ ?_ ?_ <;>
        simp [exec, hproc, hidle, Pc.Alone, Proc.line, Pc.next, Pc.owed]
    · refine .joins from' ?_ ?_ (.inr ?_) <;>
        simp [exec, hproc, hidle, Pc.Alone, Proc.line, Pc.next, Pc.owed]
  | exit_schedule join_task =>
    refine .joins join_task ?_ ?_ (.inr ?_) <;>
      simp [exec, hproc, Pc.Alone, Proc.line, Pc.next, Pc.owed]
  | set_current k from' to' =>
    refine ⟨?_, ⟨[], ?_⟩, .inr ?_⟩
    · simp [exec, Pc.Alone]
    · simp only [exec, State.goto_procs, State.setProc_procs, hproc]
      exact .leave to' deque
    · simp [Pc.owed, Pc.switch]
  | swap k from' to' =>
    cases hctx : (s.tasks to').context with
    | none =>
      refine .stays ?_ ?_ ?_ <;> simp [exec, hctx, hproc, Pc.Alone, Proc.line, Pc.next, Pc.owed]
    | some k' =>
      refine .stays ?_ ?_ ?_ <;> cases k' <;>
        simp [exec, hctx, hproc, resume, Pc.Alone, Proc.line, Pc.next, Pc.owed]
  | _ =>
    -- the others write to tasks only, and take no branch to a failed assertion
    refine .stays ?_ ?_ ?_ <;> simp only [exec] at hfailed ⊢ <;>
      (try split at hfailed) <;> (try split at hfailed) <;>
      simp_all [Pc.Alone, Proc.line, Pc.next, Pc.owed]

theorem Moves.start {s : State} {op : Op} (hpc : (s.procs 0).pc = .user) :
    Moves (s.procs 0) ((start 0 s op).procs 0) op.gives [] := by
  rcases hproc : s.procs 0 with ⟨current, stack, deque, pc⟩
  obtain rfl : pc = .user := by simpa [hproc] using hpc
  cases op with
  | create =>
    refine .joins s.made ?_ ?_ (.inr ?_) <;>
      simp [koala.task.start, hproc, Pc.Alone, Proc.line, Pc.next, Pc.owed, State.push,
        State.setProc]
  | yield =>
    refine ⟨?_, ⟨[], ?_⟩, .inr ?_⟩ <;>
      simp [koala.task.start, hproc, Pc.Alone, Passes, Proc.line, Pc.next, Pc.owed, Op.gives]
  | join task =>
    refine .stays ?_ ?_ ?_ <;>
      simp [koala.task.start, hproc, Pc.Alone, Proc.line, Pc.next, Pc.owed]
  | finish result =>
    refine ⟨?_, ⟨[], ?_⟩, .inr ?_⟩ <;>
      simp [koala.task.start, hproc, Pc.Alone, Passes, Proc.line, Pc.next, Pc.owed, Op.gives]

theorem Reachable.alone {s : State} (h : Reachable 1 s) :
    (s.procs 0).pc.Alone (s.procs 0).deque := by
  induction h with
  | init => exact trivial
  | @step s s' h hstep ih =>
    have hsettles : Settles s' := (Reachable.step h hstep).settles
    cases hstep with
    | @op p hp hpc op hlegal =>
      obtain rfl := Nat.lt_one_iff.1 hp
      exact (Moves.start hpc).alone
    | @run p hp hpc =>
      obtain rfl := Nat.lt_one_iff.1 hp
      exact (Moves.run ih hsettles.not_failed).alone

theorem Run.reachable {s s' : State} {gives : Nat} {switches : List TaskId}
    (hrun : Run s gives switches s') (h : Reachable 1 s) : Reachable 1 s' := by
  induction hrun with
  | refl => exact h
  | op _ hpc hlegal ih => exact .step ih (.op Nat.one_pos hpc hlegal)
  | run _ hpc ih => exact .step ih (.run Nat.one_pos hpc)

theorem Proc.line_user {proc : Proc} (h : proc.pc = .user) : proc.line = proc.deque := by
  rw [Proc.line, h]
  rfl

theorem Run.moves {s s' : State} {gives : Nat} {switches : List TaskId}
    (hrun : Run s gives switches s') (h : Reachable 1 s) :
    Moves (s.procs 0) (s'.procs 0) gives switches := by
  induction hrun with
  | refl => exact .refl h.alone
  | @op gives switches s' hrun hpc op hlegal ih => simpa using ih.trans (Moves.start hpc)
  | @run gives switches s' hrun hpc ih =>
    have hreach : Reachable 1 (koala.task.run 1 0 s') :=
      .step (hrun.reachable h) (.run Nat.one_pos hpc)
    exact ih.trans (Moves.run (hrun.reachable h).alone hreach.settles.not_failed)

/-- The tasks of the deque of one processor are switched to in its order. In every run from
a point at which a task runs by itself to another one, the task that is at place `i` of the
deque is the one that is switched to `i`-th, or it is still in the deque behind the tasks
that were in front of it, and then there were as many switches at least as the running
tasks gave up the processor. -/
theorem turn_comes {s s' : State} {gives i : Nat} {switches : List TaskId} {t : TaskId}
    (h : Reachable 1 s) (huser : (s.procs 0).pc = .user)
    (hget : (s.procs 0).deque[i]? = some t) (hrun : Run s gives switches s')
    (huser' : (s'.procs 0).pc = .user) :
    switches[i]? = some t ∨
      gives ≤ switches.length ∧ switches.length ≤ i ∧
        (s'.procs 0).deque[i - switches.length]? = some t := by
  obtain ⟨-, ⟨ins, hpasses⟩, howed⟩ := hrun.moves h
  rw [Proc.line_user huser] at hpasses howed
  rw [Proc.line_user huser'] at hpasses
  obtain hturn | ⟨hle, hstill⟩ := hpasses.turn hget
  · exact .inl hturn
  · have hlt : i < (s.procs 0).deque.length := (List.getElem?_eq_some_iff.1 hget).1
    have hgives : gives ≤ switches.length := by
      rw [huser, huser'] at howed
      simp only [Pc.owed] at howed
      omega
    exact .inr ⟨hgives, hle, hstill⟩

/-- The main processor has created two tasks. -/
def created_two : State := start 0 (start 0 (task_init_procs 1) .create) .create

/-- It has yielded, and the first one runs. -/
def yielded : State := (run 1 0)^[10] (start 0 created_two .yield)

theorem created_two_reachable : Reachable 1 created_two :=
  .step (.step .init (.op Nat.one_pos rfl (show Op.Legal _ 0 _ .create from trivial)))
    (.op Nat.one_pos rfl (show Op.Legal _ 0 _ .create from trivial))

theorem Run.steps {s s' : State} {gives : Nat} {switches : List TaskId}
    (h : Run s gives switches s') (pc : Pc) (hpc : (s'.procs 0).pc = pc)
    (hne : pc ≠ .user := by simp) :
    Run s gives (switches ++ pc.switch.toList) (koala.task.run 1 0 s') :=
  hpc ▸ h.run (hpc ▸ hne)

theorem yielded_run : Run created_two 1 [1] yielded := by
  have hyield : Run created_two 1 [] (start 0 created_two .yield) :=
    .op .refl rfl (show Op.Legal 1 0 _ .yield from trivial)
  have hget := (hyield.steps (.load_balance .user) rfl).steps (.balance .user 2 0) rfl
  have htaken := (hget.steps (.get .user) rfl).steps (.is_running .user 1) rfl
  have hleft := (htaken.steps (.set_ready .user 0 1) rfl).steps (.requeue .user 0 1) rfl
  have hready := (hleft.steps (.check_ready .user 0 1) rfl).steps (.set_running .user 0 1) rfl
  exact (hready.steps (.set_current .user 0 1) rfl).steps (.swap .user 0 1) rfl

/-- The second task is next. -/
theorem turn_comes_second :
    [1][1]? = some 2 ∨
      1 ≤ [1].length ∧ [1].length ≤ 1 ∧ (yielded.procs 0).deque[1 - [1].length]? = some 2 :=
  turn_comes created_two_reachable rfl rfl yielded_run rfl

end koala.task
