import Koala.Task.Model

namespace koala.task

set_option linter.style.nameCheck false

/-- A state of `m + 2` processors of which only the first two have done
something, with two tasks `first` and `second` besides the idle ones. -/
structure Scene where
  main : Proc
  other : Proc
  main_idle : Task
  other_idle : Task
  first : Task
  second : Task
  events : List Event

namespace Scene

variable {m : Nat} {S T : Scene}

def state (m : Nat) (S : Scene) : State where
  procs p := if p = 0 then S.main else if p = 1 then S.other else ⟨p, p, [], .routine⟩
  tasks t :=
    if t = 0 then S.main_idle else if t = 1 then S.other_idle
    else if t = m + 2 then S.first else if t = m + 3 then S.second else idle
  made := m + 4
  events := S.events

@[simp] theorem state_procs_zero : (S.state m).procs 0 = S.main := rfl

@[simp] theorem state_procs_one : (S.state m).procs 1 = S.other := rfl

theorem state_deque {p : Nat} (hp : 2 ≤ p) : ((S.state m).procs p).deque = [] := by
  rw [state]
  simp only [show p ≠ 0 by omega, show p ≠ 1 by omega, if_false]

@[simp] theorem state_tasks_zero : (S.state m).tasks 0 = S.main_idle := rfl

@[simp] theorem state_tasks_one : (S.state m).tasks 1 = S.other_idle := rfl

@[simp] theorem state_tasks_first : (S.state m).tasks (m + 2) = S.first := by simp [state]

@[simp] theorem state_tasks_second : (S.state m).tasks (m + 3) = S.second := by simp [state]

@[simp] theorem state_setProc_zero {f : Proc → Proc} :
    (S.state m).setProc 0 f = state m { S with main := f S.main } := by
  simp only [State.setProc, state, State.mk.injEq, and_true]
  funext p
  by_cases hp : p = 0 <;> simp [hp]

@[simp] theorem state_setProc_one {f : Proc → Proc} :
    (S.state m).setProc 1 f = state m { S with other := f S.other } := by
  simp only [State.setProc, state, State.mk.injEq, and_true]
  funext p
  by_cases hp : p = 1 <;> simp [hp]

@[simp] theorem state_setTask_zero {f : Task → Task} :
    (S.state m).setTask 0 f = state m { S with main_idle := f S.main_idle } := by
  simp only [State.setTask, state, State.mk.injEq, and_true, true_and]
  funext t
  by_cases ht : t = 0 <;> simp [ht]

@[simp] theorem state_setTask_one {f : Task → Task} :
    (S.state m).setTask 1 f = state m { S with other_idle := f S.other_idle } := by
  simp only [State.setTask, state, State.mk.injEq, and_true, true_and]
  funext t
  by_cases ht : t = 1 <;> simp [ht]

@[simp] theorem state_setTask_first {f : Task → Task} :
    (S.state m).setTask (m + 2) f = state m { S with first := f S.first } := by
  simp only [State.setTask, state, State.mk.injEq, and_true, true_and]
  funext t
  by_cases ht : t = m + 2 <;> simp [ht]

@[simp] theorem state_setTask_second {f : Task → Task} :
    (S.state m).setTask (m + 3) f = state m { S with second := f S.second } := by
  simp only [State.setTask, state, State.mk.injEq, and_true, true_and]
  funext t
  by_cases ht : t = m + 3 <;> simp [ht]

@[simp] theorem state_log {e : Event} :
    (S.state m).log e = state m { S with events := S.events ++ [e] } := rfl

/-- The main processor and the other one are both in the middle of something. -/
theorem run_main (h : Reachable (m + 2) (S.state m)) (hpc : S.main.pc ≠ .user)
    (hexec : exec (m + 2) 0 (S.state m) S.main.pc = T.state m) :
    Reachable (m + 2) (T.state m) := by
  have hrun : Step (m + 2) (S.state m) (run (m + 2) 0 (S.state m)) := .run (by omega) hpc
  rw [run, state_procs_zero, hexec] at hrun
  exact h.step hrun

theorem run_other (h : Reachable (m + 2) (S.state m)) (hpc : S.other.pc ≠ .user)
    (hexec : exec (m + 2) 1 (S.state m) S.other.pc = T.state m) :
    Reachable (m + 2) (T.state m) := by
  have hrun : Step (m + 2) (S.state m) (run (m + 2) 1 (S.state m)) := .run (by omega) hpc
  rw [run, state_procs_one, hexec] at hrun
  exact h.step hrun

end Scene

namespace Scene

variable {m : Nat} {S : Scene} {k : Cont} {count i : Nat}

def mainAt (S : Scene) (pc : Pc) : Scene := { S with main := { S.main with pc } }

def otherAt (S : Scene) (pc : Pc) : Scene := { S with other := { S.other with pc } }

@[simp] theorem mainAt_goto {pc pc' : Pc} :
    ((S.mainAt pc).state m).goto 0 pc' = (S.mainAt pc').state m := state_setProc_zero

@[simp] theorem otherAt_goto {pc pc' : Pc} :
    ((S.otherAt pc).state m).goto 1 pc' = (S.otherAt pc').state m := state_setProc_one

/-- The main processor has created two tasks. -/
def made (m : Nat) : Scene where
  main := ⟨0, 0, [m + 2, m + 3], .user⟩
  other := ⟨1, 1, [], .routine⟩
  main_idle := idle
  other_idle := idle
  first := created
  second := created
  events := []

theorem made_reachable : Reachable (m + 2) ((made m).state m) := by
  have hfirst : Reachable (m + 2) (start 0 (task_init_procs (m + 2)) .create) :=
    .step .init (.op (by omega) rfl (show Op.Legal _ 0 _ .create from trivial))
  have hpc : ((start 0 (task_init_procs (m + 2)) .create).procs 0).pc = .user := by
    simp [start, State.push, State.setProc, State.setTask, task_init_procs]
  have hsecond := hfirst.step (.op (by omega) hpc (show Op.Legal _ 0 _ .create from trivial))
  convert hsecond using 1
  simp only [state, start, State.push, State.setProc, State.setTask, task_init_procs,
    State.mk.injEq, made]
  refine ⟨?_, ?_, trivial, trivial⟩
  · funext p
    by_cases hp : p = 0 <;> by_cases hp' : p = 1 <;> simp [hp, hp']
  · funext t
    by_cases ht : t = m + 2
    · simp [ht]
    · by_cases ht' : t = m + 3 <;> simp [ht, ht']

/-- The other processor finds nothing in the deque of one that does nothing. -/
theorem other_looks (h : Reachable (m + 2) ((S.otherAt (.balance k count i)).state m))
    (hpos : 1 ≤ i) (hlt : i + 1 < m + 2) : Reachable (m + 2) ((S.otherAt (.balance k count (i + 1))).state m) := by
  have hmod : (i + 1) % (m + 2) = i + 1 := Nat.mod_eq_of_lt hlt
  have hdeque : ((S.otherAt (.balance k count i)).state m |>.procs (i + 1)).deque = [] :=
    state_deque (by omega)
  have hstep : Reachable (m + 2) ((S.otherAt (.steal k count (i + 1) 0)).state m) := by
    refine run_other h nofun ?_
    have hloop : i < 1 + (m + 2) - 1 := by omega
    have hne : i + 1 ≠ 1 := by omega
    change exec (m + 2) 1 _ (.balance k count i) = _
    simp only [exec, hmod]
    rw [if_pos hloop, if_neg hne, hdeque, otherAt_goto]
    simp
  exact run_other hstep nofun (by simp [exec, otherAt, State.goto])

theorem main_looks (h : Reachable (m + 2) ((S.mainAt (.balance k count i)).state m))
    (hother : S.other.deque = []) (hlt : i + 1 < m + 2) :
    Reachable (m + 2) ((S.mainAt (.balance k count (i + 1))).state m) := by
  have hmod : (i + 1) % (m + 2) = i + 1 := Nat.mod_eq_of_lt hlt
  have hdeque : ((S.mainAt (.balance k count i)).state m |>.procs (i + 1)).deque = [] := by
    by_cases hi : i = 0
    · subst hi
      exact hother
    · exact state_deque (by omega)
  have hstep : Reachable (m + 2) ((S.mainAt (.steal k count (i + 1) 0)).state m) := by
    refine run_main h nofun ?_
    have hloop : i < 0 + (m + 2) - 1 := by omega
    have hne : i + 1 ≠ 0 := by omega
    change exec (m + 2) 0 _ (.balance k count i) = _
    simp only [exec, hmod]
    rw [if_pos hloop, if_neg hne, hdeque, mainAt_goto]
    simp
  exact run_main hstep nofun (by simp [exec, mainAt, State.goto])

theorem other_looks_at_all (h : Reachable (m + 2) ((S.otherAt (.balance k count 1)).state m)) :
    Reachable (m + 2) ((S.otherAt (.balance k count (m + 1))).state m) := by
  have hlooks : ∀ d ≤ m, Reachable (m + 2) ((S.otherAt (.balance k count (d + 1))).state m) := by
    intro d hd
    induction d with
    | zero => exact h
    | succ d ih => exact other_looks (ih (by omega)) (by omega) (by omega)
  exact hlooks m le_rfl

theorem main_looks_at_all (h : Reachable (m + 2) ((S.mainAt (.load_balance k)).state m))
    (hother : S.other.deque = []) : Reachable (m + 2) ((S.mainAt (.get k)).state m) := by
  have hlooks : ∀ d ≤ m + 1, Reachable (m + 2)
      ((S.mainAt (.balance k S.main.deque.length d)).state m) := by
    intro d hd
    induction d with
    | zero => exact run_main h nofun (by simp [exec, mainAt, State.goto])
    | succ d ih => exact main_looks (ih (by omega)) hother (by omega)
  refine run_main (hlooks (m + 1) le_rfl) nofun ?_
  change exec (m + 2) 0 _ (.balance k _ (m + 1)) = _
  rw [exec, if_neg (by omega), mainAt_goto]

/-- The other processor has taken the first task and looks for one to run. -/
def stolen (m : Nat) : Scene :=
  { made m with main := ⟨0, 0, [m + 3], .user⟩, other := ⟨1, 1, [m + 2], .get .routine⟩ }

theorem stolen_reachable : Reachable (m + 2) ((stolen m).state m) := by
  have hroutine : Reachable (m + 2) (((made m).otherAt (.load_balance .routine)).state m) :=
    run_other made_reachable nofun (by simp [exec, made, otherAt, State.goto])
  have hbalance : Reachable (m + 2) (((made m).otherAt (.balance .routine 0 1)).state m) :=
    run_other hroutine nofun (by simp [exec, made, otherAt, State.goto])
  have hlast := other_looks_at_all hbalance
  have hmod : (m + 2) % (m + 2) = 0 := Nat.mod_self _
  have hsteal : Reachable (m + 2) (((made m).otherAt (.steal .routine 0 (m + 2) 1)).state m) := by
    refine run_other hlast nofun ?_
    change exec (m + 2) 1 _ (.balance .routine 0 (m + 1)) = _
    simp only [exec, hmod]
    rw [if_pos (by omega), if_neg (by omega), otherAt_goto]
    simp [otherAt, made]
  have hkeep : Reachable (m + 2) (({ made m with main := ⟨0, 0, [m + 3], .user⟩ }.otherAt
      (.keep .routine 0 (m + 2) 0 (m + 2))).state m) :=
    run_other hsteal nofun (by simp [exec, otherAt, made, State.goto, State.pop])
  have hkept : Reachable (m + 2) (((stolen m).otherAt (.steal .routine 0 (m + 2) 0)).state m) :=
    run_other hkeep nofun (by simp [exec, otherAt, made, stolen, State.goto, State.push])
  have hagain : Reachable (m + 2) (((stolen m).otherAt (.balance .routine 0 (m + 2))).state m) :=
    run_other hkept nofun (by simp [exec, otherAt, stolen, State.goto])
  refine run_other hagain nofun ?_
  change exec (m + 2) 1 _ (.balance .routine 0 (m + 2)) = _
  rw [exec, if_neg (by omega), otherAt_goto]
  rfl

/-- It runs the first task. -/
def first_runs (m : Nat) : Scene :=
  { stolen m with
    other := ⟨m + 2, m + 2, [], .user⟩
    other_idle := { idle with state := .TASK_STATE_READY, context := some .routine }
    first := { created with state := .TASK_STATE_RUNNING } }

theorem first_runs_reachable : Reachable (m + 2) ((first_runs m).state m) := by
  let S₁ : Scene := { stolen m with other := ⟨1, 1, [], .user⟩ }
  let S₂ : Scene := { S₁ with other_idle := { idle with state := .TASK_STATE_READY } }
  let S₃ : Scene := { S₂ with first := { created with state := .TASK_STATE_RUNNING } }
  let S₄ : Scene := { S₃ with other := ⟨m + 2, 1, [], .user⟩ }
  have h : Reachable (m + 2) ((S₁.otherAt (.is_running .routine (m + 2))).state m) :=
    run_other stolen_reachable nofun (by simp [exec, otherAt, stolen, State.goto, State.pop, S₁])
  have h : Reachable (m + 2) ((S₁.otherAt (.set_ready .routine 1 (m + 2))).state m) :=
    run_other h nofun (by simp [exec, otherAt, stolen, made, State.goto, idle, S₁])
  have h : Reachable (m + 2) ((S₂.otherAt (.requeue .routine 1 (m + 2))).state m) :=
    run_other h nofun (by simp [exec, otherAt, stolen, made, State.goto, S₁, S₂])
  have h : Reachable (m + 2) ((S₂.otherAt (.check_ready .routine 1 (m + 2))).state m) :=
    run_other h nofun (by simp [exec, otherAt, State.goto])
  have h : Reachable (m + 2) ((S₂.otherAt (.set_running .routine 1 (m + 2))).state m) :=
    run_other h nofun (by simp [exec, otherAt, stolen, made, created, State.goto, S₁, S₂])
  have h : Reachable (m + 2) ((S₃.otherAt (.set_current .routine 1 (m + 2))).state m) :=
    run_other h nofun (by simp [exec, otherAt, stolen, made, created, State.goto, S₁, S₂, S₃])
  have h : Reachable (m + 2) ((S₄.otherAt (.swap .routine 1 (m + 2))).state m) :=
    run_other h nofun (by simp [exec, otherAt, State.goto, S₁, S₂, S₃, S₄])
  exact run_other h nofun (by
    simp [exec, otherAt, State.goto, resume, first_runs, stolen, created, S₁, S₂, S₃, S₄])

/-- The main processor runs the second one. -/
def second_runs (m : Nat) : Scene :=
  { first_runs m with
    main := ⟨m + 3, m + 3, [], .user⟩
    main_idle := { idle with state := .TASK_STATE_READY, context := some .user }
    second := { created with state := .TASK_STATE_RUNNING } }

theorem second_runs_reachable : Reachable (m + 2) ((second_runs m).state m) := by
  let S₁ : Scene := { first_runs m with main := ⟨0, 0, [], .user⟩ }
  let S₂ : Scene := { S₁ with main_idle := { idle with state := .TASK_STATE_READY } }
  let S₃ : Scene := { S₂ with second := { created with state := .TASK_STATE_RUNNING } }
  let S₄ : Scene := { S₃ with main := ⟨m + 3, 0, [], .user⟩ }
  have hyield : start 0 ((first_runs m).state m) .yield =
      ((first_runs m).mainAt (.load_balance .user)).state m := by
    simp [start, State.goto, mainAt]
  have h : Reachable (m + 2) (((first_runs m).mainAt (.load_balance .user)).state m) :=
    hyield ▸ first_runs_reachable.step (.op (by omega) rfl (show Op.Legal _ 0 _ .yield from trivial))
  have h : Reachable (m + 2) (((first_runs m).mainAt (.get .user)).state m) :=
    main_looks_at_all h rfl
  have h : Reachable (m + 2) ((S₁.mainAt (.is_running .user (m + 3))).state m) :=
    run_main h nofun (by simp [exec, mainAt, first_runs, stolen, State.goto, State.pop, S₁])
  have h : Reachable (m + 2) ((S₁.mainAt (.set_ready .user 0 (m + 3))).state m) :=
    run_main h nofun (by simp [exec, mainAt, first_runs, stolen, made, State.goto, idle, S₁])
  have h : Reachable (m + 2) ((S₂.mainAt (.requeue .user 0 (m + 3))).state m) :=
    run_main h nofun (by simp [exec, mainAt, first_runs, stolen, made, State.goto, S₁, S₂])
  have h : Reachable (m + 2) ((S₂.mainAt (.check_ready .user 0 (m + 3))).state m) :=
    run_main h nofun (by simp [exec, mainAt, State.goto])
  have h : Reachable (m + 2) ((S₂.mainAt (.set_running .user 0 (m + 3))).state m) :=
    run_main h nofun (by
      simp [exec, mainAt, first_runs, stolen, made, created, State.goto, S₁, S₂])
  have h : Reachable (m + 2) ((S₃.mainAt (.set_current .user 0 (m + 3))).state m) :=
    run_main h nofun (by
      simp [exec, mainAt, first_runs, stolen, made, created, State.goto, S₁, S₂, S₃])
  have h : Reachable (m + 2) ((S₄.mainAt (.swap .user 0 (m + 3))).state m) :=
    run_main h nofun (by simp [exec, mainAt, State.goto, S₁, S₂, S₃, S₄])
  exact run_main h nofun (by
    simp [exec, mainAt, State.goto, resume, second_runs, first_runs, created, S₁, S₂, S₃, S₄])

/-- The second task joins the first one, and has yet to switch to another task. -/
def joined (m : Nat) : Scene :=
  { second_runs m with
    main := ⟨m + 3, m + 3, [], .load_balance (.join (m + 2) (m + 3))⟩
    first := { created with
      state := .TASK_STATE_RUNNING, join_state := .TASK_WAIT_TO_JOIN, join_task := some (m + 3) }
    second := { created with state := .TASK_STATE_WAITING }
    events := [.call (m + 3) (m + 2), .wait (m + 3) (m + 2)] }

theorem joined_reachable : Reachable (m + 2) ((joined m).state m) := by
  let S₁ : Scene := { second_runs m with events := [.call (m + 3) (m + 2)] }
  let S₂ : Scene := { S₁ with
    first := { created with state := .TASK_STATE_RUNNING, join_state := .TASK_WAIT_TO_JOIN } }
  let S₃ : Scene := { S₂ with
    second := { created with state := .TASK_STATE_WAITING }
    events := [.call (m + 3) (m + 2), .wait (m + 3) (m + 2)] }
  have hlegal : Op.Legal (m + 2) 0 ((second_runs m).state m) (.join (m + 2)) := by
    refine ⟨?_, ?_, ?_, fun _ => List.not_mem_nil⟩ <;> simp [state, second_runs]
  have hjoin : start 0 ((second_runs m).state m) (.join (m + 2)) =
      (S₁.mainAt (.join_swap (m + 2))).state m := by
    simp [start, State.goto, mainAt, second_runs, first_runs, stolen, made, S₁]
  have h : Reachable (m + 2) ((S₁.mainAt (.join_swap (m + 2))).state m) :=
    hjoin ▸ second_runs_reachable.step (.op (by omega) rfl hlegal)
  have h : Reachable (m + 2) ((S₂.mainAt (.join_wait (m + 2) (m + 3))).state m) :=
    run_main h nofun (by
      simp [exec, mainAt, second_runs, first_runs, created, State.goto, S₁, S₂])
  have h : Reachable (m + 2) ((S₃.mainAt (.join_publish (m + 2) (m + 3))).state m) :=
    run_main h nofun (by simp [exec, mainAt, second_runs, created, State.goto, S₁, S₂, S₃])
  exact run_main h nofun (by simp [exec, mainAt, State.goto, joined, second_runs, S₁, S₂, S₃])

/-- The first task finishes and makes the second one ready again. -/
def woken (m : Nat) : Scene :=
  { joined m with
    other := ⟨m + 2, m + 2, [], .exit_result 0 (m + 3)⟩
    first := { created with state := .TASK_STATE_RUNNING, join_state := .TASK_WAIT_FOR_JOINER }
    second := created
    events := [.call (m + 3) (m + 2), .wait (m + 3) (m + 2), .finish (m + 2) 0,
      .wake (m + 3) (m + 2)] }

theorem woken_reachable : Reachable (m + 2) ((woken m).state m) := by
  let S₁ : Scene := { joined m with
    events := [.call (m + 3) (m + 2), .wait (m + 3) (m + 2), .finish (m + 2) 0] }
  let S₂ : Scene := { S₁ with
    first := { created with
      state := .TASK_STATE_RUNNING, join_state := .TASK_WAIT_FOR_JOINER, join_task := some (m + 3) } }
  let S₃ : Scene := { S₁ with
    first := { created with state := .TASK_STATE_RUNNING, join_state := .TASK_WAIT_FOR_JOINER } }
  have hlegal : Op.Legal (m + 2) 1 ((joined m).state m) (.finish 0) := le_rfl
  have hfinish : start 1 ((joined m).state m) (.finish 0) =
      (S₁.otherAt (.set_result 0)).state m := by
    simp [start, State.goto, otherAt, joined, second_runs, first_runs, S₁]
  have h : Reachable (m + 2) ((S₁.otherAt (.set_result 0)).state m) :=
    hfinish ▸ joined_reachable.step (.op (by omega) rfl hlegal)
  have h : Reachable (m + 2) ((S₁.otherAt (.exit_swap 0)).state m) :=
    run_other h nofun (by
      simp [exec, otherAt, joined, second_runs, first_runs, created, State.goto, S₁])
  have h : Reachable (m + 2) ((S₂.otherAt (.exit_take 0)).state m) :=
    run_other h nofun (by
      simp [exec, otherAt, joined, second_runs, first_runs, created, State.goto, S₁, S₂])
  have h : Reachable (m + 2) ((S₃.otherAt (.exit_check 0 (m + 3))).state m) :=
    run_other h nofun (by
      simp [exec, otherAt, joined, second_runs, first_runs, created, State.goto, S₁, S₂, S₃])
  have h : Reachable (m + 2) ((S₃.otherAt (.exit_clear 0 (m + 3))).state m) :=
    run_other h nofun (by simp [exec, otherAt, joined, created, State.goto, S₁, S₃])
  have h : Reachable (m + 2) ((S₃.otherAt (.exit_ready 0 (m + 3))).state m) :=
    run_other h nofun (by
      simp [exec, otherAt, joined, second_runs, first_runs, created, State.goto, S₁, S₃])
  exact run_other h nofun (by
    simp [exec, otherAt, State.goto, woken, joined, second_runs, first_runs, created, S₁, S₃])

/-- The second task finds nothing to switch to, and goes on as if it ran. -/
def overtaken (m : Nat) : Scene := (woken m).mainAt (.failed .task_join)

theorem overtaken_reachable : Reachable (m + 2) ((overtaken m).state m) := by
  have h : Reachable (m + 2) (((woken m).mainAt (.get (.join (m + 2) (m + 3)))).state m) :=
    main_looks_at_all woken_reachable rfl
  have h : Reachable (m + 2) (((woken m).mainAt (.no_task_done (.join (m + 2) (m + 3)))).state m) :=
    run_main h nofun (by simp [exec, mainAt, woken, joined, State.goto])
  have h : Reachable (m + 2)
      (((woken m).mainAt (.no_task_waiting (.join (m + 2) (m + 3)))).state m) :=
    run_main h nofun (by simp [exec, mainAt, woken, joined, created, State.goto])
  have h : Reachable (m + 2) (((woken m).mainAt (.join_check (m + 2) (m + 3))).state m) :=
    run_main h nofun (by simp [exec, mainAt, woken, joined, created, resume, State.goto])
  exact run_main h nofun (by simp [exec, mainAt, woken, joined, created, overtaken, State.goto])

end Scene

end koala.task
