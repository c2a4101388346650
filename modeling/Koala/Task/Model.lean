import Mathlib.Algebra.Order.BigOperators.Group.List
import Mathlib.Algebra.Order.Ring.Int
import Mathlib.Data.BitVec
import Mathlib.Logic.Function.Basic
import Mathlib.Tactic.Common

namespace koala.task

set_option linter.style.nameCheck false

/-- The address of a task. The idle task of processor `p` is at `p`, and the
tasks that are created follow in their order. -/
abbrev TaskId := Nat

/-- A `void *` that a task returns. -/
abbrev Word := BitVec 64

inductive task_state_t where
  | TASK_STATE_RUNNING
  | TASK_STATE_READY
  | TASK_STATE_WAITING
  | TASK_STATE_DONE
  deriving DecidableEq

inductive join_state_t where
  | TASK_JOINABLE
  | TASK_WAIT_FOR_JOINER
  | TASK_WAIT_TO_JOIN
  | TASK_DETACHED
  deriving DecidableEq

/-- Where a stack goes on when `task_context_swap` switches to it: at the start
of `task_go_routine`, behind a `task_yield` of the task itself, of `task_join`
(with its parameter and its local variable `current`) or of `task_go_routine`,
or in the loop of `pthread_routine`. -/
inductive Cont where
  | entry
  | user
  | join (task current : TaskId)
  | exit
  | routine

/-- A context that was never saved is `none`. -/
structure Task where
  context : Option Cont
  state : task_state_t
  result : Word
  join_state : join_state_t
  join_task : Option TaskId

inductive Routine where
  | task_go_routine
  | task_switch_to
  | task_join
  | pthread_routine
  | sched_load_balance
  deriving DecidableEq

/-- What a processor does next, with the local variables that it needs for it.
Each is one action on what processors share. -/
inductive Pc where
  /-- the task runs by itself, between two calls -/
  | user
  /-- an assertion of a function has failed -/
  | failed (routine : Routine)
  /-- a switch to a context that was never saved -/
  | crashed
  -- `sched_load_balance`, the first part of `task_yield`
  | load_balance (k : Cont)
  | balance (k : Cont) (count i : Nat)
  | steal (k : Cont) (count i num_steal : Nat)
  | keep (k : Cont) (count i num_steal : Nat) (task : TaskId)
  -- the rest of `task_yield`
  | get (k : Cont)
  | no_task_done (k : Cont)
  | no_task_waiting (k : Cont)
  | no_task_routine
  -- `task_switch_to`
  | is_running (k : Cont) (to' : TaskId)
  | set_ready (k : Cont) (from' to' : TaskId)
  | requeue (k : Cont) (from' to' : TaskId)
  | is_done (k : Cont) (from' to' : TaskId)
  | is_waiting (k : Cont) (from' to' : TaskId)
  | check_ready (k : Cont) (from' to' : TaskId)
  | set_running (k : Cont) (from' to' : TaskId)
  | set_current (k : Cont) (from' to' : TaskId)
  | swap (k : Cont) (from' to' : TaskId)
  -- `task_join`
  | join_swap (task : TaskId)
  | join_wait (task current : TaskId)
  | join_publish (task current : TaskId)
  | join_check (task current : TaskId)
  | join_result (task current : TaskId)
  | join_finished (task : TaskId)
  -- `task_go_routine` behind the entry function
  | set_result (result : Word)
  | exit_swap (result : Word)
  | exit_unjoined
  | exit_take (result : Word)
  | exit_check (result : Word) (join_task : TaskId)
  | exit_clear (result : Word) (join_task : TaskId)
  | exit_ready (result : Word) (join_task : TaskId)
  | exit_result (result : Word) (join_task : TaskId)
  | exit_schedule (join_task : TaskId)
  | set_done
  -- the loop of `pthread_routine`
  | routine

/-- A processor with its scheduler's deque. `stack` is the task whose stack it
runs on: the current one, except around a switch. -/
structure Proc where
  current : TaskId
  stack : TaskId
  deque : List TaskId
  pc : Pc

/-- What happens to the task `task` that is joined: it is joined, its joiner
waits, it finishes, it makes its joiner ready, its joiner receives a result. -/
inductive Event where
  | call (joiner task : TaskId)
  | wait (joiner task : TaskId)
  | finish (task : TaskId) (result : Word)
  | wake (joiner task : TaskId)
  | receive (joiner task : TaskId) (result : Word)
  deriving DecidableEq

def Event.about : Event → TaskId
  | .call _ task => task
  | .wait _ task => task
  | .finish task _ => task
  | .wake _ task => task
  | .receive _ task _ => task

/-- `made` tasks are there. The events are recorded for the specification only. -/
structure State where
  procs : Nat → Proc
  tasks : TaskId → Task
  made : Nat
  events : List Event

namespace State

def setProc (s : State) (p : Nat) (f : Proc → Proc) : State :=
  { s with procs := Function.update s.procs p (f (s.procs p)) }

def setTask (s : State) (t : TaskId) (f : Task → Task) : State :=
  { s with tasks := Function.update s.tasks t (f (s.tasks t)) }

def goto (s : State) (p : Nat) (pc : Pc) : State := s.setProc p fun proc => { proc with pc }

def log (s : State) (e : Event) : State := { s with events := s.events ++ [e] }

/-- `lldq_push_tail` on the deque of a processor. -/
def push (s : State) (p : Nat) (t : TaskId) : State :=
  s.setProc p fun proc => { proc with deque := proc.deque ++ [t] }

/-- The deque of a processor without its head. -/
def pop (s : State) (p : Nat) : State :=
  s.setProc p fun proc => { proc with deque := proc.deque.tail }

end State

/-- What is behind a `task_yield`, or a switch. -/
def resume : Cont → Pc
  | .entry => .user
  | .user => .user
  | .join task current => .join_check task current
  | .exit => .failed .task_go_routine
  | .routine => .routine

/-- The next action of processor `p` of `n`, other than that of a task by itself. -/
def exec (n p : Nat) (s : State) : Pc → State
  | .user => s
  | .failed _ => s
  | .crashed => s
  | .load_balance k => s.goto p (.balance k (s.procs p).deque.length p)
  | .balance k count i =>
    if i < p + n - 1 then
      let index := (i + 1) % n
      if index = p then s.goto p (.failed .sched_load_balance)
      else s.goto p (.steal k count (i + 1) (((s.procs index).deque.length - count) / 2))
    else s.goto p (.get k)
  | .steal k count i num_steal =>
    if num_steal = 0 then s.goto p (.balance k count i)
    else
      match (s.procs (i % n)).deque with
      | [] => s.goto p (.steal k count i (num_steal - 1))
      | task :: _ => (s.pop (i % n)).goto p (.keep k count i (num_steal - 1) task)
  | .keep k count i num_steal task => (s.push p task).goto p (.steal k count i num_steal)
  | .get k =>
    match (s.procs p).deque, k with
    | [], .routine => s.goto p .no_task_routine
    | [], k => s.goto p (.no_task_done k)
    | task :: _, k => (s.pop p).goto p (.is_running k task)
  | .no_task_done k =>
    if (s.tasks (s.procs p).current).state = .TASK_STATE_DONE then s.goto p (.is_running k p)
    else s.goto p (.no_task_waiting k)
  | .no_task_waiting k =>
    if (s.tasks (s.procs p).current).state = .TASK_STATE_WAITING then s.goto p (.is_running k p)
    else s.goto p (resume k)
  | .no_task_routine =>
    if (s.procs p).current = p ∧ (s.tasks p).state = .TASK_STATE_RUNNING then s.goto p .routine
    else s.goto p (.failed .pthread_routine)
  | .is_running k to' =>
    let from' := (s.procs p).current
    if (s.tasks from').state = .TASK_STATE_RUNNING then s.goto p (.set_ready k from' to')
    else s.goto p (.is_done k from' to')
  | .set_ready k from' to' =>
    (s.setTask from' fun t => { t with state := .TASK_STATE_READY }).goto p (.requeue k from' to')
  | .requeue k from' to' =>
    if from' = p then s.goto p (.check_ready k from' to')
    else (s.push p from').goto p (.check_ready k from' to')
  | .is_done k from' to' =>
    if (s.tasks from').state = .TASK_STATE_DONE then s.goto p (.check_ready k from' to')
    else s.goto p (.is_waiting k from' to')
  | .is_waiting k from' to' =>
    if (s.tasks from').state = .TASK_STATE_WAITING then s.goto p (.check_ready k from' to')
    else s.goto p (.failed .task_switch_to)
  | .check_ready k from' to' =>
    if (s.tasks to').state = .TASK_STATE_READY then s.goto p (.set_running k from' to')
    else s.goto p (.failed .task_switch_to)
  | .set_running k from' to' =>
    (s.setTask to' fun t => { t with state := .TASK_STATE_RUNNING }).goto p
      (.set_current k from' to')
  | .set_current k from' to' =>
    (s.setProc p fun proc => { proc with current := to' }).goto p (.swap k from' to')
  | .swap k from' to' =>
    let pc := ((s.tasks to').context.map resume).getD .crashed
    ((s.setTask from' fun t => { t with context := some k }).setProc p fun proc =>
      { proc with stack := to' }).goto p pc
  | .join_swap task =>
    let current := (s.procs p).current
    let old_state := (s.tasks task).join_state
    if old_state = .TASK_DETACHED then s.goto p .user
    else
      let s := s.setTask task fun t => { t with join_state := .TASK_WAIT_TO_JOIN }
      match old_state with
      | .TASK_JOINABLE => s.goto p (.join_wait task current)
      | .TASK_WAIT_FOR_JOINER => s.goto p (.join_finished task)
      | _ => s.goto p (.failed .task_join)
  | .join_wait task current =>
    ((s.setTask current fun t => { t with state := .TASK_STATE_WAITING }).log
      (.wait current task)).goto p (.join_publish task current)
  | .join_publish task current =>
    (s.setTask task fun t => { t with join_task := some current }).goto p
      (.load_balance (.join task current))
  | .join_check task current =>
    if (s.tasks current).state = .TASK_STATE_RUNNING then s.goto p (.join_result task current)
    else s.goto p (.failed .task_join)
  | .join_result task current =>
    (s.log (.receive current task (s.tasks current).result)).goto p .user
  | .join_finished task =>
    (s.log (.receive (s.procs p).stack task (s.tasks task).result)).goto p .user
  | .set_result result =>
    (s.setTask (s.procs p).stack fun t => { t with result }).goto p (.exit_swap result)
  | .exit_swap result =>
    let task := (s.procs p).stack
    let old_state := (s.tasks task).join_state
    if old_state = .TASK_DETACHED then s.goto p .set_done
    else
      let s := s.setTask task fun t => { t with join_state := .TASK_WAIT_FOR_JOINER }
      match old_state with
      | .TASK_JOINABLE => s.goto p .exit_unjoined
      | .TASK_WAIT_TO_JOIN => s.goto p (.exit_take result)
      | _ => s.goto p (.failed .task_go_routine)
  | .exit_unjoined =>
    if (s.tasks (s.procs p).stack).join_task = none then s.goto p .set_done
    else s.goto p (.failed .task_go_routine)
  | .exit_take result =>
    let task := (s.procs p).stack
    match (s.tasks task).join_task with
    | none => s
    | some join_task =>
      (s.setTask task fun t => { t with join_task := none }).goto p (.exit_check result join_task)
  | .exit_check result join_task =>
    if (s.tasks join_task).state = .TASK_STATE_WAITING then s.goto p (.exit_clear result join_task)
    else s.goto p (.failed .task_go_routine)
  | .exit_clear result join_task =>
    (s.setTask (s.procs p).stack fun t => { t with join_task := none }).goto p
      (.exit_ready result join_task)
  | .exit_ready result join_task =>
    ((s.setTask join_task fun t => { t with state := .TASK_STATE_READY }).log
      (.wake join_task (s.procs p).stack)).goto p (.exit_result result join_task)
  | .exit_result result join_task =>
    (s.setTask join_task fun t => { t with result }).goto p (.exit_schedule join_task)
  | .exit_schedule join_task => (s.push p join_task).goto p .set_done
  | .set_done =>
    (s.setTask (s.procs p).stack fun t => { t with state := .TASK_STATE_DONE }).goto p
      (.load_balance .exit)
  | .routine => s.goto p (.load_balance .routine)

def run (n p : Nat) (s : State) : State := exec n p s (s.procs p).pc

example (n p : Nat) (s : State) : exec n p s .routine = s.goto p (.load_balance .routine) := by
  simp only [exec]

/-- What a task does by itself: it calls `task_create`, `task_yield` or
`task_join`, or its entry function returns. -/
inductive Op where
  | create
  | yield
  | join (task : TaskId)
  | finish (result : Word)

/-- A task as `task_create` sets it up. -/
def created : Task := ⟨some .entry, .TASK_STATE_READY, 0, .TASK_JOINABLE, none⟩

def start (p : Nat) (s : State) : Op → State
  | .create =>
    { (s.setTask s.made fun _ => created) with made := s.made + 1 }.push p s.made
  | .yield => s.goto p (.load_balance .user)
  | .join task => (s.log (.call (s.procs p).stack task)).goto p (.join_swap task)
  | .finish result => (s.log (.finish (s.procs p).stack result)).goto p (.set_result result)

/-- The idle tasks create tasks and yield. Other tasks may also finish, and join
another task that was not joined before. -/
def Op.Legal (n p : Nat) (s : State) : Op → Prop
  | .create => True
  | .yield => True
  | .join task => n ≤ (s.procs p).stack ∧ task < s.made ∧ task ≠ (s.procs p).stack ∧
    ∀ joiner, Event.call joiner task ∉ s.events
  | .finish _ => n ≤ (s.procs p).stack

/-- An action of one of `n` processors. -/
inductive Step (n : Nat) (s : State) : State → Prop where
  | op {p : Nat} (hp : p < n) (hpc : (s.procs p).pc = .user) {op : Op} (hlegal : op.Legal n p s) :
    Step n s (start p s op)
  | run {p : Nat} (hp : p < n) (hpc : (s.procs p).pc ≠ .user) : Step n s (run n p s)

/-- An idle task as `task_create_idle` sets it up. -/
def idle : Task := ⟨none, .TASK_STATE_RUNNING, 0, .TASK_JOINABLE, none⟩

/-- The state behind `task_init_procs(n)`: the main processor runs on, each other
one is at the start of its loop. -/
def task_init_procs (n : Nat) : State where
  procs p := ⟨p, p, [], if p = 0 then .user else .routine⟩
  tasks _ := idle
  made := n
  events := []

inductive Reachable (n : Nat) : State → Prop where
  | init : Reachable n (task_init_procs n)
  | step {s s' : State} (h : Reachable n s) (hstep : Step n s s') : Reachable n s'

end koala.task
