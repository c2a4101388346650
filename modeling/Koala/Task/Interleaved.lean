import Koala.Task.Settles
import Mathlib.Logic.Function.Iterate
import Koala.Task.Overtaken

namespace koala.task

set_option linter.style.nameCheck false

variable {v : View} {others : Nat → Proc} {phase : TaskId → Phase}

theorem Settles.create (h : Inv phase 0 (v.setCtx v.current .user))
    (hrunning : v.state v.current = .TASK_STATE_RUNNING) :
    Settles (start 0 (v.shown others v.current .user) .create) := by
  have hne : v.current ≠ v.made := Nat.ne_of_lt h.current_lt
  have hview : (v.setCtx v.current .user).create = v.create.setCtx v.current .user := by
    simp only [View.setCtx, View.create, Function.update_comm hne]
  have hshown : start 0 (v.shown others v.current .user) .create =
      v.create.shown others v.current .user := by
    have htasks : (v.shown others v.current .user).setTask v.made (fun _ => created) =
        View.shown { v.create with deque := v.deque, made := v.made } others v.current .user :=
      View.shown_setTask rfl (by simp [View.create, created])
        fun u hu => by simp [View.create, Function.update_of_ne hu]
    rw [start, View.shown_made, htasks]
    exact View.shown_push (v := { v.create with deque := v.deque })
  rw [hshown]
  refine .calm ⟨v.create, others, _, rfl, ?_, hview ▸ h.create⟩
  exact (Function.update_of_ne hne ..).trans hrunning

/-- The end of `task_go_routine`. -/
theorem Settles.set_done {current : TaskId} (hcurrent : v.current = current)
    (h : Inv phase 0 ((v.setState current .TASK_STATE_DONE).setCtx current .exit)) :
    Settles (v.shown others current .set_done) := by
  subst hcurrent
  have hdone : (v.setState v.current .TASK_STATE_DONE).state v.current = .TASK_STATE_DONE :=
    Function.update_self ..
  apply Settles.run_to (s := (v.setState v.current .TASK_STATE_DONE).shown others v.current
    (.load_balance .exit))
  · simp [exec]
  exact Settles.yield (v := v.setState v.current .TASK_STATE_DONE) h (by simp)
    (hdone.symm ▸ by decide) fun hrunning => by cases hdone.symm.trans hrunning

theorem Settles.finish {result : Word} (h : Inv phase 0 (v.setCtx v.current .user))
    (hnot : v.current ≠ 0) (hrunning : v.state v.current = .TASK_STATE_RUNNING) :
    Settles (start 0 (v.shown others v.current .user) (.finish result)) := by
  have hctx : (v.setCtx v.current .user).ctx v.current = some .user := Function.update_self ..
  let w := (v.log (.finish v.current result)).setResult v.current result
  have hstart : start 0 (v.shown others v.current .user) (.finish result) =
      (v.log (.finish v.current result)).shown others v.current (.set_result result) := by
    simp [start]
  rw [hstart]
  apply Settles.run_to (s := w.shown others v.current (.exit_swap result))
  · simp [exec, w]
  have hmatch := h.matching h.current_lt
  cases hphase : phase v.current with
  | fresh =>
    obtain ⟨hjoin, htask, -⟩ : Phase.fresh.Matches _ v.current := hphase ▸ hmatch
    have hnew : Inv _ 0 ((v.setCtx v.current .user).finish result) :=
      h.finish hphase hnot hctx hrunning
    rw [View.finish, View.setCtx, Function.update_idem] at hnew
    apply Settles.run_to (s := (w.setJoin v.current .TASK_WAIT_FOR_JOINER).shown others v.current
      .exit_unjoined)
    · have hswap : w.join_state v.current = .TASK_JOINABLE := hjoin
      simp [exec, hswap]
    apply Settles.run_to (s := (w.setJoin v.current .TASK_WAIT_FOR_JOINER).shown others v.current
      .set_done)
    · have hnone : (w.setJoin v.current .TASK_WAIT_FOR_JOINER).join_task v.current = none := htask
      simp [exec, hnone]
    exact .set_done rfl hnew
  | waited j =>
    obtain ⟨hjoin, htask, -, -, hwaiting, -⟩ : (Phase.waited j).Matches _ v.current :=
      hphase ▸ hmatch
    have hnew : Inv _ 0 ((v.setCtx v.current .user).wake j result) :=
      h.wake hphase hnot hctx hrunning
    let w₁ := w.setJoin v.current .TASK_WAIT_FOR_JOINER
    let w₂ := w₁.setJoinTask v.current none
    let w₃ := w₂.setJoinTask v.current none
    let w₄ := (w₃.setState j .TASK_STATE_READY).log (.wake j v.current)
    let w₅ := (w₄.setResult j result).push j
    apply Settles.run_to (s := w₁.shown others v.current (.exit_take result))
    · have hswap : w.join_state v.current = .TASK_WAIT_TO_JOIN := hjoin
      simp [exec, hswap, w₁]
    apply Settles.run_to (s := w₂.shown others v.current (.exit_check result j))
    · have htake : w₁.join_task v.current = some j := htask
      simp [exec, htake, w₂]
    apply Settles.run_to (s := w₂.shown others v.current (.exit_clear result j))
    · have hstate : w₂.state j = .TASK_STATE_WAITING := hwaiting
      simp [exec, hstate]
    apply Settles.run_to (s := w₃.shown others v.current (.exit_ready result j))
    · simp [exec, w₃]
    apply Settles.run_to (s := w₄.shown others v.current (.exit_result result j))
    · simp [exec, w₄]
    apply Settles.run_to (s := (w₄.setResult j result).shown others v.current (.exit_schedule j))
    · simp [exec]
    apply Settles.run_to (s := w₅.shown others v.current .set_done)
    · simp [exec, w₅]
    have hview : (v.setCtx v.current .user).wake j result =
        (w₅.setState v.current .TASK_STATE_DONE).setCtx v.current .exit := by
      simp [w₅, w₄, w₃, w₂, w₁, w, View.wake, View.setCtx, View.push, View.setResult, View.log,
        View.setState, View.setJoinTask, View.setJoin]
    have hcurrent : w₅.current = v.current := by
      simp [w₅, w₄, w₃, w₂, w₁, w, View.push, View.setResult, View.log, View.setState,
        View.setJoinTask, View.setJoin]
    rw [hview] at hnew
    exact .set_done hcurrent hnew
  | woken j r =>
    obtain ⟨hdone, -⟩ : (Phase.woken j r).Matches _ v.current := hphase ▸ hmatch
    cases hrunning.symm.trans hdone
  | received j r =>
    have hdone : (Phase.received j r).Matches _ v.current := hphase ▸ hmatch
    cases hrunning.symm.trans hdone
  | finished r =>
    obtain ⟨-, hdone, -⟩ : (Phase.finished r).Matches _ v.current := hphase ▸ hmatch
    cases hrunning.symm.trans hdone
  | late j r =>
    have hdone : (Phase.late j r).Matches _ v.current := hphase ▸ hmatch
    cases hrunning.symm.trans hdone

theorem Settles.join {task : TaskId} (h : Inv phase 0 (v.setCtx v.current .user))
    (hnot : v.current ≠ 0) (hrunning : v.state v.current = .TASK_STATE_RUNNING)
    (hlt : task < v.made) (hne : task ≠ v.current)
    (hcall : ∀ joiner, Event.call joiner task ∉ v.events) :
    Settles (start 0 (v.shown others v.current .user) (.join task)) := by
  have hctx : (v.setCtx v.current .user).ctx v.current = some .user := Function.update_self ..
  have hmatch := h.matching (u := task) hlt
  -- a task that was joined before is one that was called before
  have hcalled : ∀ joiner, Event.call joiner task ∉ (phase task).events task := by
    intro joiner hmem
    rw [← h.events (u := task) hlt] at hmem
    exact hcall joiner (List.mem_of_mem_filter hmem)
  have hstart : start 0 (v.shown others v.current .user) (.join task) =
      (v.log (.call v.current task)).shown others v.current (.join_swap task) := by
    simp [start]
  rw [hstart]
  cases hphase : phase task with
  | fresh =>
    obtain ⟨hjoin, -⟩ : Phase.fresh.Matches _ task := hphase ▸ hmatch
    have hnew : Inv _ 0 ((v.setCtx v.current .user).wait task) :=
      h.wait hlt hphase hne hnot hctx hrunning
    let w₁ := (v.log (.call v.current task)).setJoin task .TASK_WAIT_TO_JOIN
    let w₂ := (w₁.setState v.current .TASK_STATE_WAITING).log (.wait v.current task)
    let w₃ := w₂.setJoinTask task (some v.current)
    apply Settles.run_to (s := w₁.shown others v.current (.join_wait task v.current))
    · have hswap : (v.log (.call v.current task)).join_state task = .TASK_JOINABLE := hjoin
      have hcurrent : (v.log (.call v.current task)).current = v.current := rfl
      simp [exec, hswap, hcurrent, w₁]
    apply Settles.run_to (s := w₂.shown others v.current (.join_publish task v.current))
    · simp [exec, w₂]
    apply Settles.run_to (s := w₃.shown others v.current (.load_balance (.join task v.current)))
    · simp [exec, w₃]
    have hwaiting : w₃.state v.current = .TASK_STATE_WAITING := Function.update_self ..
    have hview : (v.setCtx v.current .user).wait task =
        w₃.setCtx w₃.current (.join task v.current) := by
      simp [w₃, w₂, w₁, View.wait, View.setCtx, View.log, View.setState, View.setJoinTask,
        View.setJoin]
    rw [hview] at hnew
    exact Settles.yield hnew (by simp) (hwaiting.symm ▸ by decide) fun hrunning => by
      cases hwaiting.symm.trans hrunning
  | finished r =>
    obtain ⟨hjoin, -, hresult⟩ : (Phase.finished r).Matches _ task := hphase ▸ hmatch
    have hnew : Inv _ 0 ((v.setCtx v.current .user).collect task r) := h.collect hlt hphase
    let w₁ := (v.log (.call v.current task)).setJoin task .TASK_WAIT_TO_JOIN
    apply Settles.run_to (s := w₁.shown others v.current (.join_finished task))
    · have hswap : (v.log (.call v.current task)).join_state task = .TASK_WAIT_FOR_JOINER := hjoin
      simp [exec, hswap, w₁]
    apply Settles.run_to (s := (w₁.log (.receive v.current task r)).shown others v.current .user)
    · have hword : w₁.result task = r := hresult
      simp [exec, hword]
    have hview : (v.setCtx v.current .user).collect task r =
        (w₁.log (.receive v.current task r)).setCtx v.current .user := by
      simp [w₁, View.collect, View.setCtx, View.log, View.setJoin]
    rw [hview] at hnew
    exact .calm ⟨w₁.log (.receive v.current task r), others, _, rfl, hrunning, hnew⟩
  | waited j =>
    rw [hphase] at hcalled
    exact absurd List.mem_cons_self (hcalled j)
  | woken j r =>
    rw [hphase] at hcalled
    exact absurd List.mem_cons_self (hcalled j)
  | received j r =>
    rw [hphase] at hcalled
    exact absurd List.mem_cons_self (hcalled j)
  | late j r =>
    rw [hphase] at hcalled
    exact absurd (List.mem_cons_of_mem _ List.mem_cons_self) (hcalled j)

theorem Calm.init : Calm (task_init_procs 1) := by
  refine ⟨(task_init_procs 1).view, (task_init_procs 1).procs, fun _ => .fresh,
    (State.shown_view _).symm, rfl, ?_⟩
  have hlt : ∀ {t}, t < 1 → t = 0 := fun ht => Nat.lt_one_iff.1 ht
  refine ⟨Nat.one_pos, fun ht _ => hlt ht, fun t => ?_, List.nodup_nil, .inl rfl,
    by simp [View.setCtx, State.view, task_init_procs], fun _ hst => ?_, fun _ hst => ?_,
    fun _ => ?_, fun _ => rfl, ?_⟩
  · simp [State.view, View.setCtx, task_init_procs, idle]
  · cases hst
  · cases hst
  · exact ⟨rfl, rfl, fun heq => by cases heq⟩
  · exact fun e he => absurd he List.not_mem_nil

theorem Calm.start {s : State} {op : Op} (h : Calm s) (hlegal : op.Legal 1 0 s) :
    Settles (start 0 s op) := by
  obtain ⟨v, others, phase, rfl, hrunning, hinv⟩ := h
  cases op with
  | create => exact .create hinv hrunning
  | yield =>
    have hstart : koala.task.start 0 (v.shown others v.current .user) .yield =
        v.shown others v.current (.load_balance .user) := View.shown_goto
    rw [hstart]
    exact .yield hinv (by simp) (by simp [hrunning]) fun _ => rfl
  | join task =>
    simp only [Op.Legal, View.shown_procs, View.shown_made, View.shown_events] at hlegal
    obtain ⟨hpos, hlt, hne, hcall⟩ := hlegal
    exact .join hinv (Nat.ne_of_gt hpos) hrunning hlt hne hcall
  | finish result =>
    simp only [Op.Legal, View.shown_procs] at hlegal
    exact .finish hinv (Nat.ne_of_gt hlegal) hrunning

theorem Settles.calm_of_user {s : State} (h : Settles s) (huser : (s.procs 0).pc = .user) :
    Calm s := by
  cases h with
  | calm h => exact h
  | step hne => exact absurd huser hne

theorem Reachable.settles {s : State} (h : Reachable 1 s) : Settles s := by
  induction h with
  | init => exact .calm Calm.init
  | step h hstep ih =>
    cases hstep with
    | @op p hp hpc op hlegal =>
      obtain rfl := Nat.lt_one_iff.1 hp
      exact (ih.calm_of_user hpc).start hlegal
    | @run p hp hpc =>
      obtain rfl := Nat.lt_one_iff.1 hp
      cases ih with
      | calm h =>
        obtain ⟨v, others, _, rfl, -⟩ := h
        exact absurd (by rw [View.shown_procs]) hpc
      | step _ _ _ h => exact h

end koala.task

namespace koala.task

set_option linter.style.nameCheck false

/-- Where one processor's task runs by itself: it is the only one that runs, the
ready ones are queued once, and each join keeps to its story. -/
structure InOrder (s : State) : Prop where
  running : ∀ t < s.made,
    (s.tasks t).state = .TASK_STATE_RUNNING ↔ t = (s.procs 0).current
  queued : ∀ t < s.made, t ≠ 0 → (s.tasks t).state = .TASK_STATE_READY →
    (s.procs 0).deque.count t = 1
  stopped : ∀ t < s.made,
    (s.tasks t).state = .TASK_STATE_WAITING ∨ (s.tasks t).state = .TASK_STATE_DONE →
    t ∉ (s.procs 0).deque
  story : ∀ t < s.made, ∃ phase : Phase, s.events.filter (·.about = t) = phase.events t

theorem Calm.ordered {s : State} (h : Calm s) : InOrder s := by
  obtain ⟨v, others, phase, rfl, hrunning, hinv⟩ := h
  refine ⟨fun t ht => ?_, fun t ht hne hst => ?_, fun t ht hst hmem => ?_, fun t ht => ?_⟩
  · rw [View.shown_procs, View.shown_tasks]
    refine ⟨fun hst => hinv.running ht hst, fun heq => ?_⟩
    rw [heq]
    exact hrunning
  · rw [View.shown_procs]
    have hqueued : t ∈ v.deque ↔ _ := hinv.queued t
    exact List.count_eq_one_of_mem hinv.nodup (hqueued.2 ⟨ht, hne, hne, hst⟩)
  · rw [View.shown_procs] at hmem
    have hready : v.state t = .TASK_STATE_READY := ((hinv.queued t).1 hmem).2.2.2
    rw [View.shown_tasks, hready] at hst
    obtain hst | hst := hst <;> cases hst
  · exact ⟨phase t, hinv.events ht⟩

theorem Settles.not_failed {s : State} (h : Settles s) (routine : Routine) :
    (s.procs 0).pc ≠ .failed routine := by
  cases h with
  | calm h =>
    obtain ⟨v, others, _, rfl, -⟩ := h
    rw [View.shown_procs]
    nofun
  | step _ hfailed _ _ => exact hfailed routine

theorem Settles.returns {s : State} (h : Settles s) :
    ∃ steps, (((run 1 0)^[steps] s).procs 0).pc = .user := by
  induction h with
  | calm h =>
    obtain ⟨v, others, _, rfl, -⟩ := h
    exact ⟨0, congrArg Proc.pc View.shown_procs⟩
  | step _ _ _ _ ih =>
    obtain ⟨steps, hsteps⟩ := ih
    exact ⟨steps + 1, hsteps⟩

/-- In every run of one processor no assertion fails, each call comes back to a
task that runs by itself, and all is in order whenever one does. -/
theorem Reachable.in_order {s : State} (h : Reachable 1 s) :
    (∀ routine, (s.procs 0).pc ≠ .failed routine) ∧
    (∃ steps, (((run 1 0)^[steps] s).procs 0).pc = .user) ∧
    ((s.procs 0).pc = .user → InOrder s) :=
  ⟨h.settles.not_failed, h.settles.returns, fun huser => (h.settles.calm_of_user huser).ordered⟩

/-- The main processor has created a task. -/
theorem in_order_create :
    (∀ routine, ((start 0 (task_init_procs 1) .create).procs 0).pc ≠ .failed routine) ∧
    (∃ steps, (((run 1 0)^[steps] (start 0 (task_init_procs 1) .create)).procs 0).pc = .user) ∧
    InOrder (start 0 (task_init_procs 1) .create) := by
  have hreach : Reachable 1 (start 0 (task_init_procs 1) .create) :=
    .step .init (.op Nat.one_pos rfl (show Op.Legal _ 0 _ .create from trivial))
  obtain ⟨hfailed, hreturns, horder⟩ := Reachable.in_order hreach
  exact ⟨hfailed, hreturns, horder rfl⟩

/-- What processors that share tasks must keep to. -/
structure Safe (n : Nat) (s : State) : Prop where
  /-- no task is run by two processors at once -/
  alone : ∀ p < n, ∀ q < n, (s.procs p).stack = (s.procs q).stack → p = q
  /-- a task that is resumed is on no processor: its context is saved -/
  saved : ∀ p < n, ∀ k from' to', (s.procs p).pc = .swap k from' to' →
    ∀ q < n, (s.procs q).stack ≠ to'
  passed : ∀ p < n, ∀ routine ∈ [Routine.task_switch_to, .task_join, .task_go_routine],
    (s.procs p).pc ≠ .failed routine

theorem Settles.safe {s : State} (h : Settles s) : Safe 1 s := by
  refine ⟨fun p hp q hq _ => ?_, fun p hp k from' to' hpc q hq => ?_, fun p hp routine _ => ?_⟩
  · rw [Nat.lt_one_iff.1 hp, Nat.lt_one_iff.1 hq]
  · obtain rfl := Nat.lt_one_iff.1 hp
    obtain rfl := Nat.lt_one_iff.1 hq
    cases h with
    | calm h =>
      obtain ⟨v, others, _, rfl, -⟩ := h
      rw [View.shown_procs] at hpc
      cases hpc
    | step _ _ hswap _ => exact hswap k from' to' hpc
  · obtain rfl := Nat.lt_one_iff.1 hp
    exact h.not_failed routine

theorem Scene.overtaken_not_safe (m : Nat) : ¬ Safe (m + 2) ((overtaken m).state m) :=
  fun h => h.passed 0 (by omega) .task_join (by simp) rfl

/-- Every interleaving is safe if and only if there is one processor only: a task
that waits for another one can be made ready before it has switched. -/
theorem safe_iff_one_processor {n : Nat} (hn : 0 < n) :
    (∀ s, Reachable n s → Safe n s) ↔ n = 1 := by
  constructor
  · intro hsafe
    by_contra hne
    obtain ⟨m, rfl⟩ : ∃ m, n = m + 2 := ⟨n - 2, by omega⟩
    exact Scene.overtaken_not_safe m (hsafe _ Scene.overtaken_reachable)
  · rintro rfl s h
    exact h.settles.safe

/-- A program with one processor. -/
theorem safe_iff_one_processor_one :
    (0 < 1) ∧ ((∀ s, Reachable 1 s → Safe 1 s) ↔ 1 = 1) :=
  ⟨by decide, safe_iff_one_processor (by decide)⟩

/-- With three processors, as the tests of the scheduler have them, a joiner's
assertion fails. -/
theorem not_safe_three_processors : ¬ ∀ n > 0, ∀ s, Reachable n s → Safe n s :=
  fun h => Scene.overtaken_not_safe 1 (h 3 (by decide) _ Scene.overtaken_reachable)

end koala.task
