import Koala.Task.Model

namespace koala.task

set_option linter.style.nameCheck false

/-- What one processor has to do with. -/
structure View where
  current : TaskId
  deque : List TaskId
  made : Nat
  events : List Event
  state : TaskId → task_state_t
  ctx : TaskId → Option Cont
  result : TaskId → Word
  join_state : TaskId → join_state_t
  join_task : TaskId → Option TaskId

/-- How far the story of a task that can be joined has come. -/
inductive Phase where
  | fresh
  | waited (joiner : TaskId)
  | woken (joiner : TaskId) (result : Word)
  | received (joiner : TaskId) (result : Word)
  | finished (result : Word)
  | late (joiner : TaskId) (result : Word)

/-- The story: the task is joined before it finishes, or behind that. -/
def Phase.events (task : TaskId) : Phase → List Event
  | .fresh => []
  | .waited j => [.call j task, .wait j task]
  | .woken j r => [.call j task, .wait j task, .finish task r, .wake j task]
  | .received j r => [.call j task, .wait j task, .finish task r, .wake j task, .receive j task r]
  | .finished r => [.finish task r]
  | .late j r => [.finish task r, .call j task, .receive j task r]

/-- What a phase says of the task and of its joiner. -/
def Phase.Matches (v : View) (task : TaskId) : Phase → Prop
  | .fresh => v.join_state task = .TASK_JOINABLE ∧ v.join_task task = none ∧
    v.state task ≠ .TASK_STATE_DONE
  | .waited j => v.join_state task = .TASK_WAIT_TO_JOIN ∧ v.join_task task = some j ∧
    v.state task ≠ .TASK_STATE_DONE ∧ j < v.made ∧ v.state j = .TASK_STATE_WAITING ∧
    v.ctx j = some (.join task j)
  | .woken j r => v.state task = .TASK_STATE_DONE ∧ j < v.made ∧
    (v.state j = .TASK_STATE_READY ∨ v.state j = .TASK_STATE_RUNNING) ∧
    v.ctx j = some (.join task j) ∧ v.result j = r
  | .received _ _ => v.state task = .TASK_STATE_DONE
  | .finished r => v.join_state task = .TASK_WAIT_FOR_JOINER ∧ v.state task = .TASK_STATE_DONE ∧
    v.result task = r
  | .late _ _ => v.state task = .TASK_STATE_DONE

/-- A place at which a ready task goes on. -/
inductive Resumable (phase : TaskId → Phase) (v : View) (t : TaskId) : Cont → Prop where
  | entry : Resumable phase v t .entry
  | user : Resumable phase v t .user
  | join {u : TaskId} {r : Word} (hu : u < v.made) (hphase : phase u = .woken t r) :
    Resumable phase v t (.join u t)

/-- The invariant: the deque is the ready tasks, but for the idle one and for
one that was taken out to be run; no task runs but the current one; each task
that waits does so for one that will find it. -/
structure Inv (phase : TaskId → Phase) (taken : TaskId) (v : View) : Prop where
  current_lt : v.current < v.made
  running : ∀ {t}, t < v.made → v.state t = .TASK_STATE_RUNNING → t = v.current
  queued : ∀ t, t ∈ v.deque ↔ t < v.made ∧ t ≠ 0 ∧ t ≠ taken ∧ v.state t = .TASK_STATE_READY
  nodup : v.deque.Nodup
  idle : v.state 0 = .TASK_STATE_RUNNING ∨ v.state 0 = .TASK_STATE_READY
  idle_ctx : v.ctx 0 = some .user
  ready : ∀ {t}, t < v.made → v.state t = .TASK_STATE_READY →
    ∃ k, v.ctx t = some k ∧ Resumable phase v t k
  waiting : ∀ {t}, t < v.made → v.state t = .TASK_STATE_WAITING →
    ∃ u < v.made, phase u = .waited t
  matching : ∀ {u}, u < v.made → (phase u).Matches v u
  events : ∀ {u}, u < v.made → v.events.filter (·.about = u) = (phase u).events u
  about : ∀ e ∈ v.events, e.about < v.made

namespace View

def setState (v : View) (t : TaskId) (st : task_state_t) : View :=
  { v with state := Function.update v.state t st }

def setCtx (v : View) (t : TaskId) (k : Cont) : View :=
  { v with ctx := Function.update v.ctx t (some k) }

def setResult (v : View) (t : TaskId) (r : Word) : View :=
  { v with result := Function.update v.result t r }

def setJoin (v : View) (t : TaskId) (st : join_state_t) : View :=
  { v with join_state := Function.update v.join_state t st }

def setJoinTask (v : View) (t : TaskId) (j : Option TaskId) : View :=
  { v with join_task := Function.update v.join_task t j }

def log (v : View) (e : Event) : View := { v with events := v.events ++ [e] }

def push (v : View) (t : TaskId) : View := { v with deque := v.deque ++ [t] }

/-- The head of the deque is taken out. -/
def pop (v : View) : View := { v with deque := v.deque.tail }

/-- The current task stops running: it is ready again. -/
def leave (v : View) : View := v.setState v.current .TASK_STATE_READY

/-- It is queued, if it is not the idle one. -/
def requeue (v : View) : View :=
  { v with deque := if v.current = 0 then v.deque else v.deque ++ [v.current] }

/-- A task becomes the current one. -/
def enter (v : View) (t : TaskId) : View :=
  { v with state := Function.update v.state t .TASK_STATE_RUNNING, current := t }

end View

variable {phase : TaskId → Phase} {taken : TaskId} {v : View}

/-- What a phase says depends on the joiner's state, place and result only. -/
theorem Phase.Matches.congr {v v' : View} {task : TaskId} {ph : Phase} (h : ph.Matches v task)
    (hmade : v.made ≤ v'.made) (hjoin : v'.join_state task = v.join_state task)
    (htask : v'.join_task task = v.join_task task)
    (hresult : v.state task = .TASK_STATE_DONE → v'.result task = v.result task)
    (hdone : v'.state task = .TASK_STATE_DONE ↔ v.state task = .TASK_STATE_DONE)
    (hjoiner : ∀ j < v.made, v.ctx j = some (.join task j) →
      v'.ctx j = some (.join task j) ∧
      (v.state j = .TASK_STATE_WAITING → v'.state j = .TASK_STATE_WAITING) ∧
      (v.state j = .TASK_STATE_READY ∨ v.state j = .TASK_STATE_RUNNING →
        (v'.state j = .TASK_STATE_READY ∨ v'.state j = .TASK_STATE_RUNNING) ∧
        v'.result j = v.result j)) :
    ph.Matches v' task := by
  cases ph with
  | fresh =>
    obtain ⟨hj, ht, hd⟩ := h
    exact ⟨hjoin.trans hj, htask.trans ht, fun hd' => hd (hdone.1 hd')⟩
  | waited j =>
    obtain ⟨hj, ht, hd, hlt, hst, hctx⟩ := h
    have hnew := hjoiner j hlt hctx
    exact ⟨hjoin.trans hj, htask.trans ht, fun hd' => hd (hdone.1 hd'),
      Nat.lt_of_lt_of_le hlt hmade, hnew.2.1 hst, hnew.1⟩
  | woken j r =>
    obtain ⟨hd, hlt, hst, hctx, hr⟩ := h
    have hnew := hjoiner j hlt hctx
    exact ⟨hdone.2 hd, Nat.lt_of_lt_of_le hlt hmade, (hnew.2.2 hst).1, hnew.1, (hnew.2.2 hst).2.trans hr⟩
  | received j r => exact hdone.2 h
  | finished r =>
    obtain ⟨hj, hd, hr⟩ := h
    exact ⟨hjoin.trans hj, hdone.2 hd, (hresult hd).trans hr⟩
  | late j r => exact hdone.2 h

theorem Resumable.congr {phase' : TaskId → Phase} {v' : View} {t : TaskId} {k : Cont}
    (h : Resumable phase v t k) (hmade : v.made ≤ v'.made)
    (hphase : ∀ u r, u < v.made → phase u = .woken t r → phase' u = .woken t r) :
    Resumable phase' v' t k := by
  cases h with
  | entry => exact .entry
  | user => exact .user
  | join hu hp => exact .join (Nat.lt_of_lt_of_le hu hmade) (hphase _ _ hu hp)

end koala.task

namespace koala.task

set_option linter.style.nameCheck false

variable {phase : TaskId → Phase} {taken task : TaskId} {v : View}

theorem Inv.zero_lt (h : Inv phase taken v) : 0 < v.made :=
  Nat.lt_of_le_of_lt (Nat.zero_le _) h.current_lt

theorem Inv.take {rest : List TaskId} (h : Inv phase 0 v) (hdeque : v.deque = task :: rest) :
    Inv phase task v.pop ∧ task < v.made ∧ v.state task = .TASK_STATE_READY := by
  have hmem : task ∈ v.deque := by rw [hdeque]; exact List.mem_cons_self
  obtain ⟨hlt, -, -, hready⟩ := (h.queued task).1 hmem
  have hnodup := h.nodup
  rw [hdeque, List.nodup_cons] at hnodup
  have htail : v.pop.deque = rest := by rw [View.pop, hdeque, List.tail_cons]
  refine ⟨⟨h.current_lt, h.running, fun t => ?_, ?_, h.idle, h.idle_ctx, fun {t} ht hst => ?_,
    h.waiting, fun {u} hu => ?_, h.events, h.about⟩, hlt, hready⟩
  · have hq := h.queued t
    rw [hdeque, List.mem_cons] at hq
    rw [htail]
    constructor
    · intro ht
      obtain ⟨hlt', hne, -, hst⟩ := hq.1 (.inr ht)
      exact ⟨hlt', hne, fun heq => hnodup.1 (heq ▸ ht), hst⟩
    · rintro ⟨hlt', hne, hne', hst⟩
      exact (hq.2 ⟨hlt', hne, hne, hst⟩).resolve_left hne'
  · rw [htail]
    exact hnodup.2
  · obtain ⟨k, hk, hres⟩ := h.ready ht hst
    exact ⟨k, hk, hres.congr le_rfl fun _ _ _ hp => hp⟩
  · exact (h.matching hu).congr le_rfl rfl rfl (fun _ => rfl) Iff.rfl
      fun _ _ hctx => ⟨hctx, id, fun hor => ⟨hor, rfl⟩⟩

/-- A running task is in nobody's story but as one that goes on where it is. -/
theorem Inv.leave (h : Inv phase taken v) (hrunning : v.state v.current = .TASK_STATE_RUNNING)
    (hctx : v.ctx v.current = some .user) (htaken : v.current ≠ taken) :
    Inv phase taken v.leave.requeue := by
  have hlt := h.current_lt
  have hnot : v.current ∉ v.deque := by
    intro hmem
    have hst := ((h.queued _).1 hmem).2.2.2
    rw [hrunning] at hst
    cases hst
  have hself : v.leave.requeue.state v.current = .TASK_STATE_READY :=
    Function.update_self ..
  have hother : ∀ {t}, t ≠ v.current → v.leave.requeue.state t = v.state t :=
    fun hne => Function.update_of_ne hne ..
  refine ⟨hlt, fun {t} ht hst => ?_, fun t => ?_, ?_, ?_, h.idle_ctx, fun {t} ht hst => ?_,
    fun {t} ht hst => ?_, fun {u} hu => ?_, h.events, h.about⟩
  · by_cases heq : t = v.current
    · exact heq
    · exact h.running ht (hother heq ▸ hst)
  · have hmem : t ∈ v.leave.requeue.deque ↔ t ∈ v.deque ∨ t = v.current ∧ t ≠ 0 := by
      change t ∈ (if v.current = 0 then v.deque else v.deque ++ [v.current]) ↔ _
      split <;> grind
    rw [hmem, h.queued, show v.leave.requeue.made = v.made from rfl]
    by_cases heq : t = v.current
    · subst heq
      rw [hself, hrunning]
      simp [hlt, htaken]
    · rw [hother heq]
      simp [heq]
  · change (if v.current = 0 then v.deque else v.deque ++ [v.current]).Nodup
    split
    · exact h.nodup
    · exact List.nodup_append.2 ⟨h.nodup, List.nodup_singleton _, by
        intro a ha b hb heq
        rw [List.mem_singleton.1 hb] at heq
        exact hnot (heq ▸ ha)⟩
  · by_cases heq : 0 = v.current
    · exact .inr (heq ▸ hself)
    · rw [hother heq]
      exact h.idle
  · by_cases heq : t = v.current
    · exact ⟨.user, heq ▸ hctx, .user⟩
    · obtain ⟨k, hk, hres⟩ := h.ready ht (hother heq ▸ hst)
      exact ⟨k, hk, hres.congr le_rfl fun _ _ _ hp => hp⟩
  · by_cases heq : t = v.current
    · rw [heq, hself] at hst
      cases hst
    · exact h.waiting ht (hother heq ▸ hst)
  · refine (h.matching hu).congr le_rfl rfl rfl (fun _ => rfl) ?_ fun j hj hjctx => ?_
    · by_cases heq : u = v.current
      · simp [heq, hself, hrunning]
      · rw [hother heq]
    · by_cases heq : j = v.current
      · rw [heq, hctx] at hjctx
        cases hjctx
      · rw [hother heq]
        exact ⟨hjctx, id, fun hor => ⟨hor, rfl⟩⟩

/-- The task that was taken out runs, where no other one does. -/
theorem Inv.enter (h : Inv phase taken v) (htaken : taken < v.made)
    (hready : v.state taken = .TASK_STATE_READY)
    (hnone : v.state v.current ≠ .TASK_STATE_RUNNING) : Inv phase 0 (v.enter taken) := by
  have hself : (v.enter taken).state taken = .TASK_STATE_RUNNING := Function.update_self ..
  have hother : ∀ {t}, t ≠ taken → (v.enter taken).state t = v.state t :=
    fun hne => Function.update_of_ne hne ..
  refine ⟨htaken, fun {t} ht hst => ?_, fun t => ?_, h.nodup, ?_, h.idle_ctx, fun {t} ht hst => ?_,
    fun {t} ht hst => ?_, fun {u} hu => ?_, h.events, h.about⟩
  · by_cases heq : t = taken
    · exact heq
    · rw [hother heq] at hst
      exact absurd (h.running ht hst ▸ hst) hnone
  · change t ∈ v.deque ↔ _
    rw [h.queued]
    by_cases heq : t = taken
    · subst heq
      rw [hself]
      simp
    · rw [hother heq]
      simp only [ne_eq, heq, not_false_eq_true, true_and]
      exact ⟨fun ⟨h1, h2, h3⟩ => ⟨h1, h2, h2, h3⟩, fun ⟨h1, h2, _, h3⟩ => ⟨h1, h2, h3⟩⟩
  · by_cases heq : 0 = taken
    · exact .inl (heq ▸ hself)
    · rw [hother heq]
      exact h.idle
  · by_cases heq : t = taken
    · rw [heq, hself] at hst
      cases hst
    · obtain ⟨k, hk, hres⟩ := h.ready ht (hother heq ▸ hst)
      exact ⟨k, hk, hres.congr le_rfl fun _ _ _ hp => hp⟩
  · by_cases heq : t = taken
    · rw [heq, hself] at hst
      cases hst
    · exact h.waiting ht (hother heq ▸ hst)
  · refine (h.matching hu).congr le_rfl rfl rfl (fun _ => rfl) ?_ fun j hj hjctx => ?_
    · by_cases heq : u = taken
      · simp [heq, hself, hready]
      · rw [hother heq]
    · by_cases heq : j = taken
      · rw [heq, hself, hready]
        exact ⟨heq ▸ hjctx, nofun, fun _ => ⟨.inr rfl, rfl⟩⟩
      · rw [hother heq]
        exact ⟨hjctx, id, fun hor => ⟨hor, rfl⟩⟩

end koala.task

namespace koala.task

set_option linter.style.nameCheck false

/-- The state in which processor 0 has to do with `v`. -/
def View.shown (v : View) (others : Nat → Proc) (stack : TaskId) (pc : Pc) : State where
  procs := Function.update others 0 ⟨v.current, stack, v.deque, pc⟩
  tasks t := ⟨v.ctx t, v.state t, v.result t, v.join_state t, v.join_task t⟩
  made := v.made
  events := v.events

variable {v : View} {others : Nat → Proc} {stack t : TaskId} {pc : Pc}

@[simp] theorem View.shown_procs :
    (v.shown others stack pc).procs 0 = ⟨v.current, stack, v.deque, pc⟩ := by
  simp only [shown, Function.update_self]

@[simp] theorem View.shown_tasks : (v.shown others stack pc).tasks t =
    ⟨v.ctx t, v.state t, v.result t, v.join_state t, v.join_task t⟩ := rfl

@[simp] theorem View.shown_made : (v.shown others stack pc).made = v.made := rfl

@[simp] theorem View.shown_events : (v.shown others stack pc).events = v.events := rfl

theorem View.shown_setProc (f : Proc → Proc) : (v.shown others stack pc).setProc 0 f =
    { v.shown others stack pc with
      procs := Function.update others 0 (f ⟨v.current, stack, v.deque, pc⟩) } := by
  rw [State.setProc, shown_procs, shown, Function.update_idem]

@[simp] theorem View.shown_goto {pc' : Pc} :
    (v.shown others stack pc).goto 0 pc' = v.shown others stack pc' :=
  shown_setProc _

@[simp] theorem View.shown_push :
    (v.shown others stack pc).push 0 t = (v.push t).shown others stack pc :=
  shown_setProc _

@[simp] theorem View.shown_pop :
    (v.shown others stack pc).pop 0 = v.pop.shown others stack pc :=
  shown_setProc _

@[simp] theorem View.shown_setCurrent :
    ((v.shown others stack pc).setProc 0 fun proc => { proc with current := t }) =
      View.shown { v with current := t } others stack pc :=
  shown_setProc _

@[simp] theorem View.shown_setStack :
    ((v.shown others stack pc).setProc 0 fun proc => { proc with stack := t }) =
      v.shown others t pc :=
  shown_setProc _

@[simp] theorem View.shown_log {e : Event} :
    (v.shown others stack pc).log e = (v.log e).shown others stack pc := rfl

theorem View.shown_setTask {v' : View} {f : Task → Task}
    (hview : v' = { v with
      ctx := v'.ctx, state := v'.state, result := v'.result,
      join_state := v'.join_state, join_task := v'.join_task })
    (htask : f ⟨v.ctx t, v.state t, v.result t, v.join_state t, v.join_task t⟩ =
      ⟨v'.ctx t, v'.state t, v'.result t, v'.join_state t, v'.join_task t⟩)
    (hother : ∀ u ≠ t, v'.ctx u = v.ctx u ∧ v'.state u = v.state u ∧ v'.result u = v.result u ∧
      v'.join_state u = v.join_state u ∧ v'.join_task u = v.join_task u) :
    (v.shown others stack pc).setTask t f = v'.shown others stack pc := by
  have htasks : Function.update (v.shown others stack pc).tasks t
      (f ((v.shown others stack pc).tasks t)) = (v'.shown others stack pc).tasks := by
    funext u
    by_cases heq : u = t
    · subst heq
      exact (Function.update_self ..).trans htask
    · obtain ⟨hc, hs, hr, hj, ht⟩ := hother u heq
      refine (Function.update_of_ne heq ..).trans ?_
      rw [shown_tasks, shown_tasks, hc, hs, hr, hj, ht]
  rw [State.setTask, htasks, hview]
  rfl

@[simp] theorem View.shown_setState {st : task_state_t} :
    ((v.shown others stack pc).setTask t fun x => { x with state := st }) =
      (v.setState t st).shown others stack pc :=
  shown_setTask rfl (by simp [setState]) fun u hu => by simp [setState, Function.update_of_ne hu]

@[simp] theorem View.shown_setCtx {k : Cont} :
    ((v.shown others stack pc).setTask t fun x => { x with context := some k }) =
      (v.setCtx t k).shown others stack pc :=
  shown_setTask rfl (by simp [setCtx]) fun u hu => by simp [setCtx, Function.update_of_ne hu]

@[simp] theorem View.shown_setResult {r : Word} :
    ((v.shown others stack pc).setTask t fun x => { x with result := r }) =
      (v.setResult t r).shown others stack pc :=
  shown_setTask rfl (by simp [setResult]) fun u hu => by
    simp [setResult, Function.update_of_ne hu]

@[simp] theorem View.shown_setJoin {st : join_state_t} :
    ((v.shown others stack pc).setTask t fun x => { x with join_state := st }) =
      (v.setJoin t st).shown others stack pc :=
  shown_setTask rfl (by simp [setJoin]) fun u hu => by simp [setJoin, Function.update_of_ne hu]

@[simp] theorem View.shown_setJoinTask {j : Option TaskId} :
    ((v.shown others stack pc).setTask t fun x => { x with join_task := j }) =
      (v.setJoinTask t j).shown others stack pc :=
  shown_setTask rfl (by simp [setJoinTask]) fun u hu => by
    simp [setJoinTask, Function.update_of_ne hu]

theorem View.run_shown : run 1 0 (v.shown others stack pc) = exec 1 0 (v.shown others stack pc) pc := by
  rw [run, shown_procs]

/-- What processor 0 has to do with in a state. -/
def State.view (s : State) : View where
  current := (s.procs 0).current
  deque := (s.procs 0).deque
  made := s.made
  events := s.events
  state t := (s.tasks t).state
  ctx t := (s.tasks t).context
  result t := (s.tasks t).result
  join_state t := (s.tasks t).join_state
  join_task t := (s.tasks t).join_task

theorem State.shown_view (s : State) :
    s.view.shown s.procs (s.procs 0).stack (s.procs 0).pc = s := by
  rw [View.shown, view, Function.update_eq_self]

end koala.task
