import Koala.Task.Join
import Koala.Task.View

namespace koala.task

set_option linter.style.nameCheck false

namespace View

/-- The current task finishes and nobody has joined it. -/
def finish (v : View) (r : Word) : View :=
  { v with
    state := Function.update v.state v.current .TASK_STATE_DONE
    ctx := Function.update v.ctx v.current (some .exit)
    result := Function.update v.result v.current r
    join_state := Function.update v.join_state v.current .TASK_WAIT_FOR_JOINER
    events := v.events ++ [.finish v.current r] }

/-- The current task finishes and makes its joiner ready. -/
def wake (v : View) (j : TaskId) (r : Word) : View :=
  { v with
    deque := v.deque ++ [j]
    state :=
      Function.update (Function.update v.state j .TASK_STATE_READY) v.current .TASK_STATE_DONE
    ctx := Function.update v.ctx v.current (some .exit)
    result := Function.update (Function.update v.result v.current r) j r
    join_state := Function.update v.join_state v.current .TASK_WAIT_FOR_JOINER
    join_task := Function.update v.join_task v.current none
    events := v.events ++ [.finish v.current r, .wake j v.current] }

end View

variable {phase : TaskId → Phase} {taken j : TaskId} {r : Word} {v : View}

theorem Inv.finish (h : Inv phase 0 v) (hphase : phase v.current = .fresh) (hnot : v.current ≠ 0)
    (hctx : v.ctx v.current = some .user) (hrunning : v.state v.current = .TASK_STATE_RUNNING) :
    Inv (Function.update phase v.current (.finished r)) 0 (v.finish r) := by
  have hself : (v.finish r).state v.current = .TASK_STATE_DONE := Function.update_self ..
  have hother : ∀ {t}, t ≠ v.current → (v.finish r).state t = v.state t :=
    fun hne => Function.update_of_ne hne ..
  have hes : ∀ e ∈ [Event.finish v.current r], e.about = v.current := by simp [Event.about]
  have hkeep : ∀ {w t q}, phase w = .waited t ∨ phase w = .woken t q →
      Function.update phase v.current (.finished r) w = phase w := by
    intro w t q hp
    refine Function.update_of_ne (fun heq => ?_) ..
    rw [heq, hphase] at hp
    obtain hp | hp := hp <;> cases hp
  refine ⟨h.current_lt, fun {t} ht hst => ?_, fun t => ?_, h.nodup, ?_, ?_, fun {t} ht hst => ?_,
    fun {t} ht hst => ?_, fun {w} hw => ?_,
    fun {t} => h.events_append hes (by rw [hphase]; rfl), h.about_append hes h.current_lt⟩
  · by_cases heq : t = v.current
    · exact heq
    · exact h.running ht (hother heq ▸ hst)
  · change t ∈ v.deque ↔ _
    rw [h.queued]
    by_cases heq : t = v.current
    · rw [heq, hself, hrunning]
      simp
    · rw [hother heq]
      exact Iff.rfl
  · rw [hother hnot.symm]
    exact h.idle
  · exact (Function.update_of_ne hnot.symm ..).trans h.idle_ctx
  · by_cases heq : t = v.current
    · rw [heq, hself] at hst
      cases hst
    · obtain ⟨k, hk, hres⟩ := h.ready ht (hother heq ▸ hst)
      exact ⟨k, (Function.update_of_ne heq ..).trans hk,
        hres.congr le_rfl fun w q _ hp => (hkeep (.inr hp)).trans hp⟩
  · by_cases heq : t = v.current
    · rw [heq, hself] at hst
      cases hst
    · obtain ⟨w, hw, hp⟩ := h.waiting ht (hother heq ▸ hst)
      exact ⟨w, hw, (hkeep (q := 0) (.inl hp)).trans hp⟩
  · by_cases heq : w = v.current
    · subst heq
      rw [Function.update_self]
      exact ⟨Function.update_self .., hself, Function.update_self ..⟩
    · rw [Function.update_of_ne heq]
      refine (h.matching hw).congr le_rfl (Function.update_of_ne heq ..) rfl
        (fun _ => Function.update_of_ne heq ..) (by rw [hother heq]) fun i _ hi => ?_
      have hine : i ≠ v.current := by
        intro heq'
        rw [heq', hctx] at hi
        cases hi
      rw [hother hine]
      exact ⟨(Function.update_of_ne hine ..).trans hi, id,
        fun hor => ⟨hor, Function.update_of_ne hine ..⟩⟩

theorem Inv.wake (h : Inv phase 0 v) (hphase : phase v.current = .waited j) (hnot : v.current ≠ 0)
    (hctx : v.ctx v.current = some .user) (hrunning : v.state v.current = .TASK_STATE_RUNNING) :
    Inv (Function.update phase v.current (.woken j r)) 0 (v.wake j r) := by
  obtain ⟨-, -, -, hlt, hwaiting, hjctx⟩ : (Phase.waited j).Matches v v.current :=
    hphase ▸ h.matching h.current_lt
  have hjne : j ≠ v.current := by
    intro heq
    rw [heq, hrunning] at hwaiting
    cases hwaiting
  have hj0 : j ≠ 0 := by
    intro heq
    rw [heq, h.idle_ctx] at hjctx
    cases hjctx
  have hself : (v.wake j r).state v.current = .TASK_STATE_DONE := Function.update_self ..
  have hjoiner : (v.wake j r).state j = .TASK_STATE_READY :=
    (Function.update_of_ne hjne ..).trans (Function.update_self ..)
  have hother : ∀ {t}, t ≠ v.current → t ≠ j → (v.wake j r).state t = v.state t :=
    fun hne hnj => (Function.update_of_ne hne ..).trans (Function.update_of_ne hnj ..)
  have hes : ∀ e ∈ [Event.finish v.current r, .wake j v.current], e.about = v.current := by
    simp [Event.about]
  refine ⟨h.current_lt, fun {t} ht hst => ?_, fun t => ?_, ?_, ?_, ?_, fun {t} ht hst => ?_,
    fun {t} ht hst => ?_, fun {w} hw => ?_,
    fun {t} => h.events_append hes (by rw [hphase]; rfl), h.about_append hes h.current_lt⟩
  · by_cases heq : t = v.current
    · exact heq
    · by_cases hj : t = j
      · rw [hj, hjoiner] at hst
        cases hst
      · exact h.running ht (hother heq hj ▸ hst)
  · rw [show (v.wake j r).deque = v.deque ++ [j] from rfl, List.mem_append, h.queued,
      List.mem_singleton]
    change _ ↔ t < v.made ∧ _
    by_cases heq : t = v.current
    · rw [heq, hself, hrunning]
      simp [hjne.symm]
    · by_cases hj : t = j
      · rw [hj, hjoiner]
        simp [hlt, hj0]
      · rw [hother heq hj]
        simp [hj]
  · refine List.nodup_append.2 ⟨h.nodup, List.nodup_singleton _, fun a ha b hb heq => ?_⟩
    rw [List.mem_singleton.1 hb] at heq
    have hready := ((h.queued a).1 ha).2.2.2
    rw [heq, hwaiting] at hready
    cases hready
  · rw [hother hnot.symm hj0.symm]
    exact h.idle
  · exact (Function.update_of_ne hnot.symm ..).trans h.idle_ctx
  · have hne : t ≠ v.current := by
      intro heq
      rw [heq, hself] at hst
      cases hst
    by_cases hj : t = j
    · exact ⟨.join v.current j, (Function.update_of_ne hne ..).trans (hj ▸ hjctx),
        hj ▸ .join (r := r) h.current_lt (Function.update_self ..)⟩
    · obtain ⟨k, hk, hres⟩ := h.ready ht (hother hne hj ▸ hst)
      refine ⟨k, (Function.update_of_ne hne ..).trans hk, hres.congr le_rfl fun w q _ hp => ?_⟩
      have hwne : w ≠ v.current := by
        intro heq
        rw [heq, hphase] at hp
        cases hp
      exact (Function.update_of_ne hwne ..).trans hp
  · have hne : t ≠ v.current := by
      intro heq
      rw [heq, hself] at hst
      cases hst
    have hj : t ≠ j := by
      intro heq
      rw [heq, hjoiner] at hst
      cases hst
    obtain ⟨w, hw, hp⟩ := h.waiting ht (hother hne hj ▸ hst)
    have hwne : w ≠ v.current := by
      intro heq
      rw [heq, hphase] at hp
      injection hp with hjt
      exact hj hjt.symm
    exact ⟨w, hw, (Function.update_of_ne hwne ..).trans hp⟩
  · by_cases heq : w = v.current
    · subst heq
      rw [Function.update_self]
      exact ⟨hself, hlt, .inl hjoiner, (Function.update_of_ne hjne ..).trans hjctx,
        Function.update_self ..⟩
    · -- the joiner goes on in its join of the current task, not of another one
      rw [Function.update_of_ne heq]
      have hdone : (v.wake j r).state w = .TASK_STATE_DONE ↔ v.state w = .TASK_STATE_DONE := by
        by_cases hj : w = j
        · rw [hj, hjoiner, hwaiting]
          simp
        · rw [hother heq hj]
      have hresult : ∀ {i}, i ≠ v.current → i ≠ j → (v.wake j r).result i = v.result i :=
        fun hne hnj => (Function.update_of_ne hnj ..).trans (Function.update_of_ne hne ..)
      refine (h.matching hw).congr le_rfl (Function.update_of_ne heq ..)
        (Function.update_of_ne heq ..) (fun hd => hresult heq ?_) hdone fun i _ hi => ?_
      · intro hj
        rw [hj, hwaiting] at hd
        cases hd
      · have hine : i ≠ v.current := by
          intro heq'
          rw [heq', hctx] at hi
          cases hi
        have hinj : i ≠ j := by
          intro heq'
          rw [heq', hjctx] at hi
          injection hi with hi'
          injection hi' with hcw _
          exact heq hcw.symm
        rw [hother hine hinj]
        exact ⟨(Function.update_of_ne hine ..).trans hi, id,
          fun hor => ⟨hor, hresult hine hinj⟩⟩

end koala.task

namespace koala.task

set_option linter.style.nameCheck false

/-- A task runs by itself, and all is in order. -/
def Calm (s : State) : Prop :=
  ∃ (v : View) (others : Nat → Proc) (phase : TaskId → Phase),
    s = v.shown others v.current .user ∧ v.state v.current = .TASK_STATE_RUNNING ∧
    Inv phase 0 (v.setCtx v.current .user)

/-- Processor 0 gets, without a failed assertion, to where all is in order. -/
inductive Settles : State → Prop where
  | calm {s : State} (h : Calm s) : Settles s
  | step {s : State} (huser : (s.procs 0).pc ≠ .user)
    (hfailed : ∀ routine, (s.procs 0).pc ≠ .failed routine)
    (hswap : ∀ k from' to', (s.procs 0).pc = .swap k from' to' → (s.procs 0).stack ≠ to')
    (h : Settles (run 1 0 s)) : Settles s

variable {v : View} {others : Nat → Proc} {stack : TaskId} {phase : TaskId → Phase}

theorem Settles.run_to {pc : Pc} {s : State}
    (hrun : exec 1 0 (v.shown others stack pc) pc = s) (h : Settles s)
    (huser : pc ≠ .user := by simp) (hfailed : ∀ routine, pc ≠ .failed routine := by simp)
    (hswap : ∀ k from' to', pc = .swap k from' to' → stack ≠ to' := by simp) :
    Settles (v.shown others stack pc) := by
  refine .step ?_ ?_ ?_ ?_
  · rw [View.shown_procs]
    exact huser
  · rw [View.shown_procs]
    exact hfailed
  · rw [View.shown_procs]
    exact hswap
  · rw [View.run_shown, hrun]
    exact h

/-- The current task goes on where its context says. -/
theorem Settles.resume {k : Cont} (h : Inv phase 0 v) (hctx : v.ctx v.current = some k)
    (hrunning : v.state v.current = .TASK_STATE_RUNNING) (hres : Resumable phase v v.current k) :
    Settles (v.shown others v.current (resume k)) := by
  cases hres with
  | entry => exact .calm ⟨v, others, phase, rfl, hrunning, h.begin hctx hrunning⟩
  | user =>
    refine .calm ⟨v, others, phase, rfl, hrunning, ?_⟩
    rw [View.setCtx, ← hctx, Function.update_eq_self]
    exact h
  | @join u r hu hphase =>
    obtain ⟨-, -, -, -, hresult⟩ : (Phase.woken v.current r).Matches v u := hphase ▸ h.matching hu
    change Settles (v.shown others v.current (.join_check u v.current))
    apply Settles.run_to (s := v.shown others v.current (.join_result u v.current))
    · simp [exec, hrunning]
    apply Settles.run_to (s := (v.log (.receive v.current u r)).shown others v.current .user)
    · simp [exec, hresult]
    exact .calm ⟨v.log (.receive v.current u r), others, _, rfl, hrunning,
      h.receive hu hphase hrunning⟩

/-- The last part of `task_switch_to`. -/
theorem Settles.check_ready {k : Cont} {to' : TaskId} (h : Inv phase to' (v.setCtx v.current k))
    (hlt : to' < v.made) (hready : v.state to' = .TASK_STATE_READY) (hne : to' ≠ v.current)
    (hnone : v.state v.current ≠ .TASK_STATE_RUNNING) :
    Settles (v.shown others v.current (.check_ready k v.current to')) := by
  obtain ⟨k', hk', hres⟩ := h.ready hlt hready
  have hctx : v.ctx to' = some k' := (Function.update_of_ne hne ..).symm.trans hk'
  have hnew : Inv phase 0 ((v.enter to').setCtx v.current k) := h.enter hlt hready hnone
  apply Settles.run_to (s := v.shown others v.current (.set_running k v.current to'))
  · simp [exec, hready]
  apply Settles.run_to (s := (v.setState to' .TASK_STATE_RUNNING).shown others v.current
    (.set_current k v.current to'))
  · simp [exec]
  apply Settles.run_to (s := (v.enter to').shown others v.current (.swap k v.current to'))
  · simp [exec, View.setState, View.enter]
  refine Settles.run_to (s := ((v.enter to').setCtx v.current k).shown others to'
    (koala.task.resume k')) ?_ ?_ (by simp) (by simp) ?_
  · simp [exec, View.enter, hctx]
  · exact .resume hnew hk' (Function.update_self ..) (hres.congr le_rfl fun _ _ _ hp => hp)
  -- the task that is resumed is another one
  · intro k₁ from' to₁ hpc
    injection hpc with _ _ hto
    exact hto ▸ hne.symm

/-- `task_switch_to` to a task that was taken out of the deque, or to the idle one. -/
theorem Settles.switch_to {k : Cont} {to' : TaskId} (h : Inv phase to' (v.setCtx v.current k))
    (hlt : to' < v.made) (hready : v.state to' = .TASK_STATE_READY)
    (hcurrent : v.state v.current ≠ .TASK_STATE_READY)
    (huser : v.state v.current = .TASK_STATE_RUNNING → k = .user) :
    Settles (v.shown others v.current (.is_running k to')) := by
  have hne : to' ≠ v.current := by
    intro heq
    exact hcurrent (heq ▸ hready)
  cases hst : v.state v.current with
  | TASK_STATE_RUNNING =>
    obtain rfl := huser hst
    have hnew : Inv phase to' ((v.leave.requeue).setCtx v.current .user) :=
      h.leave hst (Function.update_self ..) hne.symm
    have hready' : v.leave.requeue.state to' = .TASK_STATE_READY :=
      (Function.update_of_ne hne ..).trans hready
    have hleft : v.leave.requeue.state v.current ≠ .TASK_STATE_RUNNING := by
      rw [show v.leave.requeue.state v.current = .TASK_STATE_READY from Function.update_self ..]
      simp
    apply Settles.run_to (s := v.shown others v.current (.set_ready .user v.current to'))
    · simp [exec, hst]
    apply Settles.run_to (s := v.leave.shown others v.current (.requeue .user v.current to'))
    · simp [exec, View.leave]
    apply Settles.run_to (s := v.leave.requeue.shown others v.current
      (.check_ready .user v.current to'))
    · by_cases hidle : v.current = 0
      · simp [exec, View.leave, View.requeue, View.setState, hidle]
      · simp [exec, View.leave, View.requeue, View.setState, View.push, hidle]
    exact Settles.check_ready hnew hlt hready' hne hleft
  | TASK_STATE_READY => exact absurd hst hcurrent
  | TASK_STATE_WAITING =>
    apply Settles.run_to (s := v.shown others v.current (.is_done k v.current to'))
    · simp [exec, hst]
    apply Settles.run_to (s := v.shown others v.current (.is_waiting k v.current to'))
    · simp [exec, hst]
    apply Settles.run_to (s := v.shown others v.current (.check_ready k v.current to'))
    · simp [exec, hst]
    exact .check_ready h hlt hready hne (by simp [hst])
  | TASK_STATE_DONE =>
    apply Settles.run_to (s := v.shown others v.current (.is_done k v.current to'))
    · simp [exec, hst]
    apply Settles.run_to (s := v.shown others v.current (.check_ready k v.current to'))
    · simp [exec, hst]
    exact .check_ready h hlt hready hne (by simp [hst])

/-- `task_yield` of a task that runs, waits or is done. -/
theorem Settles.yield {k : Cont} (h : Inv phase 0 (v.setCtx v.current k)) (hk : k ≠ .routine)
    (hcurrent : v.state v.current ≠ .TASK_STATE_READY)
    (huser : v.state v.current = .TASK_STATE_RUNNING → k = .user) :
    Settles (v.shown others v.current (.load_balance k)) := by
  apply Settles.run_to (s := v.shown others v.current (.balance k v.deque.length 0))
  · simp [exec]
  apply Settles.run_to (s := v.shown others v.current (.get k))
  · simp [exec]
  cases hdeque : v.deque with
  | cons task rest =>
    obtain ⟨hnew, hlt, hready⟩ := h.take hdeque
    apply Settles.run_to (s := v.pop.shown others v.current (.is_running k task))
    · simp [exec, hdeque]
    exact Settles.switch_to (v := v.pop) hnew hlt hready hcurrent huser
  | nil =>
    apply Settles.run_to (s := v.shown others v.current (.no_task_done k))
    · cases k <;> simp_all [exec]
    -- without a task to run the idle one runs, unless the current one goes on
    have hidle : v.state v.current ≠ .TASK_STATE_RUNNING → v.state 0 = .TASK_STATE_READY := by
      intro hnot
      refine h.idle.resolve_left fun hrunning => hnot ?_
      rw [h.running (t := 0) (Nat.lt_of_le_of_lt (Nat.zero_le _) h.current_lt) hrunning] at hrunning
      exact hrunning
    have hzero : 0 < v.made := Nat.lt_of_le_of_lt (Nat.zero_le _) h.current_lt
    cases hst : v.state v.current with
    | TASK_STATE_RUNNING =>
      obtain rfl := huser hst
      apply Settles.run_to (s := v.shown others v.current (.no_task_waiting .user))
      · simp [exec, hst]
      apply Settles.run_to (s := v.shown others v.current .user)
      · simp [exec, hst, koala.task.resume]
      exact .calm ⟨v, others, phase, rfl, hst, h⟩
    | TASK_STATE_READY => exact absurd hst hcurrent
    | TASK_STATE_WAITING =>
      apply Settles.run_to (s := v.shown others v.current (.no_task_waiting k))
      · simp [exec, hst]
      apply Settles.run_to (s := v.shown others v.current (.is_running k 0))
      · simp [exec, hst]
      exact .switch_to h hzero (hidle (by simp [hst])) hcurrent huser
    | TASK_STATE_DONE =>
      apply Settles.run_to (s := v.shown others v.current (.is_running k 0))
      · simp [exec, hst]
      exact .switch_to h hzero (hidle (by simp [hst])) hcurrent huser

end koala.task
