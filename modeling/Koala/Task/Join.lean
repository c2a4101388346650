import Koala.Task.View

namespace koala.task

set_option linter.style.nameCheck false

namespace View

/-- The view behind `task_create`. -/
def create (v : View) : View where
  current := v.current
  deque := v.deque ++ [v.made]
  made := v.made + 1
  events := v.events
  state := Function.update v.state v.made .TASK_STATE_READY
  ctx := Function.update v.ctx v.made (some .entry)
  result := Function.update v.result v.made 0
  join_state := Function.update v.join_state v.made .TASK_JOINABLE
  join_task := Function.update v.join_task v.made none

/-- The current task waits for a task. -/
def wait (v : View) (u : TaskId) : View :=
  { v with
    state := Function.update v.state v.current .TASK_STATE_WAITING
    ctx := Function.update v.ctx v.current (some (.join u v.current))
    join_state := Function.update v.join_state u .TASK_WAIT_TO_JOIN
    join_task := Function.update v.join_task u (some v.current)
    events := v.events ++ [.call v.current u, .wait v.current u] }

/-- The current task joins a task that has finished. -/
def collect (v : View) (u : TaskId) (r : Word) : View :=
  { v with
    join_state := Function.update v.join_state u .TASK_WAIT_TO_JOIN
    events := v.events ++ [.call v.current u, .receive v.current u r] }

/-- The current task, which waited for a task, has its result. -/
def receive (v : View) (u : TaskId) (r : Word) : View :=
  { v with
    ctx := Function.update v.ctx v.current (some .user)
    events := v.events ++ [.receive v.current u r] }

end View

variable {phase : TaskId → Phase} {taken u : TaskId} {ph : Phase} {r : Word} {v : View}

/-- One more part of the story of a task. -/
theorem Inv.events_append (h : Inv phase taken v) {es : List Event}
    (hes : ∀ e ∈ es, e.about = u) (hph : ph.events u = (phase u).events u ++ es) {t : TaskId}
    (ht : t < v.made) :
    (v.events ++ es).filter (·.about = t) = (Function.update phase u ph t).events t := by
  rw [List.filter_append, h.events ht]
  by_cases heq : t = u
  · subst heq
    rw [Function.update_self, hph, List.filter_eq_self.2]
    simpa using hes
  · rw [Function.update_of_ne heq, List.filter_eq_nil_iff.2, List.append_nil]
    intro e he
    rw [hes e he]
    simpa using Ne.symm heq

theorem Inv.about_append (h : Inv phase taken v) {es : List Event}
    (hes : ∀ e ∈ es, e.about = u) (hu : u < v.made) : ∀ e ∈ v.events ++ es, e.about < v.made := by
  intro e he
  obtain he | he := List.mem_append.1 he
  · exact h.about e he
  · exact hes e he ▸ hu

theorem Inv.create (h : Inv phase 0 v) :
    Inv (Function.update phase v.made .fresh) 0 v.create := by
  have hlt : ∀ {t}, t < v.create.made → t ≠ v.made → t < v.made := fun ht hne =>
    Nat.lt_of_le_of_ne (Nat.lt_succ_iff.1 ht) hne
  have hself : v.create.state v.made = .TASK_STATE_READY := Function.update_self ..
  have hother : ∀ {t}, t ≠ v.made → v.create.state t = v.state t :=
    fun hne => Function.update_of_ne hne ..
  have hpos : 0 < v.made := Nat.lt_of_le_of_lt (Nat.zero_le _) h.current_lt
  have hphase : ∀ w q, w < v.made → phase w = q → Function.update phase v.made .fresh w = q :=
    fun w q hw hq => (Function.update_of_ne (Nat.ne_of_lt hw) ..).trans hq
  refine ⟨Nat.lt_succ_of_lt h.current_lt, fun {t} ht hst => ?_, fun t => ?_, ?_, ?_, ?_,
    fun {t} ht hst => ?_, fun {t} ht hst => ?_, fun {w} hw => ?_, fun {w} hw => ?_,
    fun e he => Nat.lt_succ_of_lt (h.about e he)⟩
  · by_cases heq : t = v.made
    · rw [heq, hself] at hst
      cases hst
    · exact h.running (hlt ht heq) (hother heq ▸ hst)
  · rw [show v.create.deque = v.deque ++ [v.made] from rfl, List.mem_append, h.queued,
      List.mem_singleton, show v.create.made = v.made + 1 from rfl]
    by_cases heq : t = v.made
    · subst heq
      simp [hself, Nat.ne_of_gt hpos]
    · have hiff : t < v.made + 1 ↔ t < v.made := by grind
      rw [hother heq, hiff]
      simp [heq]
  · refine List.nodup_append.2 ⟨h.nodup, List.nodup_singleton _, fun a ha b hb heq => ?_⟩
    rw [List.mem_singleton.1 hb] at heq
    exact Nat.ne_of_lt ((h.queued a).1 ha).1 heq
  · rw [hother (Nat.ne_of_lt hpos)]
    exact h.idle
  · exact (Function.update_of_ne (Nat.ne_of_lt hpos) ..).trans h.idle_ctx
  · by_cases heq : t = v.made
    · exact ⟨.entry, heq ▸ Function.update_self .., .entry⟩
    · obtain ⟨k, hk, hres⟩ := h.ready (hlt ht heq) (hother heq ▸ hst)
      exact ⟨k, (Function.update_of_ne heq ..).trans hk,
        hres.congr (Nat.le_succ _) fun w r hw hp => hphase w _ hw hp⟩
  · by_cases heq : t = v.made
    · rw [heq, hself] at hst
      cases hst
    · obtain ⟨w, hw, hp⟩ := h.waiting (hlt ht heq) (hother heq ▸ hst)
      exact ⟨w, Nat.lt_succ_of_lt hw, hphase w _ hw hp⟩
  · by_cases heq : w = v.made
    · subst heq
      rw [Function.update_self]
      exact ⟨Function.update_self .., Function.update_self .., by rw [hself]; nofun⟩
    · rw [Function.update_of_ne heq]
      refine (h.matching (hlt hw heq)).congr (Nat.le_succ _) (Function.update_of_ne heq ..)
        (Function.update_of_ne heq ..) (fun _ => Function.update_of_ne heq ..) (by rw [hother heq])
        fun j hj hctx => ?_
      have hne : j ≠ v.made := Nat.ne_of_lt hj
      rw [hother hne]
      exact ⟨(Function.update_of_ne hne ..).trans hctx, id,
        fun hor => ⟨hor, Function.update_of_ne hne ..⟩⟩
  · by_cases heq : w = v.made
    · subst heq
      rw [Function.update_self]
      refine List.filter_eq_nil_iff.2 fun e he => ?_
      simpa using Nat.ne_of_lt (h.about e he)
    · rw [Function.update_of_ne heq]
      exact h.events (hlt hw heq)

/-- A task begins with its entry function. -/
theorem Inv.begin (h : Inv phase taken v) (hctx : v.ctx v.current = some .entry)
    (hrunning : v.state v.current = .TASK_STATE_RUNNING) :
    Inv phase taken (v.setCtx v.current .user) := by
  refine ⟨h.current_lt, h.running, h.queued, h.nodup, h.idle, ?_, fun {t} ht hst => ?_, h.waiting,
    fun {u} hu => ?_, h.events, h.about⟩
  · by_cases heq : 0 = v.current
    · rw [heq]
      exact Function.update_self ..
    · exact (Function.update_of_ne heq ..).trans h.idle_ctx
  · have hne : t ≠ v.current := by
      intro heq
      rw [heq] at hst
      cases hrunning.symm.trans hst
    obtain ⟨k, hk, hres⟩ := h.ready ht hst
    exact ⟨k, (Function.update_of_ne hne ..).trans hk, hres.congr le_rfl fun _ _ _ hp => hp⟩
  · refine (h.matching hu).congr le_rfl rfl rfl (fun _ => rfl) Iff.rfl fun j _ hj => ?_
    have hne : j ≠ v.current := by
      intro heq
      rw [heq] at hj
      cases hctx.symm.trans hj
    exact ⟨(Function.update_of_ne hne ..).trans hj, id, fun hor => ⟨hor, rfl⟩⟩

theorem Inv.receive (h : Inv phase taken v) (hu : u < v.made)
    (hphase : phase u = .woken v.current r)
    (hrunning : v.state v.current = .TASK_STATE_RUNNING) :
    Inv (Function.update phase u (.received v.current r)) taken (v.receive u r) := by
  obtain ⟨hdone, -, -, hctx, -⟩ : (Phase.woken v.current r).Matches v u := hphase ▸ h.matching hu
  have hes : ∀ e ∈ [Event.receive v.current u r], e.about = u := by simp [Event.about]
  refine ⟨h.current_lt, h.running, h.queued, h.nodup, h.idle, ?_, fun {t} ht hst => ?_,
    fun {t} ht hst => ?_, fun {w} hw => ?_,
    fun {t} => h.events_append hes (by rw [hphase]; rfl), h.about_append hes hu⟩
  · by_cases heq : 0 = v.current
    · exact heq ▸ Function.update_self ..
    · exact (Function.update_of_ne heq ..).trans h.idle_ctx
  · have hne : t ≠ v.current := by
      intro heq
      rw [heq] at hst
      cases hrunning.symm.trans hst
    obtain ⟨k, hk, hres⟩ := h.ready ht hst
    refine ⟨k, (Function.update_of_ne hne ..).trans hk, hres.congr le_rfl fun w q _ hp => ?_⟩
    have hwu : w ≠ u := by
      intro heq
      rw [heq, hphase] at hp
      injection hp with heq' _
      exact hne heq'.symm
    exact (Function.update_of_ne hwu ..).trans hp
  · obtain ⟨w, hw, hp⟩ := h.waiting ht hst
    have hwu : w ≠ u := by
      intro heq
      rw [heq, hphase] at hp
      cases hp
    exact ⟨w, hw, (Function.update_of_ne hwu ..).trans hp⟩
  · by_cases heq : w = u
    · subst heq
      rw [Function.update_self]
      exact hdone
    · rw [Function.update_of_ne heq]
      refine (h.matching hw).congr le_rfl rfl rfl (fun _ => rfl) Iff.rfl fun j _ hj => ?_
      have hne : j ≠ v.current := by
        intro heq'
        rw [heq', hctx] at hj
        injection hj with hj'
        injection hj' with huw _
        exact heq huw.symm
      exact ⟨(Function.update_of_ne hne ..).trans hj, id, fun hor => ⟨hor, rfl⟩⟩

theorem Inv.wait (h : Inv phase 0 v) (hu : u < v.made) (hphase : phase u = .fresh)
    (hne : u ≠ v.current) (hnot : v.current ≠ 0) (hctx : v.ctx v.current = some .user)
    (hrunning : v.state v.current = .TASK_STATE_RUNNING) :
    Inv (Function.update phase u (.waited v.current)) 0 (v.wait u) := by
  obtain ⟨-, -, hdone⟩ : Phase.fresh.Matches v u := hphase ▸ h.matching hu
  have hself : (v.wait u).state v.current = .TASK_STATE_WAITING := Function.update_self ..
  have hother : ∀ {t}, t ≠ v.current → (v.wait u).state t = v.state t :=
    fun hne => Function.update_of_ne hne ..
  have hes : ∀ e ∈ [Event.call v.current u, .wait v.current u], e.about = u := by
    simp [Event.about]
  refine ⟨h.current_lt, fun {t} ht hst => ?_, fun t => ?_, h.nodup, ?_, ?_, fun {t} ht hst => ?_,
    fun {t} ht hst => ?_, fun {w} hw => ?_,
    fun {t} => h.events_append hes (by rw [hphase]; rfl), h.about_append hes hu⟩
  · by_cases heq : t = v.current
    · exact heq
    · exact h.running ht (hother heq ▸ hst)
  · change t ∈ v.deque ↔ _
    rw [h.queued]
    by_cases heq : t = v.current
    · rw [heq, hself, hrunning]
      simp
    · rw [hother heq]
      exact Iff.rfl
  · rw [hother hnot.symm]
    exact h.idle
  · exact (Function.update_of_ne hnot.symm ..).trans h.idle_ctx
  · by_cases heq : t = v.current
    · rw [heq, hself] at hst
      cases hst
    · obtain ⟨k, hk, hres⟩ := h.ready ht (hother heq ▸ hst)
      refine ⟨k, (Function.update_of_ne heq ..).trans hk, hres.congr le_rfl fun w q _ hp => ?_⟩
      have hwu : w ≠ u := by
        intro heq'
        rw [heq', hphase] at hp
        cases hp
      exact (Function.update_of_ne hwu ..).trans hp
  · by_cases heq : t = v.current
    · exact ⟨u, hu, heq ▸ Function.update_self ..⟩
    · obtain ⟨w, hw, hp⟩ := h.waiting ht (hother heq ▸ hst)
      have hwu : w ≠ u := by
        intro heq'
        rw [heq', hphase] at hp
        cases hp
      exact ⟨w, hw, (Function.update_of_ne hwu ..).trans hp⟩
  · by_cases heq : w = u
    · subst heq
      rw [Function.update_self]
      exact ⟨Function.update_self .., Function.update_self .., (hother hne).symm ▸ hdone,
        h.current_lt, hself, Function.update_self ..⟩
    · rw [Function.update_of_ne heq]
      refine (h.matching hw).congr le_rfl (Function.update_of_ne heq ..)
        (Function.update_of_ne heq ..) (fun _ => rfl) ?_ fun j _ hj => ?_
      · by_cases heq' : w = v.current
        · simp [heq', hself, hrunning]
        · rw [hother heq']
      · have hjne : j ≠ v.current := by
          intro heq'
          rw [heq', hctx] at hj
          cases hj
        rw [hother hjne]
        exact ⟨(Function.update_of_ne hjne ..).trans hj, id, fun hor => ⟨hor, rfl⟩⟩

theorem Inv.collect (h : Inv phase taken v) (hu : u < v.made) (hphase : phase u = .finished r) :
    Inv (Function.update phase u (.late v.current r)) taken (v.collect u r) := by
  obtain ⟨-, hdone, -⟩ : (Phase.finished r).Matches v u := hphase ▸ h.matching hu
  have hes : ∀ e ∈ [Event.call v.current u, .receive v.current u r], e.about = u := by
    simp [Event.about]
  have hkeep : ∀ {w t q}, phase w = .waited t ∨ phase w = .woken t q →
      Function.update phase u (.late v.current r) w = phase w := by
    intro w t q hp
    refine Function.update_of_ne (fun heq => ?_) ..
    rw [heq, hphase] at hp
    obtain hp | hp := hp <;> cases hp
  refine ⟨h.current_lt, h.running, h.queued, h.nodup, h.idle, h.idle_ctx, fun {t} ht hst => ?_,
    fun {t} ht hst => ?_, fun {w} hw => ?_,
    fun {t} => h.events_append hes (by rw [hphase]; rfl), h.about_append hes hu⟩
  · obtain ⟨k, hk, hres⟩ := h.ready ht hst
    exact ⟨k, hk, hres.congr le_rfl fun w q _ hp => (hkeep (.inr hp)).trans hp⟩
  · obtain ⟨w, hw, hp⟩ := h.waiting ht hst
    exact ⟨w, hw, (hkeep (q := 0) (.inl hp)).trans hp⟩
  · by_cases heq : w = u
    · subst heq
      rw [Function.update_self]
      exact hdone
    · rw [Function.update_of_ne heq]
      exact (h.matching hw).congr le_rfl (Function.update_of_ne heq ..) rfl (fun _ => rfl) Iff.rfl
        fun j _ hj => ⟨hj, id, fun hor => ⟨hor, rfl⟩⟩

end koala.task
