import Koala.Eval.Slots
import Koala.Eval.Overflow

namespace koala.eval

set_option linter.style.nameCheck false

/-- The memory of objects at addresses `A`: their counts, the items of those
that are tuples, and which are freed. -/
structure Heap (A : Type) where
  refcnt : A → Int
  items : A → Option (List (Option A))
  freed : A → Bool

variable {A : Type}

/-- The classes of the objects. -/
abbrev Heap.objects (h : Heap A) : Objects A := ⟨h.items, fun _ _ => .error .null⟩

/-- A use of an object that is freed reads outside of what is allocated. -/
def Heap.live (h : Heap A) (o : A) : Res A := if h.freed o then .error .bounds else .ok o

section counts

variable [DecidableEq A] (ob_free : A → Heap A → Res (Heap A))

def Heap.count (h : Heap A) (o : A) (n : Int) : Heap A :=
  { h with refcnt := Function.update h.refcnt o n }

def HEAP_INCREF (h : Heap A) (ob : Option A) : Res (A × Heap A) := do
  let ob ← OB_INCREF ob
  let ob ← h.live ob
  .ok (ob, h.count ob (h.refcnt ob + 1))

/-- An object whose count gets to 0 is freed by its class. -/
def HEAP_DECREF (h : Heap A) : Option A → Res (Heap A)
  | none => .ok h
  | some ob => do
    let ob ← h.live ob
    let n := h.refcnt ob - 1
    if n ≠ 0 then if n > 0 then .ok (h.count ob n) else .error .assertion
    else ob_free ob (h.count ob 0)

/-- The items of a tuple are released. -/
def Tuple_Free.loop (h : Heap A) : List (Option A) → Res (Heap A)
  | [] => .ok h
  | tmp :: items => do
    let h ← HEAP_DECREF ob_free h tmp
    loop h items

def Tuple_Free (h : Heap A) (ob : A) : Res (Heap A) := do
  let ob ← h.live ob
  match h.items ob with
  | none => .error .assertion
  | some items => do
    let h ← Tuple_Free.loop ob_free h items
    .ok { h with freed := Function.update h.freed ob true }

/-- The results are pushed from the last to the first. -/
def heap_push_results (h : Heap A) (stack : List A) : List (Option A) → Res (Heap A × List A)
  | [] => .ok (h, stack)
  | ob :: items => do
    let (h, stack) ← heap_push_results h stack items
    let (ob, h) ← HEAP_INCREF h ob
    let stack ← PUSH stack ob
    .ok (h, stack)

/-- `run_cfunction` with the counts of the objects. -/
def heap_run_cfunction (cfunc : Option A → Option A → Heap A → Res (Option A × Heap A))
    (h : Heap A) (cf : CallFrame A) (ks : KoalaState A) : Res (Heap A × KoalaState A) := do
  let _ ← @check_arguments A h.objects cf
  let (ret, h) ← cfunc cf.ob cf.args h
  match ret with
  | none => do
    let (_, ks) ← pop_frame ks
    .ok (h, ks)
  | some ob => do
    let ob ← h.live ob
    let (h, stack) ← match h.items ob with
      | some items => heap_push_results h ks.stack items
      | none => do
        let (ob, h) ← HEAP_INCREF h (some ob)
        let stack ← PUSH ks.stack ob
        .ok (h, stack)
    let h ← Tuple_Free ob_free h ob
    let (_, ks) ← pop_frame { ks with stack }
    .ok (h, ks)

end counts

section changes

variable [DecidableEq A] {ob_free : A → Heap A → Res (Heap A)} {h h' : Heap A} {o : A}

def Heap.Alive (h : Heap A) (o : A) : Prop := h.freed o = false ∧ 0 < h.refcnt o

theorem HEAP_INCREF_live (hfreed : h.freed o = false) :
    HEAP_INCREF h (some o) = .ok (o, h.count o (h.refcnt o + 1)) := by
  simp [HEAP_INCREF, OB_INCREF, Heap.live, hfreed]

theorem HEAP_DECREF_live (hfreed : h.freed o = false) (hcount : 1 < h.refcnt o) :
    HEAP_DECREF ob_free h (some o) = .ok (h.count o (h.refcnt o - 1)) := by
  have hne : h.refcnt o - 1 ≠ 0 := by omega
  have hpos : h.refcnt o - 1 > 0 := by omega
  rw [HEAP_DECREF, Heap.live, hfreed, if_neg Bool.false_ne_true, ok_bind]
  dsimp only
  rw [if_pos hne, if_pos hpos]

/-- The counts of some objects go up by one for each time they are named. -/
def Heap.retain (h : Heap A) (objs : List A) : Heap A :=
  { h with refcnt := fun a => h.refcnt a + objs.count a }

/-- They go down by one for each time. -/
def Heap.release (h : Heap A) (objs : List A) : Heap A :=
  { h with refcnt := fun a => h.refcnt a - objs.count a }

theorem Heap.retain_cons (h : Heap A) (o : A) (objs : List A) :
    (h.retain objs).count o ((h.retain objs).refcnt o + 1) = h.retain (o :: objs) := by
  simp only [Heap.count, Heap.retain, Heap.mk.injEq, and_true]
  funext a
  by_cases ha : a = o
  · subst ha
    rw [Function.update_self, List.count_cons_self]
    push_cast
    omega
  · rw [Function.update_of_ne ha, List.count_cons_of_ne (Ne.symm ha)]

theorem Heap.release_cons (h : Heap A) (o : A) (objs : List A) :
    (h.count o (h.refcnt o - 1)).release objs = h.release (o :: objs) := by
  simp only [Heap.count, Heap.release, Heap.mk.injEq, and_true]
  funext a
  by_cases ha : a = o
  · subst ha
    rw [Function.update_self, List.count_cons_self]
    push_cast
    omega
  · rw [Function.update_of_ne ha, List.count_cons_of_ne (Ne.symm ha)]

theorem Heap.release_retain (h : Heap A) (objs : List A) :
    (h.retain objs).release objs = h := by
  simp [Heap.retain, Heap.release]

/-- Objects that are alive are pushed, the first on top, where there is room. -/
theorem heap_push_results_ok {stack objs : List A} (halive : ∀ o ∈ objs, h.Alive o)
    (hroom : stack.length + objs.length ≤ MAX_STACK_SIZE) :
    heap_push_results h stack (objs.map some) = .ok (h.retain objs, objs ++ stack) := by
  induction objs with
  | nil => simp [heap_push_results, Heap.retain]
  | cons o objs ih =>
    rw [List.length_cons] at hroom
    have hrest := ih (fun a ha => halive a (List.mem_cons_of_mem o ha)) (by omega)
    obtain ⟨hfreed, hpos⟩ := halive o List.mem_cons_self
    have hfreed' : (h.retain objs).freed o = false := hfreed
    have hlt : (objs ++ stack).length < MAX_STACK_SIZE := by
      rw [List.length_append]
      omega
    rw [List.map_cons, heap_push_results, hrest, ok_bind]
    dsimp only
    rw [HEAP_INCREF_live hfreed', ok_bind]
    dsimp only
    rw [PUSH, if_pos hlt, ok_bind, Heap.retain_cons]
    rfl

/-- More objects than there is room for are pushed outside the array. -/
theorem heap_push_results_full {stack objs : List A} (halive : ∀ o ∈ objs, h.Alive o)
    (hlength : stack.length ≤ MAX_STACK_SIZE)
    (hfull : ¬ stack.length + objs.length ≤ MAX_STACK_SIZE) :
    heap_push_results h stack (objs.map some) = .error .bounds := by
  induction objs with
  | nil => exact absurd hlength hfull
  | cons o objs ih =>
    rw [List.length_cons] at hfull
    have halive' : ∀ a ∈ objs, h.Alive a := fun a ha => halive a (List.mem_cons_of_mem o ha)
    rw [List.map_cons, heap_push_results]
    by_cases hroom : stack.length + objs.length ≤ MAX_STACK_SIZE
    · obtain ⟨hfreed, hpos⟩ := halive o List.mem_cons_self
      have hfreed' : (h.retain objs).freed o = false := hfreed
      have hnot : ¬ (objs ++ stack).length < MAX_STACK_SIZE := by
        rw [List.length_append]
        omega
      rw [heap_push_results_ok halive' hroom, ok_bind]
      dsimp only
      rw [HEAP_INCREF_live hfreed', ok_bind]
      dsimp only
      rw [PUSH, if_neg hnot]
      rfl
    · rw [ih halive' hroom]
      rfl

/-- Objects that are counted more often than they are released stay alive. -/
theorem Tuple_Free_loop_ok {objs : List A} (hfreed : ∀ o ∈ objs, h.freed o = false)
    (hcount : ∀ o ∈ objs, (objs.count o : Int) < h.refcnt o) :
    Tuple_Free.loop ob_free h (objs.map some) = .ok (h.release objs) := by
  induction objs generalizing h with
  | nil => simp [Tuple_Free.loop, Heap.release]
  | cons o objs ih =>
    have hself := hcount o List.mem_cons_self
    rw [List.count_cons_self] at hself
    push_cast at hself
    rw [List.map_cons, Tuple_Free.loop,
      HEAP_DECREF_live (hfreed o List.mem_cons_self) (by omega), ok_bind, ← Heap.release_cons]
    refine ih (fun a ha => hfreed a (List.mem_cons_of_mem o ha)) fun a ha => ?_
    have hlt := hcount a (List.mem_cons_of_mem o ha)
    by_cases hao : a = o
    · subst hao
      simp only [Heap.count, Function.update_self]
      omega
    · rw [List.count_cons_of_ne (Ne.symm hao)] at hlt
      simpa [Heap.count, Function.update_of_ne hao] using hlt

end changes

end koala.eval
